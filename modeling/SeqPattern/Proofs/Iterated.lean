import SeqPattern.Meaning.Relation

namespace SeqPattern

variable {r s : Nat → Nat → Prop}

theorem Iterated.congr {size : Nat} (h : ∀ p, p ≤ size → ∀ q, r p q ↔ s p q)
    (hr : ∀ p q, r p q → q ≤ size) (k : Nat) {p : Nat} (hp : p ≤ size) (q : Nat) :
    Iterated r k p q ↔ Iterated s k p q := by
  induction k generalizing p with
  | zero => rfl
  | succ k ih =>
    constructor
    · rintro ⟨m, hm, hq⟩
      exact ⟨m, (h p hp m).mp hm, (ih (hr p m hm)).mp hq⟩
    · rintro ⟨m, hm, hq⟩
      have hm := (h p hp m).mpr hm
      exact ⟨m, hm, (ih (hr p m hm)).mpr hq⟩

theorem Iterated.mono (h : ∀ i j, r i j → s i j) {k i j : Nat} (hr : Iterated r k i j) :
    Iterated s k i j := by
  induction k generalizing i with
  | zero => exact hr
  | succ k ih =>
    obtain ⟨m, hm, hj⟩ := hr
    exact ⟨m, h i m hm, ih hj⟩

theorem le_of_iterated_of_le {size : Nat} (h : ∀ i j, i ≤ size → r i j → j ≤ size) {k i j : Nat}
    (hi : i ≤ size) (hr : Iterated r k i j) : j ≤ size := by
  induction k generalizing i with
  | zero =>
    have hj : j = i := hr
    omega
  | succ k ih =>
    obtain ⟨m, hm, hj⟩ := hr
    exact ih (h i m hi hm) hj

theorem iterated_succ_iff_last {k i j : Nat} :
    Iterated r (k + 1) i j ↔ ∃ m, Iterated r k i m ∧ r m j := by
  induction k generalizing i with
  | zero =>
    constructor
    · rintro ⟨m, hm, rfl⟩
      exact ⟨i, rfl, hm⟩
    · rintro ⟨m, rfl, hj⟩
      exact ⟨j, hj, rfl⟩
  | succ k ih =>
    constructor
    · rintro ⟨m, hm, h⟩
      obtain ⟨n, hn, hj⟩ := ih.mp h
      exact ⟨n, ⟨m, hm, hn⟩, hj⟩
    · rintro ⟨n, ⟨m, hm, hn⟩, hj⟩
      exact ⟨m, hm, ih.mpr ⟨n, hn, hj⟩⟩

theorem iterated_eq_of_stable {k i : Nat} (h : ∀ j, Iterated r (k + 1) i j ↔ Iterated r k i j)
    (d j : Nat) : Iterated r (k + d) i j ↔ Iterated r k i j := by
  induction d generalizing j with
  | zero => rfl
  | succ d ih =>
    rw [← Nat.add_assoc, iterated_succ_iff_last, ← h j, iterated_succ_iff_last]
    exact exists_congr fun m => and_congr_left fun _ => ih m

section Forward

variable (hr : ∀ i j, r i j → i ≤ j)

include hr

theorem le_of_iterated {k i j : Nat} (h : Iterated r k i j) : i ≤ j := by
  induction k generalizing i with
  | zero => exact Nat.le_of_eq h.symm
  | succ k ih =>
    obtain ⟨m, hm, hj⟩ := h
    exact Nat.le_trans (hr i m hm) (ih hj)

omit hr in
theorem le_of_iterated_add {p : Nat → Nat → Prop} {k i n : Nat}
    (h : Iterated (fun i j => ∃ l, p i l ∧ j = i + l) k i n) : i ≤ n := by
  refine le_of_iterated (fun i j hadd => ?_) h
  obtain ⟨l, _, rfl⟩ := hadd
  exact Nat.le_add_right i l

/-- More steps than there is way to go stay somewhere, and can stay there once more. -/
theorem iterated_succ_of_lt {k i j : Nat} (h : Iterated r k i j) (hlt : j < i + k) :
    Iterated r (k + 1) i j := by
  induction k generalizing i with
  | zero =>
    have hij : j = i := h
    omega
  | succ k ih =>
    obtain ⟨m, hm, hj⟩ := h
    by_cases hmi : m = i
    · subst m
      exact ⟨i, hm, i, hm, hj⟩
    · have hle := hr i m hm
      exact ⟨m, hm, ih hj (by omega)⟩

theorem iterated_of_succ_of_lt {k i j : Nat} (h : Iterated r (k + 1) i j)
    (hlt : j < i + (k + 1)) : Iterated r k i j := by
  induction k generalizing i with
  | zero =>
    obtain ⟨m, hm, hj⟩ := h
    have hle := hr i m hm
    have hmj : j = m := hj
    show j = i
    omega
  | succ k ih =>
    obtain ⟨m, hm, hj⟩ := h
    by_cases hmi : m = i
    · subst m
      exact hj
    · have hle := hr i m hm
      exact ⟨m, hm, ih hj (by omega)⟩

theorem iterated_succ_iff_bounded {k i j : Nat} :
    Iterated r (k + 1) i j ↔ ∃ m, m ≤ j ∧ r i m ∧ Iterated r k m j :=
  exists_congr fun _ => ⟨fun h => ⟨le_of_iterated hr h.2, h⟩, And.right⟩

/-- Steps that could be left out because they stay somewhere do not have to be counted. -/
theorem exists_iterated_iff_bounded {low high i j : Nat} :
    (∃ k, low ≤ k ∧ k ≤ high ∧ Iterated r k i j) ↔
      ∃ k, k ≤ low + (j - i) ∧ low ≤ k ∧ k ≤ high ∧ Iterated r k i j := by
  refine ⟨fun ⟨k, hlow, hhigh, h⟩ => ?_, fun ⟨k, _, h⟩ => ⟨k, h⟩⟩
  induction k with
  | zero => exact ⟨0, by omega, hlow, hhigh, h⟩
  | succ k ih =>
    by_cases hk : k + 1 ≤ low + (j - i)
    · exact ⟨k + 1, hk, hlow, hhigh, h⟩
    · exact ih (by omega) (by omega) (iterated_of_succ_of_lt hr h (by omega))

def decideIterated (hdec : ∀ i j, Decidable (r i j)) : ∀ k i j, Decidable (Iterated r k i j)
  | 0, i, j => inferInstanceAs (Decidable (j = i))
  | k + 1, _, _ =>
    have := decideIterated hdec k
    decidable_of_iff _ (iterated_succ_iff_bounded hr).symm

end Forward

end SeqPattern
