import SeqPattern.Proofs.Equivalence

namespace SeqPattern

section Stops

variable {α : Type} {child : Nat → List Nat}

theorem repeatedStops_succ (kind : RepetitionKind) {min max : Nat} (h : min ≤ max) (p : Nat) :
    repeatedStops kind child ⟨min + 1, max + 1, Nat.succ_le_succ h⟩ p =
      (child p).flatMap (repeatedStops kind child ⟨min, max, h⟩) := by
  cases kind <;> simp [repeatedStops, lazyEnds, greedyEnds] <;> rfl

theorem repeatedStops_none (kind : RepetitionKind) (p : Nat) :
    repeatedStops kind child ⟨0, 0, Nat.le_refl 0⟩ p = [p] := by
  cases kind <;> simp [repeatedStops, lazyEnds, greedyEnds]

/-- The rounds that are needed lead on like so many parts of a sequence. -/
theorem repeatedStops_eq_chainStops {stops : Expression α → Nat → List Nat} {e : Expression α}
    {size : Nat} (he : ∀ p, ∀ q ∈ stops e p, q ≤ size) {kind : RepetitionKind} {extra : Nat}
    {es : List (Expression α)}
    (hrest : ∀ p, p ≤ size →
      repeatedStops kind (stops e) ⟨0, extra, Nat.zero_le extra⟩ p = chainStops stops es p)
    (k : Nat) {p : Nat} (hp : p ≤ size) :
    repeatedStops kind (stops e) ⟨k, extra + k, Nat.le_add_left k extra⟩ p =
      chainStops stops (List.replicate k e ++ es) p := by
  induction k generalizing p with
  | zero => exact hrest p hp
  | succ k ih =>
    rw [List.replicate_succ, List.cons_append, chainStops]
    have hle : k ≤ extra + k := Nat.le_add_left k extra
    calc repeatedStops kind (stops e) ⟨k + 1, extra + k + 1, Nat.succ_le_succ hle⟩ p
      _ = (stops e p).flatMap (repeatedStops kind (stops e) ⟨k, extra + k, hle⟩) :=
        repeatedStops_succ kind hle p
      _ = (stops e p).flatMap (chainStops stops (List.replicate k e ++ es)) :=
        List.flatMap_congr fun q hq => ih (he p q hq)

theorem lazyEnds_self_eq_greedyEnds (n : Nat) : lazyEnds child n n = greedyEnds child n n := by
  induction n with
  | zero => rfl
  | succ n ih =>
    funext p
    simp [lazyEnds, greedyEnds, ih]

end Stops

namespace Expression

variable {α : Type} {e : Expression α} {room : Nat}

/-- Lengths that are added after others find the room that these have left. -/
theorem iterated_adds_sub_iff (l c i n : Nat) :
    Iterated (e.Adds (room - l)) c i n ↔ Iterated (e.Adds room) c (l + i) (l + n) := by
  induction c generalizing i with
  | zero => exact Nat.add_left_cancel_iff.symm
  | succ c ih =>
    constructor
    · rintro ⟨_, ⟨m, hm, rfl⟩, hn⟩
      rw [Nat.sub_sub] at hm
      exact ⟨l + i + m, ⟨m, hm, rfl⟩, Nat.add_assoc l i m ▸ (ih (i + m)).mp hn⟩
    · rintro ⟨_, ⟨m, hm, rfl⟩, hn⟩
      rw [Nat.add_assoc] at hn
      exact ⟨i + m, ⟨m, Nat.sub_sub room l i ▸ hm, rfl⟩, (ih (i + m)).mpr hn⟩

theorem fitTogether_replicate_append_iff {es : List (Expression α)} {extra : Nat}
    (hrest : ∀ room n, FitTogether es room n ↔ ∃ c, c ≤ extra ∧ Iterated (e.Adds room) c 0 n)
    (k room n : Nat) :
    FitTogether (List.replicate k e ++ es) room n ↔
      ∃ c, k ≤ c ∧ c ≤ extra + k ∧ Iterated (e.Adds room) c 0 n := by
  induction k generalizing room n with
  | zero => simpa using hrest room n
  | succ k ih =>
    rw [List.replicate_succ, List.cons_append, FitTogether]
    simp only [ih, iterated_adds_sub_iff]
    constructor
    · rintro ⟨l, m, hl, ⟨c, hlow, hhigh, hm⟩, rfl⟩
      exact ⟨c + 1, by omega, by omega, l, ⟨l, hl, by omega⟩, hm⟩
    · rintro ⟨c, hlow, hhigh, hn⟩
      obtain ⟨c, rfl⟩ : ∃ b, c = b + 1 := ⟨c - 1, by omega⟩
      obtain ⟨_, ⟨l, hl, rfl⟩, hn⟩ := hn
      have hle := le_of_iterated_add hn
      refine ⟨l, n - l, hl, ⟨c, by omega, by omega, ?_⟩, by omega⟩
      have hl : l + (n - l) = n := by omega
      rwa [hl, Nat.add_comm l 0]

variable [BEq α]

theorem repetition_equivalent_sequence (he : e.isPlain = true) (kind : RepetitionKind)
    {extra : Nat} {es : List (Expression α)} (hes : ∀ e ∈ es, e.isPlain = true)
    (hends : ∀ xs : Array α, ∀ p, p ≤ xs.size →
      repeatedStops kind (e.ends xs) ⟨0, extra, Nat.zero_le extra⟩ p =
        chainStops (fun e => e.ends xs) es p)
    (hfits : ∀ room n, FitTogether es room n ↔ ∃ c, c ≤ extra ∧ Iterated (e.Adds room) c 0 n)
    (k : Nat) :
    (repetition e ⟨k, extra + k, Nat.le_add_left k extra⟩ kind).Equivalent
      (sequence (List.replicate k e ++ es)) := by
  have hplain : (sequence (List.replicate k e ++ es)).isPlain = true := by
    rw [isPlain_sequence]
    intro f hf
    rcases List.mem_append.mp hf with hf | hf
    · rwa [List.eq_of_mem_replicate hf]
    · exact hes f hf
  have hrep : (repetition e ⟨k, extra + k, Nat.le_add_left k extra⟩ kind).isPlain = true :=
    isPlain_repetition.mpr he
  refine .of_isPlain hrep hplain (fun xs hxs i => ?_) fun max => ?_
  · rw [ends_repetition, ends_sequence]
    split
    · next hi =>
      have hin (p : Nat) (q : Nat) (hq : q ∈ e.ends xs p) : q ≤ xs.size :=
        ((leadsTo_ends hxs he).bounded p q hq).2
      exact repeatedStops_eq_chainStops hin (hends xs) k hi
    · rfl
  · refine eq_of_pairwise_lt pairwise_lengths_repetition pairwise_lengths_sequence fun n => ?_
    rw [mem_lengths_iff_fits hrep, mem_lengths_iff_fits hplain, Fits, Fits,
      fitTogether_replicate_append_iff hfits]

theorem repetition_lazy_equivalent_greedy (he : e.isPlain = true) (n : Nat) :
    (repetition e ⟨n, n, Nat.le_refl n⟩ .lazy).Equivalent
      (repetition e ⟨n, n, Nat.le_refl n⟩ .greedy) := by
  have hplain {kind : RepetitionKind} :
      (repetition e ⟨n, n, Nat.le_refl n⟩ kind).isPlain = true := isPlain_repetition.mpr he
  refine .of_isPlain hplain hplain (fun xs _ i => ?_) fun max => ?_
  · simp only [ends_repetition, repeatedStops, lazyEnds_self_eq_greedyEnds]
  · rw [lengths, lengths]

/-- A repetition is the sequence of as many copies as rounds are needed and of a repetition of the
same kind without any that is needed. So exactly as many rounds are a sequence of copies, and then
nothing depends on the kind. -/
theorem repetition_equivalent_unrolled (he : e.isPlain = true) (bounds : Bounds)
    (kind : RepetitionKind) :
    (repetition e bounds kind).Equivalent
      (sequence (List.replicate bounds.min e ++
        [repetition e ⟨0, bounds.max - bounds.min, Nat.zero_le _⟩ kind])) ∧
    (∀ n, (e.times n).Equivalent (sequence (List.replicate n e))) ∧
    ∀ n, (repetition e ⟨n, n, Nat.le_refl n⟩ .lazy).Equivalent
      (repetition e ⟨n, n, Nat.le_refl n⟩ .greedy) := by
  refine ⟨?_, fun n => ?_, repetition_lazy_equivalent_greedy he⟩
  · obtain ⟨min, max, h⟩ := bounds
    obtain ⟨extra, rfl⟩ : ∃ d, max = d + min := ⟨max - min, by omega⟩
    simp only [Nat.add_sub_cancel]
    refine repetition_equivalent_sequence he kind (by simpa using he) (fun xs p hp => ?_)
      (fun room n => ?_) min
    · simp [chainStops, ends_repetition, hp]
    · simp [FitTogether, Fits]
  · have h : (repetition e ⟨n, 0 + n, Nat.le_add_left n 0⟩ .greedy).Equivalent
        (sequence (List.replicate n e ++ [])) :=
      repetition_equivalent_sequence he .greedy (by simp)
        (fun xs p _ => repeatedStops_none .greedy p)
        (fun room n => by simp [FitTogether, Iterated]) n
    simpa only [Nat.zero_add, List.append_nil, times] using h

/-- Rounds that may be empty, and look at what is before them. -/
theorem repetition_equivalent_unrolled_empty_rounds :
    let e : Expression Nat := alternation [value 1, lookBehind true (value 2)]
    (repetition e ⟨2, 5, by decide⟩ .lazy).Equivalent
        (sequence [e, e, repetition e ⟨0, 3, by decide⟩ .lazy]) ∧
      (e.times 2).Equivalent (sequence [e, e]) ∧
      (repetition e ⟨2, 2, by decide⟩ .lazy).Equivalent
        (repetition e ⟨2, 2, by decide⟩ .greedy) := by
  intro e
  have h := repetition_equivalent_unrolled (e := e) (by decide) ⟨2, 5, by decide⟩ .lazy
  exact ⟨h.1, h.2.1 2, h.2.2 2⟩

end Expression

end SeqPattern
