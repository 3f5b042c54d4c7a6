import SeqPattern.Meaning.Length
import SeqPattern.Proofs.ToldLengths

namespace SeqPattern.Expression

variable {α : Type} {room n : Nat}

/-- As the lengths of the rounds add up to one that is in the room, each has found the room it
needs. -/
theorem iterated_adds_iff {e : Expression α}
    (he : ∀ room n, e.Fits room n ↔ e.HasLength n ∧ n ≤ room) (k : Nat) {i : Nat}
    (hi : i ≤ room) :
    Iterated (e.Adds room) k i n ↔
      Iterated (fun i j => ∃ l, e.HasLength l ∧ j = i + l) k i n ∧ n ≤ room := by
  induction k generalizing i with
  | zero => exact (and_iff_left_of_imp fun hn : n = i => hn ▸ hi).symm
  | succ k ih =>
    constructor
    · rintro ⟨_, ⟨l, hl, rfl⟩, hn⟩
      obtain ⟨hl, hle⟩ := (he _ _).mp hl
      obtain ⟨hn, hroom⟩ := (ih (by omega)).mp hn
      exact ⟨⟨i + l, ⟨l, hl, rfl⟩, hn⟩, hroom⟩
    · rintro ⟨⟨_, ⟨l, hl, rfl⟩, hn⟩, hroom⟩
      have hle : i + l ≤ n := le_of_iterated_add hn
      exact ⟨i + l, ⟨l, (he _ _).mpr ⟨hl, by omega⟩, rfl⟩, (ih (by omega)).mpr ⟨hn, hroom⟩⟩

theorem fitTogether_iff_hasSum {es : List (Expression α)}
    (hes : ∀ e ∈ es, ∀ room n, e.Fits room n ↔ e.HasLength n ∧ n ≤ room) :
    FitTogether es room n ↔ HasSum es n ∧ n ≤ room := by
  induction es generalizing room n with
  | nil => exact (and_iff_left_of_imp fun hn : n = 0 => hn ▸ Nat.zero_le room).symm
  | cons e es ih =>
    have he := hes e (by simp)
    have ih {room n : Nat} := @ih room n fun e' h' => hes e' (by simp [h'])
    constructor
    · rintro ⟨l, m, hl, hm, rfl⟩
      obtain ⟨hl, hle⟩ := (he _ _).mp hl
      obtain ⟨hm, hrest⟩ := ih.mp hm
      exact ⟨⟨l, m, hl, hm, rfl⟩, by omega⟩
    · rintro ⟨⟨l, m, hl, hm, rfl⟩, hroom⟩
      exact ⟨l, m, (he _ _).mpr ⟨hl, by omega⟩, ih.mpr ⟨hm, by omega⟩, rfl⟩

theorem fits_iff_hasLength {e : Expression α} (he : e.isAssertionFree = true) (room n : Nat) :
    e.Fits room n ↔ e.HasLength n ∧ n ≤ room := by
  induction e generalizing room n with
  | element c => exact and_congr_right fun hn => by rw [hn]
  | sequence es ih =>
    rw [Fits, HasLength]
    exact fitTogether_iff_hasSum fun e h => ih e h (isAssertionFree_sequence.mp he e h)
  | alternation es ih =>
    rw [isAssertionFree_alternation] at he
    rw [fits_alternation, hasLength_alternation]
    constructor
    · rintro (⟨hes, rfl⟩ | ⟨e, h, hn⟩)
      · exact ⟨Or.inl ⟨hes, rfl⟩, Nat.zero_le room⟩
      · obtain ⟨hn, hroom⟩ := (ih e h (he e h) room n).mp hn
        exact ⟨Or.inr ⟨e, h, hn⟩, hroom⟩
    · rintro ⟨hnil | ⟨e, h, hn⟩, hroom⟩
      · exact Or.inl hnil
      · exact Or.inr ⟨e, h, (ih e h (he e h) room n).mpr ⟨hn, hroom⟩⟩
  | repetition e bounds kind ih =>
    rw [Fits, HasLength]
    simp only [iterated_adds_iff (ih (isAssertionFree_repetition.mp he)) _ (Nat.zero_le room),
      ← and_assoc, exists_and_right]
  | lookAhead negative e | lookBehind negative e => simp at he
  | anchor a => exact (and_iff_left_of_imp fun hn : n = 0 => hn ▸ Nat.zero_le room).symm
  | foreign c => exact iff_of_false id fun h => h.1

/-- The lengths told for a pattern without assertions are the ones that it could have, up to the
largest. -/
theorem mem_lengths_iff_hasLength {e : Expression α} (he : e.isPlain = true)
    (hfree : e.isAssertionFree = true) (max n : Nat) :
    n ∈ (e.lengths max).toList ↔ e.HasLength n ∧ n ≤ max :=
  (mem_lengths_iff_fits he max n).trans (fits_iff_hasLength hfree max n)

/-- Rounds of none or two elements, which are settled long before as many as are needed have been
made. -/
theorem mem_lengths_iff_hasLength_settled_rounds :
    6 ∈ ((times (alternation [sequence [], values [1, 2]]) 1000 : Expression Nat).lengths
        7).toList ∧
      (times (alternation [sequence [], values [1, 2]]) 1000 : Expression Nat).HasLength 6 ∧
        6 ≤ 7 := by
  have h : 6 ∈ ((times (alternation [sequence [], values [1, 2]]) 1000 :
      Expression Nat).lengths 7).toList := by decide
  exact ⟨h, (mem_lengths_iff_hasLength (by decide) (by decide) 7 6).mp h⟩

end SeqPattern.Expression
