import SeqPattern.Meaning.Fitting
import SeqPattern.Proofs.RepeatedSums

namespace SeqPattern

namespace Lengths

variable {max n : Nat}

theorem isEmpty_eq_isEmpty_toList (ls : Lengths) : ls.isEmpty = ls.toList.isEmpty := by
  induction ls with
  | done => rfl
  | more n rest ih => rfl
  | later ls ih => exact ih ()

theorem mem_toList_fresh (ls : Lengths) (seen : Std.TreeSet Nat) :
    n ∈ (ls.fresh max seen).toList ↔ n ≤ max ∧ n ∉ seen ∧ n ∈ ls.toList := by
  induction ls generalizing seen with
  | done => simp [fresh, toList]
  | more m rest ih =>
    by_cases hm : m ≤ max ∧ m ∉ seen
    · rw [fresh, if_pos (by simpa [← Std.TreeSet.contains_iff_mem] using hm)]
      simp only [toList, List.mem_cons, ih, Std.TreeSet.mem_insert, Nat.compare_eq_eq]
      by_cases hnm : n = m
      · simp [hnm, hm]
      · simp [hnm, Ne.symm hnm]
    · rw [fresh, if_neg (by simpa [← Std.TreeSet.contains_iff_mem] using hm), ih]
      refine and_congr_right fun hn => and_congr_right fun hs => ?_
      rw [toList, List.mem_cons, iff_or_self]
      rintro rfl
      exact absurd ⟨hn, hs⟩ hm
  | later ls ih => exact ih () seen

end Lengths

namespace Expression

variable {α : Type} {room n : Nat}

theorem Fits.mono {e : Expression α} {more : Nat} (h : e.Fits room n) (hle : room ≤ more) :
    e.Fits more n := by
  induction e generalizing room more n with
  | element c => exact ⟨h.1, Nat.le_trans h.2 hle⟩
  | sequence es ih =>
    rw [Fits] at h ⊢
    induction es generalizing room more n with
    | nil => exact h
    | cons e es iht =>
      obtain ⟨l, m, hl, hm, rfl⟩ := h
      exact ⟨l, m, ih e (by simp) hl hle,
        iht (fun e' h' => ih e' (by simp [h'])) hm (Nat.sub_le_sub_right hle l), rfl⟩
  | alternation es ih =>
    rw [fits_alternation] at h ⊢
    rcases h with hnil | ⟨e, he, h⟩
    · exact Or.inl hnil
    · exact Or.inr ⟨e, he, ih e he h hle⟩
  | repetition e bounds kind ih =>
    obtain ⟨k, hlow, hhigh, h⟩ := h
    refine ⟨k, hlow, hhigh, h.mono fun i j hadd => ?_⟩
    obtain ⟨l, hl, hj⟩ := hadd
    exact ⟨l, ih hl (Nat.sub_le_sub_right hle i), hj⟩
  | lookAhead negative e ih | lookBehind negative e ih =>
    obtain ⟨hn, l, hl⟩ := h
    exact ⟨hn, l, ih hl hle⟩
  | anchor a => exact h
  | foreign c => exact h

section Told

theorem mem_sums_iff {es : List (Expression α)}
    (hes : ∀ e ∈ es, ∀ room n, n ∈ (e.lengths room).toList ↔ e.Fits room n) (ns : List Nat) :
    n ∈ sums es room ns ↔ ∃ s ∈ ns, ∃ m, FitTogether es (room - s) m ∧ n = s + m := by
  induction es generalizing ns with
  | nil => simp [sums, FitTogether]
  | cons e es ih =>
    rw [sums, ih fun e' h' => hes e' (by simp [h'])]
    constructor
    · rintro ⟨t, ht, m, hm, rfl⟩
      obtain ⟨s, hs, l, hl, _, rfl⟩ := mem_extendSums.mp ht
      rw [hes e (by simp)] at hl
      rw [← Nat.sub_sub] at hm
      exact ⟨s, hs, l + m, ⟨l, m, hl, hm, rfl⟩, Nat.add_assoc s l m⟩
    · rintro ⟨s, hs, _, ⟨l, m, hl, hm, rfl⟩, rfl⟩
      have hle := le_room_of_fits hl
      rw [← hes e (by simp)] at hl
      rw [Nat.sub_sub] at hm
      exact ⟨s + l, mem_extendSums.mpr ⟨s, hs, l, hl, hle, rfl⟩, m, hm,
        (Nat.add_assoc s l m).symm⟩

theorem lengths_assertion {e : Expression α} (he : e.isPlain = true) (negative : Bool) :
    (((lookAhead negative e).lengths room).toList =
      if (e.lengths room).toList.isEmpty then [] else [0]) ∧
    ((lookBehind negative e).lengths room).toList =
      if (e.lengths room).toList.isEmpty then [] else [0] := by
  rw [lengths, lengths, isPlaceable_of_isPlain he, ← Lengths.isEmpty_eq_isEmpty_toList]
  cases (e.lengths room).isEmpty <;> simp [Lengths.toList]

theorem mem_lengths_repetition_iff {e : Expression α} (he : e.isPlain = true)
    (hfits : ∀ room n, n ∈ (e.lengths room).toList ↔ e.Fits room n) {bounds : Bounds}
    {kind : RepetitionKind} :
    n ∈ ((repetition e bounds kind).lengths room).toList ↔
      (repetition e bounds kind).Fits room n := by
  have hadds : Extends (fun rest => (e.lengths rest).toList) room = e.Adds room := by
    funext i j
    apply propext
    refine exists_congr fun l => ?_
    rw [hfits, ← and_assoc]
    exact and_congr_left fun _ => and_iff_left_of_imp le_room_of_fits
  have hrep : (repetition e bounds kind).isPlain = true := isPlain_repetition.mpr he
  rw [lengths_repetition (isPlaceable_of_isPlain hrep) (anyLength_of_isPlain hrep), Fits]
  by_cases hmax : bounds.max = 0
  · rw [if_pos hmax, List.mem_singleton]
    have hmin := bounds.min_le_max
    constructor
    · exact fun hn => ⟨0, by omega, by omega, hn⟩
    · rintro ⟨k, _, hk, h⟩
      obtain rfl : k = 0 := by omega
      exact h
  · rw [if_neg hmax, mem_repeatedSums_iff bounds.min_le_max]
    refine exists_congr fun k => and_congr_right fun _ => and_congr_right fun _ => ?_
    rw [Reached, hadds]

/-- The lengths told for a plain pattern are those that fit. -/
theorem mem_lengths_iff_fits {e : Expression α} (he : e.isPlain = true) (room n : Nat) :
    n ∈ (e.lengths room).toList ↔ e.Fits room n := by
  induction e generalizing room n with
  | element c =>
    rw [lengths, Fits]
    by_cases hroom : 1 ≤ room <;> simp [hroom, Lengths.toList]
  | sequence es ih =>
    rw [lengths_sequence (isPlaceable_of_isPlain he) (anyLength_of_isPlain he), Fits]
    rw [isPlain_sequence] at he
    simp [mem_sums_iff fun e h => ih e h (he e h)]
  | alternation es ih =>
    rw [lengths_alternation (isPlaceable_of_isPlain he) (anyLength_of_isPlain he),
      fits_alternation]
    rw [isPlain_alternation] at he
    cases es with
    | nil => simp
    | cons e es =>
      rw [if_neg (by simp), Lengths.mem_toList_fresh, toList_unions, List.mem_flatMap]
      have hsome : (∃ e' ∈ e :: es, n ∈ (e'.lengths room).toList) ↔
          ∃ e' ∈ e :: es, e'.Fits room n :=
        exists_congr fun e' => and_congr_right fun h => ih e' h (he e' h) room n
      rw [hsome, or_iff_right (by simp)]
      constructor
      · exact fun h => h.2.2
      · rintro ⟨e', h', h⟩
        exact ⟨le_room_of_fits h, Std.TreeSet.not_mem_emptyc, e', h', h⟩
  | repetition e bounds kind ih =>
    rw [isPlain_repetition] at he
    exact mem_lengths_repetition_iff he (ih he)
  | lookAhead negative e ih | lookBehind negative e ih =>
    simp only [isPlain_lookAhead, isPlain_lookBehind] at he
    have hsome : (e.lengths room).toList.isEmpty = false ↔ ∃ l, e.Fits room l := by
      rw [List.isEmpty_eq_false_iff_exists_mem]
      exact exists_congr fun l => ih he room l
    simp only [lengths_assertion he, Fits, ← hsome]
    cases (e.lengths room).toList.isEmpty <;> simp
  | anchor a => simp [lengths, Fits]
  | foreign c => simp at he

theorem any_lengths_iff_exists_fits {e : Expression α} (he : e.isPlain = true)
    {stops : Nat → List Nat} {p : Nat} :
    ((e.lengths p).toList.any fun n => n ≤ p && (stops (p - n)).contains p) = true ↔
      ∃ n, n ≤ p ∧ e.Fits p n ∧ p ∈ stops (p - n) := by
  simp only [List.any_eq_true, Bool.and_eq_true, decide_eq_true_eq, List.contains_iff_mem,
    mem_lengths_iff_fits he]
  exact exists_congr fun n => and_left_comm

end Told

end Expression

end SeqPattern
