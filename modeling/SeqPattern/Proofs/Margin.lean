import SeqPattern.Proofs.Matching

namespace SeqPattern.Expression

variable {α : Type}

section Need

theorem exists_need_eq_leastNeed {es : List (Expression α)} (h : es ≠ []) :
    ∃ e ∈ es, e.need = leastNeed es := by
  induction es with
  | nil => exact absurd rfl h
  | cons e es ih =>
    rw [leastNeed]
    by_cases hes : es = []
    · subst es
      exact ⟨e, by simp⟩
    · obtain ⟨e', h', hneed⟩ := ih hes
      rw [List.isEmpty_eq_false_iff.mpr hes, ← hneed]
      rcases Nat.le_total e.need e'.need with hle | hle
      · exact ⟨e, by simp, by simp [hle]⟩
      · exact ⟨e', by simp [h'], by simp [hle]⟩

theorem exists_iterated_adds {e : Expression α} {l room : Nat} (he : e.Fits e.need l) (k : Nat)
    {i : Nat} (h : i + k * e.need ≤ room) : ∃ n, Iterated (e.Adds room) k i n := by
  induction k generalizing i with
  | zero => exact ⟨i, rfl⟩
  | succ k ih =>
    have hle := le_room_of_fits he
    rw [Nat.succ_mul] at h
    obtain ⟨n, hn⟩ := ih (i := i + l) (by omega)
    exact ⟨n, i + l, ⟨l, he.mono (by omega), rfl⟩, hn⟩

theorem exists_fits_need {e : Expression α} (he : e.isPlain = true) : ∃ n, e.Fits e.need n := by
  induction e with
  | element c => exact ⟨1, rfl, Nat.le_refl 1⟩
  | sequence es ih =>
    rw [isPlain_sequence] at he
    simp only [Fits, need]
    induction es with
    | nil => exact ⟨0, rfl⟩
    | cons e es iht =>
      obtain ⟨l, hl⟩ := ih e (by simp) (he e (by simp))
      obtain ⟨m, hm⟩ := iht (fun e' h' => ih e' (by simp [h'])) fun e' h' => he e' (by simp [h'])
      have hle := le_room_of_fits hl
      have hrest : (sequence es).Fits (e.need + totalNeed es - l) m :=
        Fits.mono (e := sequence es) hm (by omega)
      exact ⟨l + m, l, m, hl.mono (Nat.le_add_right _ _), hrest, rfl⟩
  | alternation es ih =>
    rw [isPlain_alternation] at he
    simp only [fits_alternation, need]
    by_cases hes : es = []
    · exact ⟨0, Or.inl ⟨hes, rfl⟩⟩
    · obtain ⟨e, h, hneed⟩ := exists_need_eq_leastNeed hes
      obtain ⟨n, hn⟩ := ih e h (he e h)
      exact ⟨n, Or.inr ⟨e, h, hneed ▸ hn⟩⟩
  | repetition e bounds kind ih =>
    obtain ⟨l, hl⟩ := ih (isPlain_repetition.mp he)
    obtain ⟨n, hn⟩ := exists_iterated_adds hl bounds.min
      (show 0 + bounds.min * e.need ≤ bounds.min * e.need by omega)
    exact ⟨n, bounds.min, Nat.le_refl _, bounds.min_le_max, hn⟩
  | lookAhead negative e ih | lookBehind negative e ih =>
    simp only [isPlain_lookAhead, isPlain_lookBehind] at he
    exact ⟨0, rfl, ih he⟩
  | anchor a => exact ⟨0, rfl⟩
  | foreign c => simp at he

end Need

section Margin

theorem margin_le_greatestMargin {es : List (Expression α)} {e : Expression α} (h : e ∈ es) :
    e.margin ≤ greatestMargin es := by
  induction es with
  | nil => simp at h
  | cons e' es ih =>
    rw [greatestMargin]
    rcases List.mem_cons.mp h with rfl | h
    · exact Nat.le_max_left _ _
    · exact Nat.le_trans (ih h) (Nat.le_max_right _ _)

theorem margin_of_isAssertionFree {e : Expression α} (he : e.isAssertionFree = true) :
    e.margin = 0 := by
  induction e with
  | element c | anchor a | foreign c => rw [margin]
  | sequence es ih | alternation es ih =>
    simp only [isAssertionFree_sequence, isAssertionFree_alternation] at he
    rw [margin]
    induction es with
    | nil => rw [greatestMargin]
    | cons e es iht =>
      rw [greatestMargin, ih e (by simp) (he e (by simp)),
        iht (fun e' h' => ih e' (by simp [h'])) fun e' h' => he e' (by simp [h']), Nat.max_self]
  | repetition e bounds kind ih =>
    rw [margin]
    exact ih (isAssertionFree_repetition.mp he)
  | lookAhead negative e ih | lookBehind negative e ih => simp at he

variable {e : Expression α} {child : Nat → List Nat}

theorem iterated_adds_of_iterated (hchild : ∀ p, ∀ q ∈ child p, p ≤ q)
    (hfits : ∀ p room, ∀ q ∈ child p, q - p + e.margin ≤ room → e.Fits room (q - p))
    {k i p q room : Nat} (hip : i ≤ p) (hq : Iterated (fun p q => q ∈ child p) k p q)
    (hroom : q - i + e.margin ≤ room) : Iterated (e.Adds room) k (p - i) (q - i) := by
  induction k generalizing p with
  | zero => exact congrArg (· - i) hq
  | succ k ih =>
    obtain ⟨m, hm, hq⟩ := hq
    have hpm := hchild p m hm
    have hmq := le_of_iterated hchild hq
    exact ⟨m - i, ⟨m - p, hfits p _ m hm (by omega), by omega⟩, ih (by omega) hq⟩

theorem fitTogether_of_mem_chainStops {stops : Expression α → Nat → List Nat} {size : Nat}
    {es : List (Expression α)}
    (hbounded : ∀ e ∈ es, ∀ p, ∀ q ∈ stops e p, p ≤ q ∧ q ≤ size)
    (hfits : ∀ e ∈ es, ∀ p room, ∀ q ∈ stops e p, q - p + e.margin ≤ room → e.Fits room (q - p))
    {p q room : Nat} (hq : q ∈ chainStops stops es p) (hroom : q - p + greatestMargin es ≤ room) :
    FitTogether es room (q - p) := by
  induction es generalizing p room with
  | nil =>
    cases List.mem_singleton.mp hq
    exact Nat.sub_self _
  | cons e es ih =>
    obtain ⟨m, hm, hq⟩ := List.mem_flatMap.mp hq
    obtain ⟨hpm, hms⟩ := hbounded e (by simp) p m hm
    have hbounded : ∀ e' ∈ es, ∀ p, ∀ q ∈ stops e' p, p ≤ q ∧ q ≤ size :=
      fun e' h' => hbounded e' (by simp [h'])
    have hmq := (bounded_chainStops hbounded hms q hq).1
    rw [greatestMargin] at hroom
    have hl : e.Fits room (m - p) := hfits e (by simp) p room m hm (by omega)
    have hrest : FitTogether es (room - (m - p)) (q - m) :=
      ih hbounded (fun e' h' => hfits e' (by simp [h'])) hq (by omega)
    exact ⟨m - p, q - m, hl, hrest, by omega⟩

variable [BEq α] {xs : Array α}

/-- The lengths of actual matches fit, with the margin for what is asserted past their ends. -/
theorem fits_of_mem_ends (hxs : xs.size ≤ maxSize) {e : Expression α} (he : e.isPlain = true)
    {i j room : Nat} (hj : j ∈ e.ends xs i) (hroom : j - i + e.margin ≤ room) :
    e.Fits room (j - i) := by
  induction e generalizing i j room with
  | element c =>
    rw [ends, List.mem_ite_nil_right, List.mem_singleton] at hj
    rw [margin] at hroom
    exact ⟨by omega, by omega⟩
  | sequence es ih =>
    rw [isPlain_sequence] at he
    rw [ends, List.mem_ite_nil_right, sequenceEnds_eq_chainStops] at hj
    rw [margin] at hroom
    exact fitTogether_of_mem_chainStops (fun e h => (leadsTo_ends hxs (he e h)).bounded)
      (fun e h p room q hq => ih e h (he e h) hq) hj.2 hroom
  | alternation es ih =>
    rw [isPlain_alternation] at he
    rw [fits_alternation]
    rw [margin] at hroom
    cases es with
    | nil =>
      rw [ends, List.mem_ite_nil_right, List.mem_singleton] at hj
      exact Or.inl ⟨rfl, by omega⟩
    | cons e es =>
      obtain ⟨e', h', hj⟩ := mem_ends_alternation_cons.mp hj
      have hmargin := margin_le_greatestMargin h'
      exact Or.inr ⟨e', h', ih e' h' (he e' h') hj (by omega)⟩
  | repetition e bounds kind ih =>
    rw [isPlain_repetition] at he
    have hstops : j ∈ repeatedStops kind (e.ends xs) bounds i := by
      cases kind <;> rw [ends, List.mem_ite_nil_right] at hj <;> exact hj.2
    rw [mem_repeatedStops, mem_greedyEnds_iff] at hstops
    obtain ⟨k, hlow, hhigh, hk⟩ := hstops
    have hle (p q : Nat) (hq : q ∈ e.ends xs p) : p ≤ q :=
      ((leadsTo_ends hxs he).bounded p q hq).1
    have h := iterated_adds_of_iterated hle (fun p room q hq => ih he hq) (Nat.le_refl i) hk hroom
    rw [Nat.sub_self] at h
    exact ⟨k, hlow, hhigh, h⟩
  | lookAhead negative e ih | lookBehind negative e ih =>
    simp only [isPlain_lookAhead, isPlain_lookBehind] at he
    rw [ends, List.mem_ite_nil_right, List.mem_singleton] at hj
    obtain ⟨l, hl⟩ := exists_fits_need he
    rw [margin] at hroom
    exact ⟨by omega, l, hl.mono (by omega)⟩
  | anchor a =>
    cases a <;> rw [ends, List.mem_ite_nil_right, List.mem_singleton] at hj <;>
      exact show j - i = 0 by omega
  | foreign c => simp at he

theorem mem_lengths_of_mem_ends (hxs : xs.size ≤ maxSize) {e : Expression α}
    (he : e.isPlain = true) {i j room : Nat} (hj : j ∈ e.ends xs i)
    (hroom : j - i + e.margin ≤ room) : j - i ∈ (e.lengths room).toList :=
  (mem_lengths_iff_fits he room (j - i)).mpr (fits_of_mem_ends hxs he hj hroom)

/-- Which lengths of matches are told for a plain pattern: those that fit in the room, and among
them all that leave the margin. A length that does not fit is left out although there is a match of
it. -/
theorem length_told_iff_fits {e : Expression α} (he : e.isPlain = true) (xs : Array α)
    (hxs : xs.size ≤ maxSize) (i : Nat) :
    ∃ ms, e.Enumerates xs i ms ∧ ∀ m ∈ ms, ∀ room,
      (m.length ∈ (e.lengths room).toList ↔ e.Fits room m.length) ∧
      (m.length + e.margin ≤ room → m.length ∈ (e.lengths room).toList) := by
  refine ⟨_, enumerates_ends hxs he i, fun m hm room => ?_⟩
  obtain ⟨j, hj, rfl⟩ := List.mem_map.mp hm
  exact ⟨mem_lengths_iff_fits he room (j - i), mem_lengths_of_mem_ends hxs he hj⟩

theorem length_told_iff_fits_asserted_end :
    ∃ ms, (sequence [value 1, lookAhead false (values [2, 3])] : Expression Nat).Enumerates
      #[1, 2, 3] 0 ms ∧ ∀ m ∈ ms, ∀ room,
        (m.length ∈ ((sequence [value 1, lookAhead false (values [2, 3])] :
          Expression Nat).lengths room).toList ↔
          (sequence [value 1, lookAhead false (values [2, 3])] : Expression Nat).Fits room
            m.length) ∧
        (m.length + 2 ≤ room → m.length ∈ ((sequence [value 1, lookAhead false (values [2, 3])] :
          Expression Nat).lengths room).toList) :=
  length_told_iff_fits
    (e := (sequence [value 1, lookAhead false (values [2, 3])] : Expression Nat)) (by decide)
    #[1, 2, 3] (by decide) 0

/-- What lies ahead is cut off by the room although it takes none, so that the empty match is
missed, and with it the lookbehind around it. -/
theorem lookAhead_empty_match_not_told :
    (lookAhead false (value 1) : Expression Nat).Enumerates #[1] 0 [.span 0 0] ∧
      (Match.span 0 0).length = 0 ∧
      0 ∉ ((lookAhead false (value 1) : Expression Nat).lengths 0).toList ∧
      (lookBehind false (lookAhead false (value 1)) : Expression Nat).Enumerates #[1] 0 [] := by
  refine ⟨?_, rfl, by decide, ?_⟩
  · exact enumerates_ends (e := (lookAhead false (value 1) : Expression Nat)) (by decide)
      (by decide) 0
  · exact enumerates_ends (e := (lookBehind false (lookAhead false (value 1)) : Expression Nat))
      (by decide) (by decide) 0

end Margin

end SeqPattern.Expression
