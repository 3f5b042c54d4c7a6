import SeqPattern.Proofs.Searching

namespace SeqPattern

open Search

variable {α : Type} {w : List α} {xs : Array α} {p i : Nat}

def OccursAt (w : List α) (xs : Array α) (i : Nat) : Prop :=
  i + w.length ≤ xs.size ∧ (xs.toList.drop i).take w.length = w

instance [DecidableEq α] : Decidable (OccursAt w xs i) := inferInstanceAs (Decidable (_ ∧ _))

/-- The first occurrence of a word from the position on, then the first one from its end on, and so
on until there is none. -/
inductive LeftmostOccurrences (w : List α) (xs : Array α) : Nat → List Nat → Prop
  | none {p : Nat} (h : ∀ i, p ≤ i → ¬ OccursAt w xs i) : LeftmostOccurrences w xs p []
  | first {p i : Nat} {is : List Nat} (hle : p ≤ i) (hi : OccursAt w xs i)
    (before : ∀ j, p ≤ j → j < i → ¬ OccursAt w xs j)
    (rest : LeftmostOccurrences w xs (i + w.length) is) : LeftmostOccurrences w xs p (i :: is)

theorem occursAt_nil_iff : OccursAt [] xs i ↔ i ≤ xs.size := by simp [OccursAt]

theorem occursAt_cons_iff {a : α} :
    OccursAt (a :: w) xs i ↔ xs[i]? = some a ∧ OccursAt w xs (i + 1) := by
  rcases Nat.lt_or_ge i xs.size with hi | hi
  · have hdrop : xs.toList.drop i = xs[i] :: xs.toList.drop (i + 1) := by
      rw [List.drop_eq_getElem_cons (by simpa using hi), Array.getElem_toList]
    simp only [OccursAt, hdrop, List.length_cons, List.take_succ_cons, List.cons.injEq,
      Array.getElem?_eq_getElem hi, Option.some.injEq, Nat.add_comm, Nat.add_left_comm]
    exact and_left_comm
  · simp only [OccursAt, List.length_cons, Array.getElem?_eq_none hi]
    constructor
    · intro h
      omega
    · rintro ⟨h, -⟩
      cases h

theorem exists_occursAt_iff_isInfix : (∃ i, OccursAt w xs i) ↔ w <:+: xs.toList := by
  constructor
  · rintro ⟨i, -, hw⟩
    rw [← hw]
    exact (List.take_prefix _ _).isInfix.trans (List.drop_suffix i _).isInfix
  · rintro ⟨before, after, h⟩
    have hsize : before.length + w.length + after.length = xs.size := by
      rw [← Array.length_toList, ← h, List.length_append, List.length_append]
    refine ⟨before.length, by omega, ?_⟩
    rw [← h, List.append_assoc, List.drop_left, List.take_left]

theorem LeftmostOccurrences.unique {is js : List Nat} (hi : LeftmostOccurrences w xs p is)
    (hj : LeftmostOccurrences w xs p js) : is = js := by
  induction hi generalizing js with
  | none h =>
    cases hj with
    | none => rfl
    | first hle hi => exact absurd hi (h _ hle)
  | @first p i is hle hi before rest ih =>
    cases hj with
    | none h => exact absurd hi (h i hle)
    | @first _ j js hle' hj before' rest' =>
      obtain rfl : i = j := by
        rcases Nat.lt_trichotomy i j with hlt | rfl | hlt
        · exact absurd hi (before' i hle hlt)
        · rfl
        · exact absurd hj (before j hle' hlt)
      rw [ih rest']

namespace Expression

variable [BEq α] [LawfulBEq α]

theorem ends_value_of_eq {a : α} (h : xs[i]? = some a) : (value a).ends xs i = [i + 1] := by
  simp [value, ends, h, ElementClass.accepts]

theorem ends_value_of_ne {a : α} (h : xs[i]? ≠ some a) : (value a).ends xs i = [] := by
  rw [value, ends, if_neg]
  rw [Option.any_eq_true]
  rintro ⟨b, hb, hab⟩
  exact h (eq_of_beq hab ▸ hb)

theorem ends_values_of_occursAt (h : OccursAt w xs i) : (values w).ends xs i = [i + w.length] := by
  have hi : i ≤ xs.size := Nat.le_of_add_right_le h.1
  rw [values, ends_sequence, if_pos hi]
  induction w generalizing i with
  | nil => rfl
  | cons a w ih =>
    obtain ⟨ha, hw⟩ := occursAt_cons_iff.mp h
    rw [List.map_cons, chainStops, ends_value_of_eq ha, List.flatMap_singleton,
      ih hw (Nat.le_of_add_right_le hw.1), List.length_cons, Nat.add_right_comm, Nat.add_assoc]

theorem ends_values_of_not_occursAt (h : ¬ OccursAt w xs i) : (values w).ends xs i = [] := by
  rw [values, ends_sequence]
  split
  · next hi =>
    induction w generalizing i with
    | nil => exact absurd (occursAt_nil_iff.mpr hi) h
    | cons a w ih =>
      rw [List.map_cons, chainStops]
      by_cases ha : xs[i]? = some a
      · rw [ends_value_of_eq ha, List.flatMap_singleton]
        exact ih (fun hw => h (occursAt_cons_iff.mpr ⟨ha, hw⟩)) (Array.getElem?_eq_some_iff.mp ha).1
      · rw [ends_value_of_ne ha, List.flatMap_nil]
  · rfl

theorem ends_values_ne_nil_iff : (values w).ends xs i ≠ [] ↔ OccursAt w xs i := by
  constructor
  · intro h
    by_contra hw
    exact h (ends_values_of_not_occursAt hw)
  · intro h
    rw [ends_values_of_occursAt h]
    exact List.cons_ne_nil _ _

omit [BEq α] [LawfulBEq α] in
theorem isPlain_values (w : List α) : (values w).isPlain = true := by
  rw [values, isPlain_sequence, List.forall_mem_map]
  exact fun a _ => rfl

theorem leftmostOccurrences_scanned (hw : w ≠ []) (p : Nat) :
    ∃ is, LeftmostOccurrences w xs p is ∧
      (values w).scanned xs p = is.map fun i => ⟨i, w.length, true⟩ := by
  have hlen : 0 < w.length := List.length_pos_iff.mpr hw
  rw [scanned]
  -- The cases are those of the search: past the end, nothing at the position, a match there.
  induction p using leftmost.induct (fun i => ((values w).ends xs i).head?) xs.size with
  | case1 p hlt =>
    refine ⟨[], .none fun i hi h => ?_, leftmost_of_lt hlt⟩
    have hin := h.1
    omega
  | case2 p hlt hnone ih =>
    have hp : ¬ OccursAt w xs p := fun h => by
      rw [ends_values_of_occursAt h] at hnone
      cases hnone
    obtain ⟨is, his, hms⟩ := ih
    rw [leftmost_of_none hnone]
    refine ⟨is, ?_, hms⟩
    cases his with
    | none h =>
      refine .none fun i hi => ?_
      rcases Nat.lt_or_eq_of_le hi with hlt | rfl
      · exact h i hlt
      · exact hp
    | first hle hi before rest =>
      refine .first (Nat.le_of_succ_le hle) hi (fun j hj hji => ?_) rest
      rcases Nat.lt_or_eq_of_le hj with hlt | rfl
      · exact before j hlt hji
      · exact hp
  | case3 p hlt q hsome ih =>
    have hp : OccursAt w xs p := ends_values_ne_nil_iff.mp fun h => by
      rw [h] at hsome
      cases hsome
    obtain rfl : p + w.length = q := by
      rw [ends_values_of_occursAt hp] at hsome
      exact Option.some.inj hsome
    obtain ⟨is, his, hms⟩ := ih
    have hstep : p + max 1 (p + w.length - p) = p + w.length := by omega
    rw [hstep] at his hms
    refine ⟨p :: is, .first (Nat.le_refl p) hp (fun j hj hjp => by omega) his, ?_⟩
    rw [leftmost_of_some (Nat.le_of_not_lt hlt) hsome, hstep, hms, List.map_cons, Match.span,
      Nat.add_sub_cancel_left]

theorem scanned_values_nil (xs : Array α) (p : Nat) :
    (values []).scanned xs p =
      (List.range' p (xs.size + 1 - p)).map fun i => ⟨i, 0, true⟩ := by
  have hends (i : Nat) (hi : i ≤ xs.size) : ((values []).ends xs i).head? = some i := by
    rw [ends_values_of_occursAt (occursAt_nil_iff.mpr hi)]
    rfl
  rw [scanned]
  induction p using leftmost.induct (fun i => ((values []).ends xs i).head?) xs.size with
  | case1 p hlt =>
    have hzero : xs.size + 1 - p = 0 := by omega
    rw [leftmost_of_lt hlt, hzero]
    rfl
  | case2 p hlt hnone ih =>
    rw [hends p (Nat.le_of_not_lt hlt)] at hnone
    cases hnone
  | case3 p hlt q hsome ih =>
    have hle := Nat.le_of_not_lt hlt
    obtain rfl : p = q := Option.some.inj ((hends p hle).symm.trans hsome)
    have hsucc : xs.size + 1 - p = xs.size + 1 - (p + 1) + 1 := by omega
    have hstep : p + max 1 (p - p) = p + 1 := by omega
    rw [hstep] at ih
    rw [leftmost_of_some hle hsome, hstep, ih, hsucc, List.range'_succ, List.map_cons, Match.span,
      Nat.sub_self]

/-- A search for a word finds its leftmost occurrences, none overlapping another, and the word is
found when it is part of the sequence. The empty word is found at every position. -/
theorem search_finds_leftmost_occurrences (w : List α) (xs : Array α) (hxs : xs.size < maxSize) :
    (∀ start, ∃ s ms, Settles xs (fun _ => ask (Scan.start (values w) start)) s ∧ s.Yields xs ms ∧
      (∀ m ∈ ms, m.items.eval xs = w) ∧
      (w ≠ [] → ∃ is, LeftmostOccurrences w xs start is ∧
        ms = is.map fun i => ⟨i, w.length, true⟩) ∧
      (w = [] → ms = (List.range' start (xs.size + 1 - start)).map fun i => ⟨i, 0, true⟩)) ∧
    (∃ found, Settles xs (fun fuel => (values w).occurs fuel) (.ok found) ∧
      (found = true ↔ w <:+: xs.toList)) ∧
    ∀ i, ∃ found, Settles xs (fun fuel => (values w).occursAt fuel i) found ∧
      (found = true ↔ OccursAt w xs i) := by
  have hplain := isPlain_values w
  have hle := Nat.le_of_lt hxs
  refine ⟨fun start => ?_, ⟨_, settles_occurs hle hplain, ?_⟩, fun i =>
    ⟨_, settles_occursAt hle hplain i, ?_⟩⟩
  · refine ⟨_, _, settles_start _ start, yields_scanned hle hplain start, fun m hm => ?_,
      fun hw => leftmostOccurrences_scanned hw start, ?_⟩
    · obtain ⟨-, -, hfirst⟩ := first_of_mem_leftmost hm
      have hw : OccursAt w xs m.index := ends_values_ne_nil_iff.mp fun h => by
        rw [h] at hfirst
        cases hfirst
      rw [ends_values_of_occursAt hw] at hfirst
      have hspan : Match.span m.index (m.index + w.length) = m := Option.some.inj hfirst
      have hlen : m.length = w.length := by
        rw [← hspan, Match.span, Nat.add_sub_cancel_left]
      rw [Match.eval_items, hlen]
      exact hw.2
    · rintro rfl
      exact scanned_values_nil xs start
  · rw [← exists_occursAt_iff_isInfix, Bool.not_eq_true', List.isEmpty_eq_false_iff, ne_eq, scanned,
      leftmost_eq_nil_iff]
    simp only [← ends_values_ne_nil_iff, List.head?_eq_none_iff, Nat.zero_le, forall_const,
      not_forall, exists_prop]
    refine exists_congr fun i => and_iff_right_of_imp fun h => ?_
    exact Nat.le_of_add_right_le (ends_values_ne_nil_iff.mp h).1
  · rw [← ends_values_ne_nil_iff, Bool.not_eq_true', List.isEmpty_eq_false_iff]

/-- A word that overlaps itself, and ends with the sequence. -/
theorem search_finds_leftmost_occurrences_overlapping :
    (∃ s, Settles #[1, 1, 1, 2, 1, 1] (fun _ => ask (Scan.start (values [1, 1]) 0)) s ∧
      s.Yields #[1, 1, 1, 2, 1, 1] [⟨0, 2, true⟩, ⟨4, 2, true⟩]) ∧
    Settles #[1, 1, 1, 2, 1, 1] (fun fuel => (values [1, 1]).occursAt fuel 1) true := by
  have hoccurs : LeftmostOccurrences [1, 1] #[1, 1, 1, 2, 1, 1] 0 [0, 4] := by
    refine .first (Nat.le_refl 0) (by decide) (fun j _ hj => absurd hj (Nat.not_lt_zero j))
      (.first (by decide) (by decide) (fun j hle hlt => ?_) (.none fun i hi h => ?_))
    · obtain rfl | rfl : j = 2 ∨ j = 3 := by
        have hlow : 2 ≤ j := hle
        omega
      all_goals decide
    · have hin : i + 2 ≤ 6 := h.1
      have hlow : 6 ≤ i := hi
      omega
  obtain ⟨hsearch, -, hat⟩ :=
    search_finds_leftmost_occurrences [1, 1] #[1, 1, 1, 2, 1, 1] (by decide)
  obtain ⟨s, ms, hs, hms, -, hword, -⟩ := hsearch 0
  obtain ⟨is, his, rfl⟩ := hword (by decide)
  obtain rfl := his.unique hoccurs
  obtain ⟨found, hfound, hiff⟩ := hat 1
  obtain rfl : found = true := hiff.mpr (by decide)
  exact ⟨⟨s, hs, hms⟩, hfound⟩

end Expression

end SeqPattern
