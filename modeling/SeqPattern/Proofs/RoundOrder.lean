import SeqPattern.Proofs.WellFormed

namespace SeqPattern

open Search

variable {α : Type}

section Ends

variable {size : Nat} {child : Nat → List Nat}

theorem bounded_lazyEnds (hchild : ∀ p, ∀ q ∈ child p, p ≤ q ∧ q ≤ size) (bound need : Nat)
    {p : Nat} (hp : p ≤ size) : ∀ q ∈ lazyEnds child bound need p, p ≤ q ∧ q ≤ size := by
  intro q hq
  rw [(lazyEnds_perm_greedyEnds child bound need p).mem_iff] at hq
  exact bounded_greedyEnds hchild bound need hp q hq

/-- A round that is not needed leads on past where it starts, and so do all that follow it. -/
theorem lt_of_mem_deeperEnds (hchild : ∀ p, ∀ q ∈ child p, p ≤ q ∧ q ≤ size)
    {ends : Nat → Nat → Nat → List Nat}
    (hends : ∀ bound need p, p ≤ size → ∀ q ∈ ends bound need p, p ≤ q ∧ q ≤ size)
    {bound p : Nat} : ∀ q ∈ deeperEnds ends child bound 0 p, p < q := by
  intro q hq
  cases bound with
  | zero => simp [deeperEnds] at hq
  | succ bound =>
    obtain ⟨m, hm, hq⟩ := List.mem_flatMap.mp hq
    obtain ⟨hm, hround⟩ := List.mem_filter.mp hm
    have hne : m ≠ p := by simpa using hround
    obtain ⟨hpm, hms⟩ := hchild p m hm
    have hmq := (hends bound _ m hms q hq).1
    omega

/-- Read backwards, a lazy repetition is the greedy one of the child that is read backwards. -/
theorem reverse_lazyEnds (child : Nat → List Nat) (bound need p : Nat) :
    (lazyEnds child bound need p).reverse =
      greedyEnds (fun p => (child p).reverse) bound need p := by
  have hlast (need p : Nat) :
      (if need = 0 then [p] else []).reverse = if need = 0 then [p] else [] := by
    split <;> rfl
  induction bound generalizing need p with
  | zero => exact hlast need p
  | succ bound ih =>
    rw [lazyEnds, greedyEnds, List.reverse_append, hlast, List.reverse_flatMap,
      List.filter_reverse]
    congr 1
    exact List.flatMap_congr fun q _ => ih (need - 1) q

section OneStop

variable (hone : ∀ p, (child p).length ≤ 1)

include hone

theorem eq_nil_or_eq_singleton (p : Nat) : child p = [] ∨ ∃ q, child p = [q] :=
  (Nat.le_one_iff_eq_zero_or_eq_one.mp (hone p)).imp List.length_eq_zero_iff.mp
    List.length_eq_one_iff.mp

theorem greedyEnds_eq_reverse_lazyEnds (bound need p : Nat) :
    greedyEnds child bound need p = (lazyEnds child bound need p).reverse := by
  have hchild : (fun p => (child p).reverse) = child := by
    funext p
    obtain hp | ⟨q, hp⟩ := eq_nil_or_eq_singleton hone p <;> simp [hp]
  rw [reverse_lazyEnds, hchild]

theorem pairwise_lazyEnds (hchild : ∀ p, ∀ q ∈ child p, p ≤ q ∧ q ≤ size) (bound need p : Nat) :
    (lazyEnds child bound need p).Pairwise (· < ·) := by
  induction bound generalizing need p with
  | zero => rw [lazyEnds]; split <;> simp
  | succ bound ih =>
    have hdeeper : (deeperEnds (lazyEnds child) child (bound + 1) need p).Pairwise (· < ·) := by
      obtain hp | ⟨q, hp⟩ := eq_nil_or_eq_singleton hone p
      · simp [deeperEnds, hp]
      · -- the one round there could be is left out when it is empty and not needed
        by_cases hq : q ≠ p ∨ need ≠ 0
        · simpa [deeperEnds, hp, hq] using ih (need - 1) q
        · simp [deeperEnds, hp, hq]
    rw [lazyEnds_eq]
    split
    · next hneed =>
      subst hneed
      rw [List.singleton_append, List.pairwise_cons]
      refine ⟨lt_of_mem_deeperEnds hchild fun bound need _ => ?_, hdeeper⟩
      exact bounded_lazyEnds hchild bound need
    · exact hdeeper

end OneStop

end Ends

section Runs

variable [BEq α] {xs : Array α} {c : ElementClass α}

def ElementClass.runFrom (c : ElementClass α) (xs : Array α) (p : Nat) : Nat :=
  ((xs.toList.drop p).takeWhile c.accepts).length

theorem ElementClass.runFrom_eq (c : ElementClass α) (xs : Array α) (p : Nat) :
    c.runFrom xs p = if xs[p]?.any c.accepts then c.runFrom xs (p + 1) + 1 else 0 := by
  rw [runFrom, List.drop_eq_getElem?_toList_append, Array.getElem?_toList]
  cases ha : xs[p]? with
  | none =>
    have hdrop : xs.toList.drop (p + 1) = [] :=
      List.drop_eq_nil_of_le (Nat.le_succ_of_le (Array.getElem?_eq_none_iff.mp ha))
    simp [hdrop]
  | some a => cases hacc : c.accepts a <;> simp [hacc, runFrom]

theorem lazyEnds_element (bound need p : Nat) :
    lazyEnds (fun p => if xs[p]?.any c.accepts then [p + 1] else []) bound need p =
      List.range' (p + need) (min bound (c.runFrom xs p) + 1 - need) := by
  induction bound generalizing need p with
  | zero => cases need <;> simp [lazyEnds]
  | succ bound ih =>
    rw [ElementClass.runFrom_eq]
    cases h : xs[p]?.any c.accepts with
    | false => cases need <;> simp [lazyEnds, h]
    | true =>
      cases need with
      | zero => simp [lazyEnds, h, ih, List.range'_succ]
      | succ need =>
        have hstart : p + 1 + need = p + (need + 1) := by omega
        simp [lazyEnds, h, ih, hstart]

end Runs

namespace Expression

variable [BEq α] {xs : Array α} {i : Nat}

theorem enumerates_repetition {e : Expression α} {stops : Nat → List Nat}
    (he : e.LeadsTo xs stops) (bounds : Bounds) (kind : RepetitionKind) (hi : i ≤ xs.size) :
    (repetition e bounds kind).Enumerates xs i
      ((repeatedStops kind stops bounds i).map (Match.span i)) := by
  have h := (leadsTo_repetition he bounds kind).enumerates i
  rwa [if_pos hi] at h

/-- A repetition of which no round is needed has the empty match once: a lazy one prefers it to all
others, and a greedy one takes it last. -/
theorem repetition_has_one_empty_match {e : Expression α} (he : e.isPlain = true) (max : Nat)
    (hxs : xs.size ≤ maxSize) (hi : i ≤ xs.size) :
    (∃ ms, (repetition e ⟨0, max, Nat.zero_le max⟩ .lazy).Enumerates xs i (⟨i, 0, true⟩ :: ms) ∧
      ∀ m ∈ ms, m.isEmpty = false) ∧
    ∃ ms, (repetition e ⟨0, max, Nat.zero_le max⟩ .greedy).Enumerates xs i (ms ++ [⟨i, 0, true⟩]) ∧
      ∀ m ∈ ms, m.isEmpty = false := by
  have hends := leadsTo_ends hxs he
  have hempty : Match.span i i = ⟨i, 0, true⟩ := by rw [Match.span, Nat.sub_self]
  have htaken {ends : Nat → Nat → Nat → List Nat}
      (h : ∀ bound need p, p ≤ xs.size → ∀ q ∈ ends bound need p, p ≤ q ∧ q ≤ xs.size) :
      ∀ m ∈ (deeperEnds ends (e.ends xs) max 0 i).map (Match.span i), m.isEmpty = false := by
    intro m hm
    obtain ⟨q, hq, rfl⟩ := List.mem_map.mp hm
    have hlt := lt_of_mem_deeperEnds hends.bounded h q hq
    simp only [Match.isEmpty, Match.span, beq_eq_false_iff_ne]
    omega
  refine ⟨⟨_, ?_, htaken fun bound need _ => bounded_lazyEnds hends.bounded bound need⟩,
    _, ?_, htaken fun bound need _ => bounded_greedyEnds hends.bounded bound need⟩
  · have h := enumerates_repetition hends ⟨0, max, Nat.zero_le max⟩ .lazy hi
    rwa [repeatedStops, lazyEnds_eq, if_pos rfl, List.singleton_append, List.map_cons, hempty] at h
  · have h := enumerates_repetition hends ⟨0, max, Nat.zero_le max⟩ .greedy hi
    rwa [repeatedStops, greedyEnds_eq, if_pos rfl, List.map_append, List.map_singleton, hempty] at h

/-- Rounds that are empty in more than one way, and some that are not. -/
theorem repetition_has_one_empty_match_nullable_rounds :
    let e : Expression Nat := alternation [sequence [], value 1, lookAhead true (value 2)]
    (∃ ms, (e.zeroOrMore .lazy).Enumerates #[1, 1, 2] 0 (⟨0, 0, true⟩ :: ms) ∧
      ∀ m ∈ ms, m.isEmpty = false) ∧
    ∃ ms, e.zeroOrMore.Enumerates #[1, 1, 2] 0 (ms ++ [⟨0, 0, true⟩]) ∧
      ∀ m ∈ ms, m.isEmpty = false := by
  intro e
  exact repetition_has_one_empty_match (e := e) (by decide) maxSize (by decide) (by decide)

theorem enumerates_reverse {e : Expression α} {stops : Nat → List Nat} (he : e.LeadsTo xs stops)
    (hone : ∀ p, (stops p).length ≤ 1) (bounds : Bounds) (hi : i ≤ xs.size) :
    (repetition e bounds .lazy).Enumerates xs i
        ((lazyEnds stops bounds.max bounds.min i).map (Match.span i)) ∧
      (repetition e bounds .greedy).Enumerates xs i
        ((lazyEnds stops bounds.max bounds.min i).map (Match.span i)).reverse := by
  refine ⟨enumerates_repetition he bounds .lazy hi, ?_⟩
  have h := enumerates_repetition he bounds .greedy hi
  rwa [repeatedStops, greedyEnds_eq_reverse_lazyEnds hone, List.map_reverse] at h

theorem pairwise_length_span {qs : List Nat} (h : qs.Pairwise (· < ·)) (hqs : ∀ q ∈ qs, i ≤ q) :
    (qs.map (Match.span i)).Pairwise fun m n => m.length < n.length := by
  rw [List.pairwise_map]
  refine h.imp_of_mem fun {p q} hp hq hpq => ?_
  have hip := hqs p hp
  simp only [Match.span]
  omega

theorem map_span_range' (min count : Nat) :
    (List.range' (i + min) count).map (Match.span i) =
      (List.range' min count).map (⟨i, ·, true⟩) := by
  rw [← List.map_add_range', List.map_map]
  exact List.map_congr_left fun n _ => by simp [Match.span]

/-- A repetition of what matches in one way at most wherever it is tried has ever longer matches
when it is lazy, and the same ones backwards when it is greedy. Where a class is repeated, these are
the parts of the run from the position on that have as many elements as the bounds allow. -/
theorem repetition_ascends_without_choice (bounds : Bounds) (xs : Array α)
    (hxs : xs.size ≤ maxSize) (hi : i ≤ xs.size) :
    (∀ e : Expression α, e.isTested = true →
      (∀ p, p ≤ xs.size → ∀ ms, e.Enumerates xs p ms → ms.length ≤ 1) →
      ∃ ms, (repetition e bounds .lazy).Enumerates xs i ms ∧
        (repetition e bounds .greedy).Enumerates xs i ms.reverse ∧
        ms.Pairwise fun m n => m.length < n.length) ∧
    ∀ c : ElementClass α, c.isProbing = false →
      ∃ ms, (repetition (element c) bounds .lazy).Enumerates xs i ms ∧
        (repetition (element c) bounds .greedy).Enumerates xs i ms.reverse ∧
        ms = (List.range' bounds.min (min bounds.max (c.runFrom xs i) + 1 - bounds.min)).map
          (⟨i, ·, true⟩) ∧
        (c.runFrom xs i < bounds.min → ms = []) := by
  refine ⟨fun e he hone => ?_, fun c hc => ?_⟩
  · obtain ⟨stops, hstops⟩ := exists_leadsTo hxs he
    have hone (p : Nat) : (stops p).length ≤ 1 := by
      by_cases hp : p ≤ xs.size
      · simpa using hone p hp _ (hstops.enumerates p)
      · have hnil : stops p = [] := List.eq_nil_iff_forall_not_mem.mpr fun q hq => by
          have hbounds := hstops.bounded p q hq
          omega
        simp [hnil]
    obtain ⟨hlazy, hgreedy⟩ := enumerates_reverse hstops hone bounds hi
    refine ⟨_, hlazy, hgreedy, pairwise_length_span ?_ fun q hq => ?_⟩
    · exact pairwise_lazyEnds hone hstops.bounded bounds.max bounds.min i
    · exact (bounded_lazyEnds hstops.bounded bounds.max bounds.min hi q hq).1
  · have hone (p : Nat) : (if xs[p]?.any c.accepts then [p + 1] else []).length ≤ 1 := by
      split <;> simp
    obtain ⟨hlazy, hgreedy⟩ := enumerates_reverse (leadsTo_element hxs hc) hone bounds hi
    refine ⟨_, hlazy, hgreedy, ?_, fun hrun => ?_⟩
    · rw [lazyEnds_element, map_span_range']
    · have hnone : min bounds.max (c.runFrom xs i) + 1 - bounds.min = 0 := by omega
      rw [lazyEnds_element, hnone, List.range'_zero, List.map_nil]

/-- Rounds of two elements and, before a 2, empty ones, no more of which are taken than needed. -/
theorem repetition_ascends_without_choice_settling_rounds :
    let e : Expression Nat := alternation [sequence [value 1, value 1], lookAhead false (value 2)]
    (∃ ms, (e.atLeast 2 .lazy).Enumerates #[1, 1, 2, 3] 0 ms ∧
        (e.atLeast 2).Enumerates #[1, 1, 2, 3] 0 ms.reverse ∧
        ms.Pairwise fun m n => m.length < n.length) ∧
      ∃ ms, ((value 1).atLeast 1 .lazy).Enumerates #[1, 1, 2, 3] 0 ms ∧
        ((value 1).atLeast 1).Enumerates #[1, 1, 2, 3] 0 ms.reverse ∧
        ms = [⟨0, 1, true⟩, ⟨0, 2, true⟩] := by
  intro e
  have hone : ∀ p, p ≤ 4 → (e.ends #[1, 1, 2, 3] p).length ≤ 1 := by decide
  have h := repetition_ascends_without_choice ⟨2, max 2 maxSize, by decide⟩ #[1, 1, 2, 3]
    (by decide) (Nat.zero_le _)
  refine ⟨h.1 e (by decide) fun p hp ms hms => ?_, ?_⟩
  · rw [hms.unique (enumerates_ends (by decide) (by decide) p), List.length_map]
    exact hone p hp
  · obtain ⟨ms, hlazy, hgreedy, hms, -⟩ := (repetition_ascends_without_choice
      ⟨1, max 1 maxSize, by decide⟩ #[1, 1, 2, 3] (by decide) (Nat.zero_le _)).2 (.value 1) rfl
    exact ⟨ms, hlazy, hgreedy, hms⟩

end Expression

end SeqPattern
