import SeqPattern.Proofs.Backtracking

namespace SeqPattern

open Search

variable {α : Type} {xs : Array α} {r : Repeated α} {stops : Nat → List Nat}

def Repeated.admitted (r : Repeated α) (number : Nat) (ms : List Match) : List Match :=
  ms.filter fun m => r.admits m number

theorem Repeated.admitted_cons_of_pos {number : Nat} {m : Match} (h : r.admits m number = true)
    (ms : List Match) : r.admitted number (m :: ms) = m :: r.admitted number ms :=
  List.filter_cons_of_pos h

theorem Repeated.admitted_cons_of_neg {number : Nat} {m : Match} (h : r.admits m number = false)
    (ms : List Match) : r.admitted number (m :: ms) = r.admitted number ms :=
  List.filter_cons_of_neg (by simp [h])

def deeperEnds (ends : Nat → Nat → Nat → List Nat) (child : Nat → List Nat) :
    Nat → Nat → Nat → List Nat
  | 0, _, _ => []
  | bound + 1, need, p =>
    ((child p).filter fun q => q ≠ p || need ≠ 0).flatMap (ends bound (need - 1))

theorem lazyEnds_eq (child : Nat → List Nat) (bound need p : Nat) :
    lazyEnds child bound need p =
      (if need = 0 then [p] else []) ++ deeperEnds (lazyEnds child) child bound need p := by
  cases bound <;> simp [lazyEnds, deeperEnds]

theorem greedyEnds_eq (child : Nat → List Nat) (bound need p : Nat) :
    greedyEnds child bound need p =
      deeperEnds (greedyEnds child) child bound need p ++ if need = 0 then [p] else [] := by
  cases bound <;> simp [greedyEnds, deeperEnds]

variable [BEq α]

/-- The rounds that the rule on empty ones lets through, counted from 1, and what follows them. -/
theorem flatMap_admitted (he : r.child.LeadsTo xs stops) (ends : Nat → Nat → Nat → List Nat)
    (bound number p : Nat) :
    ((r.admitted (number + 1) ((stops p).map (Match.span p))).flatMap fun m =>
        ends bound (r.bounds.min - (number + 1)) m.stop) =
      deeperEnds ends stops (bound + 1) (r.bounds.min - number) p := by
  have hadmitted : r.admitted (number + 1) ((stops p).map (Match.span p)) =
      ((stops p).filter fun q => q ≠ p || r.bounds.min - number ≠ 0).map (Match.span p) := by
    rw [Repeated.admitted, List.filter_map]
    congr 1
    apply List.filter_congr
    intro q hq
    have hle := (he.bounded p q hq).1
    rw [Bool.eq_iff_iff]
    simp [Repeated.admits, Match.isEmpty, Match.span]
    omega
  have hle : ∀ q ∈ (stops p).filter fun q => q ≠ p || r.bounds.min - number ≠ 0, p ≤ q :=
    fun q hq => (he.bounded p q (List.mem_filter.mp hq).1).1
  rw [hadmitted, flatMap_span hle]
  rfl

omit [BEq α] in
theorem map_span_if (r : Repeated α) (number p : Nat) :
    (if r.bounds.min - number = 0 then [p] else []).map r.span =
      if r.bounds.min ≤ number then [r.span p] else [] := by
  by_cases h : r.bounds.min ≤ number
  · simp [h, Nat.sub_eq_zero_of_le h]
  · have hz : r.bounds.min - number ≠ 0 := by omega
    simp [h, hz]

namespace Cursor

section Lazy

theorem lazy_turn_resume {c d : Cursor α} (h : Settles xs (fun fuel => next fuel c) (none, d))
    (number : Nat) (below : List (Round (Cursor α))) :
    Turns xs LazyCursor.turn ⟨r, true, ⟨number, c⟩ :: below⟩ (.again ⟨r, true, below⟩) :=
  h.bind (settles_pure _)

theorem lazy_turn_skip {c d : Cursor α} {m : Match}
    (h : Settles xs (fun fuel => next fuel c) (some m, d)) {number : Nat}
    (hm : r.admits m number = false) (below : List (Round (Cursor α))) :
    Turns xs LazyCursor.turn ⟨r, true, ⟨number, c⟩ :: below⟩
      (.again ⟨r, true, ⟨number, d⟩ :: below⟩) := by
  refine h.bind ?_
  simpa [hm] using! settles_pure _

theorem lazy_turn_accept {c d : Cursor α} {m : Match}
    (h : Settles xs (fun fuel => next fuel c) (some m, d)) {number : Nat}
    (hm : r.admits m number = true) {below : List (Round (Cursor α))} {t : LazyCursor α (Cursor α)}
    (hd : Settles xs (fun fuel => LazyCursor.deepen (children fuel)
      ⟨r, true, ⟨number, d⟩ :: below⟩ m.stop) t) (ht : t.toRepeated = r) :
    Turns xs LazyCursor.turn ⟨r, true, ⟨number, c⟩ :: below⟩
      (if r.bounds.min ≤ number then .give (r.span m.stop) t else .again t) := by
  refine h.bind ?_
  simp only [hm]
  refine hd.bind ?_
  rw [ht]
  by_cases hn : r.bounds.min ≤ number <;> simpa [hn] using! settles_pure _

theorem lazy_turn_begin {t : LazyCursor α (Cursor α)}
    (hd : Settles xs (fun fuel => LazyCursor.deepen (children fuel) ⟨r, true, []⟩ r.index) t)
    (ht : t.toRepeated = r) :
    Turns xs LazyCursor.turn ⟨r, false, []⟩
      (if r.bounds.min ≤ 0 then .give (r.span r.index) t else .again t) := by
  refine hd.bind ?_
  rw [ht]
  by_cases hm : r.bounds.min = 0 <;> simpa [hm] using! settles_pure _

/-- Deepening a lazy repetition, with room for `bound` more rounds, puts what they lead to before
all that was to come. -/
def LazyDeepens (xs : Array α) (r : Repeated α) (stops : Nat → List Nat) (bound : Nat) : Prop :=
  ∀ stack rest p, Round.last stack + bound = r.bounds.max →
    (lazy ⟨r, true, stack⟩).Yields xs rest →
    ∃ t : LazyCursor α (Cursor α), t.toRepeated = r ∧
      Settles xs (fun fuel => LazyCursor.deepen (children fuel) ⟨r, true, stack⟩ p) t ∧
      (lazy t).Yields xs ((deeperEnds (lazyEnds stops) stops bound
        (r.bounds.min - Round.last stack) p).map r.span ++ rest)

theorem yields_lazy_round {bound : Nat} (hdeep : LazyDeepens xs r stops bound) {number : Nat}
    (hn : number + 1 + bound = r.bounds.max) {below : List (Round (Cursor α))}
    {rest : List Match} (hrest : (lazy ⟨r, true, below⟩).Yields xs rest) {c : Cursor α}
    {ms : List Match} (hc : c.Yields xs ms) :
    (lazy ⟨r, true, ⟨number + 1, c⟩ :: below⟩).Yields xs
      (((r.admitted (number + 1) ms).flatMap fun m =>
        lazyEnds stops bound (r.bounds.min - (number + 1)) m.stop).map r.span ++ rest) := by
  induction hc with
  | stop first again => exact takesTurns_lazy.again (lazy_turn_resume first _ _) hrest
  | @give c d m ms first _ ih =>
    cases hm : r.admits m (number + 1) with
    | false =>
      rw [Repeated.admitted_cons_of_neg hm]
      exact takesTurns_lazy.again (lazy_turn_skip first hm below) ih
    | true =>
      obtain ⟨t, ht, hd, hy⟩ := hdeep (⟨number + 1, d⟩ :: below) _ m.stop hn ih
      have h := takesTurns_lazy.give_if (lazy_turn_accept first hm hd ht) hy
      rw [Repeated.admitted_cons_of_pos hm, List.flatMap_cons, lazyEnds_eq]
      simp only [List.map_append, List.append_assoc, map_span_if]
      exact h

theorem lazy_deepen_full {stack : List (Round (Cursor α))}
    (hn : ¬ Round.last stack < r.bounds.max) (p : Nat) :
    Settles xs (fun fuel => LazyCursor.deepen (children fuel) ⟨r, true, stack⟩ p)
      ⟨r, true, stack⟩ := by
  simp only [LazyCursor.deepen, hn, ↓reduceIte]
  exact settles_pure _

theorem lazy_deepen_open {stack : List (Round (Cursor α))} (hn : Round.last stack < r.bounds.max)
    {p : Nat} {child : Cursor α} (hs : Settles xs (fun fuel => start fuel r.child p) child) :
    Settles xs (fun fuel => LazyCursor.deepen (children fuel) ⟨r, true, stack⟩ p)
      ⟨r, true, ⟨Round.last stack + 1, child⟩ :: stack⟩ := by
  simp only [LazyCursor.deepen, hn, ↓reduceIte]
  exact hs.bind (settles_pure _)

theorem lazyDeepens (he : r.child.LeadsTo xs stops) (bound : Nat) :
    LazyDeepens xs r stops bound := by
  induction bound with
  | zero =>
    intro stack rest p hn hrest
    have hfull : ¬ Round.last stack < r.bounds.max := by omega
    exact ⟨⟨r, true, stack⟩, rfl, lazy_deepen_full hfull p, hrest⟩
  | succ bound ih =>
    intro stack rest p hn hrest
    have hroom : Round.last stack < r.bounds.max := by omega
    obtain ⟨child, hs, hchild⟩ := he.enumerates p
    refine ⟨_, rfl, lazy_deepen_open hroom hs, ?_⟩
    rw [← flatMap_admitted he]
    exact yields_lazy_round ih (by omega) hrest hchild

theorem yields_lazy (he : r.child.LeadsTo xs stops) :
    (lazy ⟨r, false, []⟩).Yields xs
      ((lazyEnds stops r.bounds.max r.bounds.min r.index).map r.span) := by
  have hnil : (lazy ⟨r, true, []⟩).Yields xs [] := takesTurns_lazy.stop (settles_pure _)
  obtain ⟨t, ht, hd, hy⟩ := lazyDeepens he r.bounds.max [] [] r.index (by simp [Round.last]) hnil
  have h := takesTurns_lazy.give_if (lazy_turn_begin hd ht) hy
  rw [lazyEnds_eq, List.map_append]
  rw [List.append_nil, ← map_span_if r 0] at h
  exact h

end Lazy

section Greedy

def phaseAfter (ends : List Nat) : GreedyPhase := if ends.isEmpty then .finish else .retreat

theorem greedy_turn_full {stack : List (Round (Cursor α))}
    (hn : ¬ Round.last stack < r.bounds.max) (ends : List Nat) :
    Turns xs GreedyCursor.turn ⟨r, stack, ends, .deepen⟩ (.again ⟨r, stack, ends, .retreat⟩) := by
  simpa [Turns, GreedyCursor.turn, hn] using! settles_pure _

theorem greedy_turn_open {stack : List (Round (Cursor α))} (hn : Round.last stack < r.bounds.max)
    {ends : List Nat} {child : Cursor α}
    (hs : Settles xs (fun fuel => start fuel r.child (ends.headD r.index)) child) :
    Turns xs GreedyCursor.turn ⟨r, stack, ends, .deepen⟩
      (.again ⟨r, ⟨Round.last stack + 1, child⟩ :: stack, ends, .draw⟩) := by
  simp only [Turns, GreedyCursor.turn, hn, ↓reduceIte]
  exact hs.bind (settles_pure _)

theorem greedy_turn_resume {c d : Cursor α} (h : Settles xs (fun fuel => next fuel c) (none, d))
    (number : Nat) (below : List (Round (Cursor α))) (ends : List Nat) :
    Turns xs GreedyCursor.turn ⟨r, ⟨number, c⟩ :: below, ends, .draw⟩
      (.again ⟨r, below, ends, phaseAfter ends⟩) :=
  h.bind (settles_pure _)

theorem greedy_turn_skip {c d : Cursor α} {m : Match}
    (h : Settles xs (fun fuel => next fuel c) (some m, d)) {number : Nat}
    (hm : r.admits m number = false) (below : List (Round (Cursor α))) (ends : List Nat) :
    Turns xs GreedyCursor.turn ⟨r, ⟨number, c⟩ :: below, ends, .draw⟩
      (.again ⟨r, ⟨number, d⟩ :: below, ends, .draw⟩) := by
  refine h.bind ?_
  simpa [hm] using! settles_pure _

theorem greedy_turn_accept {c d : Cursor α} {m : Match}
    (h : Settles xs (fun fuel => next fuel c) (some m, d)) {number : Nat}
    (hm : r.admits m number = true) (below : List (Round (Cursor α))) (ends : List Nat) :
    Turns xs GreedyCursor.turn ⟨r, ⟨number, c⟩ :: below, ends, .draw⟩
      (.again ⟨r, ⟨number, d⟩ :: below, m.stop :: ends, .deepen⟩) := by
  refine h.bind ?_
  simpa [hm] using! settles_pure _

theorem greedy_turn_retreat (stack : List (Round (Cursor α))) (stop : Nat) (ends : List Nat) :
    Turns xs GreedyCursor.turn ⟨r, stack, stop :: ends, .retreat⟩
      (if r.bounds.min ≤ Round.last stack then .give (r.span stop) ⟨r, stack, ends, .draw⟩
      else .again ⟨r, stack, ends, .draw⟩) := by
  by_cases hm : r.bounds.min ≤ Round.last stack <;>
    simpa [Turns, GreedyCursor.turn, hm] using! settles_pure _

theorem greedy_turn_finish (stack : List (Round (Cursor α))) (ends : List Nat) :
    Turns xs GreedyCursor.turn ⟨r, stack, ends, .finish⟩
      (if r.bounds.min ≤ 0 then .give (r.span r.index) ⟨r, stack, ends, .over⟩
      else .again ⟨r, stack, ends, .over⟩) := by
  by_cases hm : r.bounds.min = 0 <;> simpa [Turns, GreedyCursor.turn, hm] using! settles_pure _

/-- Deepening a greedy repetition, with room for `bound` more rounds, goes through all that they
lead to before it gives back the rounds it has. -/
def GreedyDeepens (xs : Array α) (r : Repeated α) (stops : Nat → List Nat) (bound : Nat) : Prop :=
  ∀ (stack : List (Round (Cursor α))) ends rest, Round.last stack + bound = r.bounds.max →
    (greedy ⟨r, stack, ends, phaseAfter ends⟩).Yields xs rest →
    (greedy ⟨r, stack, ends, .deepen⟩).Yields xs ((deeperEnds (greedyEnds stops) stops bound
      (r.bounds.min - Round.last stack) (ends.headD r.index)).map r.span ++ rest)

/-- The innermost round runs to completion, and then the one below it is given back. -/
theorem yields_greedy_round {bound : Nat} (hdeep : GreedyDeepens xs r stops bound) {number : Nat}
    (hn : number + 1 + bound = r.bounds.max) {below : List (Round (Cursor α))} {ends : List Nat}
    {rest : List Match} (hrest : (greedy ⟨r, below, ends, phaseAfter ends⟩).Yields xs rest)
    {c : Cursor α} {ms : List Match} (hc : c.Yields xs ms) :
    (greedy ⟨r, ⟨number + 1, c⟩ :: below, ends, .draw⟩).Yields xs
      (((r.admitted (number + 1) ms).flatMap fun m =>
        greedyEnds stops bound (r.bounds.min - (number + 1)) m.stop).map r.span ++ rest) := by
  induction hc with
  | stop first again => exact takesTurns_greedy.again (greedy_turn_resume first _ _ ends) hrest
  | @give c d m ms first _ ih =>
    cases hm : r.admits m (number + 1) with
    | false =>
      rw [Repeated.admitted_cons_of_neg hm]
      exact takesTurns_greedy.again (greedy_turn_skip first hm below ends) ih
    | true =>
      have hback := takesTurns_greedy.give_if
        (greedy_turn_retreat (⟨number + 1, d⟩ :: below) m.stop ends) ih
      have hy := hdeep (⟨number + 1, d⟩ :: below) (m.stop :: ends) _ hn hback
      have h := takesTurns_greedy.again (greedy_turn_accept first hm below ends) hy
      rw [Repeated.admitted_cons_of_pos hm, List.flatMap_cons, greedyEnds_eq]
      simp only [List.map_append, List.append_assoc, map_span_if]
      exact h

theorem greedyDeepens (he : r.child.LeadsTo xs stops) (bound : Nat) :
    GreedyDeepens xs r stops bound := by
  induction bound with
  | zero =>
    intro stack ends rest hn hrest
    have hfull : ¬ Round.last stack < r.bounds.max := by omega
    have hretreat : (greedy ⟨r, stack, ends, .retreat⟩).Yields xs rest := by
      cases ends with
      | nil => exact takesTurns_greedy.again (settles_pure _) hrest
      | cons stop ends => exact hrest
    exact takesTurns_greedy.again (greedy_turn_full hfull ends) hretreat
  | succ bound ih =>
    intro stack ends rest hn hrest
    have hroom : Round.last stack < r.bounds.max := by omega
    obtain ⟨child, hs, hchild⟩ := he.enumerates (ends.headD r.index)
    refine takesTurns_greedy.again (greedy_turn_open hroom hs) ?_
    rw [← flatMap_admitted he]
    exact yields_greedy_round ih (by omega) hrest hchild

theorem yields_greedy (he : r.child.LeadsTo xs stops) :
    (greedy ⟨r, [], [], .deepen⟩).Yields xs
      ((greedyEnds stops r.bounds.max r.bounds.min r.index).map r.span) := by
  have hover : (greedy ⟨r, [], [], .over⟩).Yields xs [] := takesTurns_greedy.stop (settles_pure _)
  have hfinish := takesTurns_greedy.give_if (greedy_turn_finish [] []) hover
  have h := greedyDeepens he r.bounds.max [] [] _ (by simp [Round.last]) hfinish
  rw [greedyEnds_eq, List.map_append]
  rw [List.append_nil, ← map_span_if r 0] at h
  exact h

end Greedy

end Cursor

end SeqPattern
