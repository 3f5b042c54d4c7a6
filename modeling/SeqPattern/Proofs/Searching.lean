import SeqPattern.Proofs.Leftmost
import SeqPattern.Proofs.OrderedStops
import SeqPattern.Scan

namespace SeqPattern

open Search

variable {α : Type}

section Items

variable (xs : Array α)

theorem Query.eval_mapM {β γ : Type} (f : β → Query α γ) (bs : List β) :
    (bs.mapM f).eval xs = bs.map fun b => (f b).eval xs := by
  induction bs with
  | nil => rfl
  | cons b bs ih => simp [List.mapM_cons, ih]

theorem Window.eval_readFrom (w : Window) (n : Nat) {i : Nat} (h : i + n ≤ w.count)
    (before : List α) :
    (w.readFrom n i before).eval xs =
      before.reverse ++ (xs.toList.drop (w.index + i)).take n := by
  induction n generalizing i before with
  | zero => simp [readFrom]
  | succ n ih =>
    have hi : i < w.count := by omega
    cases hget : xs[w.index + i]? with
    | none =>
      have hsize := Array.getElem?_eq_none_iff.mp hget
      have hdrop : xs.toList.drop (w.index + i) = [] :=
        List.drop_eq_nil_of_le (by simpa using hsize)
      simp [readFrom, Window.get?, hi, hget, hdrop]
    | some a =>
      obtain ⟨hsize, ha⟩ := Array.getElem?_eq_some_iff.mp hget
      have hdrop : xs.toList.drop (w.index + i) = a :: xs.toList.drop (w.index + (i + 1)) := by
        rw [List.drop_eq_getElem_cons (by simpa using hsize), Array.getElem_toList, ha,
          Nat.add_assoc]
      simp [readFrom, Window.get?, hi, hget, hdrop, ih (i := i + 1) (by omega)]

theorem Match.eval_items (m : Match) :
    m.items.eval xs = (xs.toList.drop m.index).take m.length := by
  rw [items, Window.toList, Window.eval_readFrom xs m.window m.window.count (by omega)]
  simp [window]

theorem MatchList.eval_items (l : MatchList) :
    l.items.eval xs = l.toList.flatMap fun m => (xs.toList.drop m.index).take m.length := by
  simp [items, Query.eval_mapM, Match.eval_items, List.flatMap_def]

end Items

variable [BEq α] {xs : Array α}

theorem Expression.settles_first? {e : Expression α} {i : Nat} {ms : List Match}
    (h : e.Enumerates xs i ms) : Settles xs (fun fuel => e.first? fuel i) ms.head? := by
  obtain ⟨c, hs, hc⟩ := h
  obtain ⟨d, hd⟩ := hc.settles_next
  exact hs.bind (hd.bind (settles_pure _))

namespace Scan

/-- Searching gives the matches one after the other, then the end, and from there on always the
end. It never fails. -/
inductive Yields (xs : Array α) : Scan α → List Match → Prop
  | stop {s t : Scan α} (first : Settles xs (fun fuel => next fuel s) (.ok none, t))
      (again : Settles xs (fun fuel => next fuel t) (.ok none, t)) : Yields xs s []
  | give {s t : Scan α} {m : Match} {ms : List Match}
      (first : Settles xs (fun fuel => next fuel s) (.ok (some m), t)) (rest : Yields xs t ms) :
      Yields xs s (m :: ms)

theorem Yields.unique {s : Scan α} {ms ns : List Match} (hm : s.Yields xs ms)
    (hn : s.Yields xs ns) : ms = ns := by
  induction hm generalizing ns with
  | stop first again =>
    cases hn with
    | stop first' again' => rfl
    | give first' rest' =>
      have h := first.unique first'
      cases h
  | give first rest ih =>
    cases hn with
    | stop first' again' =>
      have h := first.unique first'
      cases h
    | give first' rest' =>
      have h := first.unique first'
      cases h
      rw [ih rest']

section Step

variable {e : Expression α} {p : Nat}

theorem settles_next_finished :
    Settles xs (fun fuel => next fuel ⟨e, p, true⟩) (.ok none, ⟨e, p, true⟩) :=
  (settles_pure _).succ fun _ => rfl

theorem next_succ_unfinished (e : Expression α) (p fuel : Nat) :
    next (fuel + 1) ⟨e, p, false⟩ = (do
      if ← .ask (Query.inRange p) then
        match ← e.first? fuel p with
        | some m => return (.ok (some m), ⟨e, p + step m, false⟩)
        | none => next fuel ⟨e, p + 1, false⟩
      else if ← .ask (Query.isJustPast p) then return (.ok none, ⟨e, p, true⟩)
      else return (.error (.strayed p), ⟨e, p, true⟩)) :=
  rfl

theorem settles_next_found (hp : p ≤ xs.size) {m : Match}
    (hm : Settles xs (fun fuel => e.first? fuel p) (some m)) :
    Settles xs (fun fuel => next fuel ⟨e, p, false⟩) (.ok (some m), ⟨e, p + step m, false⟩) := by
  refine Settles.succ ((settles_inRange xs p).bind ?_) (next_succ_unfinished e p)
  simp only [hp, decide_true, ↓reduceIte]
  exact hm.bind (settles_pure _)

theorem settles_next_passed_over (hp : p ≤ xs.size)
    (hm : Settles xs (fun fuel => e.first? fuel p) none)
    {r : Except Failure (Option Match) × Scan α}
    (hr : Settles xs (fun fuel => next fuel ⟨e, p + 1, false⟩) r) :
    Settles xs (fun fuel => next fuel ⟨e, p, false⟩) r := by
  refine Settles.succ ((settles_inRange xs p).bind ?_) (next_succ_unfinished e p)
  simp only [hp, decide_true, ↓reduceIte]
  exact hm.bind hr

theorem settles_next_out_of_range (hp : xs.size < p) :
    Settles xs (fun fuel => next fuel ⟨e, p, false⟩)
      (if p = xs.size + 1 then .ok none else .error (.strayed p), ⟨e, p, true⟩) := by
  refine Settles.succ ((settles_inRange xs p).bind ?_) (next_succ_unfinished e p)
  have heval : (Query.isJustPast p).eval xs = decide (p = xs.size + 1) := rfl
  have hpast := settles_ask xs (Query.isJustPast p)
  rw [heval] at hpast
  simp only [Nat.not_le_of_lt hp, decide_false, Bool.false_eq_true, ↓reduceIte]
  refine hpast.bind ?_
  by_cases h : p = xs.size + 1
  · simp only [h, decide_true, ↓reduceIte]
    exact settles_pure _
  · simp only [h, decide_false, Bool.false_eq_true, ↓reduceIte]
    exact settles_pure _

theorem settles_next_over :
    Settles xs (fun fuel => next fuel ⟨e, xs.size + 1, false⟩)
      (.ok none, ⟨e, xs.size + 1, true⟩) := by
  have h := settles_next_out_of_range (e := e) (Nat.lt_succ_self xs.size)
  rwa [if_pos rfl] at h

end Step

theorem Yields.passed_over {e : Expression α} {p : Nat} (hp : p ≤ xs.size)
    (hm : Settles xs (fun fuel => e.first? fuel p) none) {ms : List Match}
    (h : Yields xs ⟨e, p + 1, false⟩ ms) : Yields xs ⟨e, p, false⟩ ms := by
  cases h with
  | stop first again => exact .stop (settles_next_passed_over hp hm first) again
  | give first rest => exact .give (settles_next_passed_over hp hm first) rest

/-- A search goes through the preferred matches from left to right, whatever the pattern, as long as
these lie in the sequence. -/
theorem yields_leftmost {e : Expression α} {first : Nat → Option Nat}
    (hfirst : ∀ i, i ≤ xs.size →
      Settles xs (fun fuel => e.first? fuel i) ((first i).map (Match.span i)))
    (hin : ∀ i q, first i = some q → q ≤ xs.size) {p : Nat} (hp : p ≤ xs.size + 1) :
    Yields xs ⟨e, p, false⟩ (leftmost first xs.size p) := by
  induction p using leftmost.induct first xs.size with
  | case1 p hlt =>
    obtain rfl : p = xs.size + 1 := by omega
    rw [leftmost_of_lt hlt]
    exact .stop settles_next_over settles_next_finished
  | case2 p hlt hnone ih =>
    have hp := Nat.le_of_not_lt hlt
    have hm := hfirst p hp
    rw [hnone] at hm
    rw [leftmost_of_none hnone]
    exact (ih (Nat.succ_le_succ hp)).passed_over hp hm
  | case3 p hlt q hsome ih =>
    have hp := Nat.le_of_not_lt hlt
    have hm := hfirst p hp
    have hq := hin p q hsome
    rw [hsome] at hm
    rw [leftmost_of_some hp hsome]
    exact .give (settles_next_found hp hm) (ih (by omega))

theorem Yields.settles_next {s : Scan α} {ms : List Match} (h : Yields xs s ms) :
    ∃ t, Settles xs (fun fuel => next fuel s) (.ok ms.head?, t) := by
  cases h with
  | stop first again => exact ⟨_, first⟩
  | give first rest => exact ⟨_, first⟩

theorem restAfter_succ (s : Scan α) (before : List Match) (fuel : Nat) :
    restAfter (fuel + 1) before s = (do
      match ← s.next fuel with
      | (.error f, _) => return .error f
      | (.ok none, _) => return .ok before.reverse
      | (.ok (some m), s) => restAfter fuel (m :: before) s) :=
  rfl

theorem Yields.settles_restAfter {s : Scan α} {ms : List Match} (h : Yields xs s ms)
    (before : List Match) :
    Settles xs (fun fuel => restAfter fuel before s) (.ok (before.reverse ++ ms)) := by
  induction h generalizing before with
  | @stop s t first again =>
    rw [List.append_nil]
    exact Settles.succ (first.bind (settles_pure _)) (restAfter_succ s before)
  | @give s t m ms first rest ih =>
    have hrest := ih (m :: before)
    rw [List.reverse_cons, List.append_assoc, List.singleton_append] at hrest
    exact Settles.succ (first.bind hrest) (restAfter_succ s before)

end Scan

namespace Expression

variable {e : Expression α}

/-- The matches of a search from a position on, by the most preferred end at each position. -/
def scanned (xs : Array α) (e : Expression α) (p : Nat) : List Match :=
  leftmost (fun i => (e.ends xs i).head?) xs.size p

omit [BEq α] in
theorem settles_start (e : Expression α) (p : Nat) :
    Settles xs (fun _ => ask (Scan.start e p)) ⟨e, p, decide (xs.size < p)⟩ := by
  have h := settles_ask xs (Scan.start e p)
  rw [Scan.start, Query.eval_bind, Query.eval_inRange, Query.eval_pure] at h
  rwa [← decide_not, decide_eq_decide.mpr Nat.not_le] at h

section Entered

variable {p : Nat} {ms : List Match} (h : Scan.Yields xs ⟨e, p, decide (xs.size < p)⟩ ms)

include h

theorem settles_findAll_of_yields : Settles xs (fun fuel => e.findAll fuel p)
    (if p ≤ xs.size then .ok (.collect ms) else .error (.startPastEnd p)) := by
  have hrest := h.settles_restAfter []
  refine (settles_start e p).bind ?_
  by_cases hp : p ≤ xs.size
  · simp only [hp, Nat.not_lt_of_le hp, decide_false, ↓reduceIte] at hrest ⊢
    exact hrest.bind (settles_pure _)
  · simp only [hp, Nat.lt_of_not_le hp, decide_true, ↓reduceIte]
    exact settles_pure _

theorem settles_find_of_yields : Settles xs (fun fuel => e.find fuel p)
    (if p ≤ xs.size then .ok (ms.head?.getD (.failure p)) else .error (.startPastEnd p)) := by
  obtain ⟨t, hnext⟩ := h.settles_next
  refine (settles_start e p).bind ?_
  by_cases hp : p ≤ xs.size
  · simp only [hp, Nat.not_lt_of_le hp, decide_false, ↓reduceIte] at hnext ⊢
    exact hnext.bind (settles_pure _)
  · simp only [hp, Nat.lt_of_not_le hp, decide_true, ↓reduceIte]
    exact settles_pure _

end Entered

theorem yields_scanned (hxs : xs.size ≤ maxSize) (he : e.isPlain = true) (p : Nat) :
    Scan.Yields xs ⟨e, p, decide (xs.size < p)⟩ (e.scanned xs p) := by
  by_cases hp : xs.size < p
  · rw [decide_eq_true hp, scanned, leftmost_of_lt hp]
    exact .stop Scan.settles_next_finished Scan.settles_next_finished
  · rw [decide_eq_false hp]
    refine Scan.yields_leftmost (fun i _ => ?_) (fun i q hq => ?_) (by omega)
    · have h := settles_first? (enumerates_ends hxs he i)
      rwa [List.head?_map] at h
    · exact ((leadsTo_ends hxs he).bounded i q (List.mem_of_head? hq)).2

section Entries

variable (hxs : xs.size ≤ maxSize) (he : e.isPlain = true)

include hxs he

theorem settles_findAll (p : Nat) : Settles xs (fun fuel => e.findAll fuel p)
    (if p ≤ xs.size then .ok (.collect (e.scanned xs p)) else .error (.startPastEnd p)) :=
  settles_findAll_of_yields (yields_scanned hxs he p)

theorem settles_find (p : Nat) : Settles xs (fun fuel => e.find fuel p)
    (if p ≤ xs.size then .ok ((e.scanned xs p).head?.getD (.failure p))
      else .error (.startPastEnd p)) :=
  settles_find_of_yields (yields_scanned hxs he p)

theorem settles_occurs :
    Settles xs (fun fuel => e.occurs fuel) (.ok (!(e.scanned xs 0).isEmpty)) := by
  obtain ⟨t, hnext⟩ := (yields_scanned hxs he 0).settles_next
  rw [show (!(e.scanned xs 0).isEmpty) = (e.scanned xs 0).head?.isSome by
    cases e.scanned xs 0 <;> rfl]
  exact (settles_start e 0).bind (hnext.bind (settles_pure _))

theorem settles_occursAt (i : Nat) :
    Settles xs (fun fuel => e.occursAt fuel i) (!(e.ends xs i).isEmpty) := by
  have h := (settles_first? (enumerates_ends hxs he i)).map Option.isSome
  rw [List.head?_map, Option.isSome_map] at h
  rw [show (!(e.ends xs i).isEmpty) = (e.ends xs i).head?.isSome by cases e.ends xs i <;> rfl]
  exact h

end Entries

theorem head_scanned_starts_iff (xs : Array α) (e : Expression α) {p : Nat} (hp : p ≤ xs.size) :
    (((e.scanned xs p).head?.getD (.failure p)).success = true ∧
      ((e.scanned xs p).head?.getD (.failure p)).index = p) ↔ e.ends xs p ≠ [] := by
  cases hfirst : (e.ends xs p).head? with
  | some q =>
    have hne : e.ends xs p ≠ [] := List.ne_nil_of_mem (List.mem_of_head? hfirst)
    rw [scanned, leftmost_of_some hp hfirst]
    simp [Match.span, hne]
  | none =>
    have hnil : e.ends xs p = [] := List.head?_eq_none_iff.mp hfirst
    simp only [hnil, ne_eq, not_true_eq_false, iff_false, not_and]
    cases hhead : (e.scanned xs p).head? with
    | none => simp [Match.failure]
    | some m =>
      intro _ hindex
      rw [Option.getD_some] at hindex
      have hm := (first_of_mem_leftmost (List.mem_of_head? hhead)).2.2
      rw [hindex, hnil] at hm
      cases hm

/-- A search for a plain pattern is the scan from left to right that takes the most preferred match
wherever there is one and goes on past its end, and every way to search agrees with it. -/
theorem search_is_leftmost_scan (he : e.isPlain = true) (xs : Array α) (hxs : xs.size < maxSize)
    (start : Nat) :
    (∀ i, e.Enumerates xs i ((e.ends xs i).map (Match.span i))) ∧
    (∃ s, Settles xs (fun _ => ask (Scan.start e start)) s ∧ s.Yields xs (e.scanned xs start)) ∧
    ((e.scanned xs start).Pairwise fun m n => m.index + max 1 m.length ≤ n.index) ∧
    (∀ i, start ≤ i → i ≤ xs.size →
      (∀ m ∈ e.scanned xs start, i < m.index ∨ m.index + max 1 m.length ≤ i) →
      e.ends xs i = []) ∧
    Settles xs (fun fuel => e.occurs fuel) (.ok (!(e.scanned xs 0).isEmpty)) ∧
    (start ≤ xs.size →
      (∃ c, Settles xs (fun fuel => e.findAll fuel start) (.ok c) ∧
        c.toList = e.scanned xs start ∧ c.locked = true ∧
        (c.items.eval xs).Sublist xs.toList) ∧
      ∃ m hit, Settles xs (fun fuel => e.find fuel start) (.ok m) ∧
        m = (e.scanned xs start).head?.getD (.failure start) ∧
        Settles xs (fun fuel => e.occursAt fuel start) hit ∧
        (hit = true ↔ m.success = true ∧ m.index = start)) ∧
    (xs.size < start →
      Settles xs (fun fuel => e.findAll fuel start) (.error (.startPastEnd start)) ∧
      Settles xs (fun fuel => e.find fuel start) (.error (.startPastEnd start)) ∧
      e.scanned xs start = [] ∧ Settles xs (fun fuel => e.occursAt fuel start) false) := by
  have hle := Nat.le_of_lt hxs
  have hall := settles_findAll hle he start
  have hfind := settles_find hle he start
  have hat := settles_occursAt hle he start
  refine ⟨enumerates_ends hle he, ⟨_, settles_start e start, yields_scanned hle he start⟩,
    pairwise_leftmost, fun i hi hsize hgap => ?_, settles_occurs hle he, fun hin => ?_,
    fun hout => ?_⟩
  · exact List.head?_eq_none_iff.mp (first_eq_none_of_passed_over hi hsize hgap)
  · rw [if_pos hin] at hall hfind
    refine ⟨⟨_, hall, List.toList_toArray, rfl, ?_⟩, _, _, hfind, rfl, hat, ?_⟩
    · rw [MatchList.eval_items]
      exact (flatMap_leftmost_sublist xs.toList).trans (List.drop_sublist start xs.toList)
    · rw [head_scanned_starts_iff xs e hin]
      simp
  · rw [if_neg (Nat.not_le_of_lt hout)] at hall hfind
    have hnil : e.ends xs start = [] := by
      rw [List.eq_nil_iff_forall_not_mem]
      intro q hq
      have hbounds := (leadsTo_ends hle he).bounded start q hq
      omega
    rw [hnil] at hat
    exact ⟨hall, hfind, leftmost_of_lt hout, hat⟩

/-- Empty matches, a run that ends with the sequence, and the position past it. -/
theorem search_is_leftmost_scan_nullable :
    ∃ s, Settles #[2, 1, 1] (fun _ => ask (Scan.start (zeroOrMore (value 1)) 0)) s ∧
      s.Yields #[2, 1, 1] [⟨0, 0, true⟩, ⟨1, 2, true⟩, ⟨3, 0, true⟩] := by
  have hscan : (zeroOrMore (value 1)).scanned #[2, 1, 1] 0 =
      [⟨0, 0, true⟩, ⟨1, 2, true⟩, ⟨3, 0, true⟩] := by
    cbv
  have h := (search_is_leftmost_scan (e := zeroOrMore (value 1)) (by decide) #[2, 1, 1]
    (by decide) 0).2.1
  rwa [hscan] at h

end Expression

end SeqPattern
