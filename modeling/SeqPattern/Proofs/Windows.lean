import Mathlib.Tactic.SplitIfs
import SeqPattern.Proofs.Searching
import SeqPattern.Proofs.WellFormed
import SeqPattern.Proofs.WindowReading
import SeqPattern.Source.Feed

namespace SeqPattern

open Search

variable {α : Type}

/-- How a range is judged among `n` elements. -/
def rangeVerdict (n index size : Nat) : Except FailureKind Unit :=
  if index + size ≤ n then .ok ()
  else if n < index ∨ maxSize < index + size then .error .outOfRange
  else .error .invalidArgument

theorem le_of_rangeVerdict_bind_eq_ok {β : Type} {n index size : Nat}
    {f : Unit → Except FailureKind β} {b : β} (h : rangeVerdict n index size >>= f = .ok b) :
    index + size ≤ n ∧ f () = .ok b := by
  rw [rangeVerdict] at h
  split_ifs at h with hend
  · exact ⟨hend, h⟩
  all_goals cases h

section Validation

variable {xs : Array α} (hxs : xs.size ≤ maxSize) (index size : Nat)

include hxs

theorem Query.kind_eval_checkRange (extent : Extent) :
    ((checkRange extent index size).eval xs).mapError Failure.kind =
      rangeVerdict xs.size index size := by
  rw [eval_checkRange, rangeVerdict]
  by_cases hend : index + size ≤ xs.size
  · have hi : ¬ xs.size < index := by omega
    have hm : ¬ maxSize < index + size := by omega
    have he : ¬ xs.size < index + size := by omega
    simp only [hend, hi, hm, he, ↓reduceIte]
    rfl
  · have he : xs.size < index + size := Nat.lt_of_not_le hend
    by_cases hi : xs.size < index
    · simp only [hend, hi, true_or, ↓reduceIte]
      rfl
    · by_cases hm : maxSize < index + size
      · simp only [hend, hi, hm, or_true, ↓reduceIte]
        rfl
      · simp only [hend, hi, hm, he, or_self, ↓reduceIte]
        rfl

theorem Window.kind_eval_make :
    ((make index size).eval xs).mapError Failure.kind = (do
      rangeVerdict xs.size index size
      return ⟨index, size⟩) := by
  rw [make, Query.eval_bind, ← Query.kind_eval_checkRange hxs index size .count]
  cases (Query.checkRange .count index size).eval xs <;> rfl

theorem Match.kind_eval_make (success : Bool) :
    ((make index size success).eval xs).mapError Failure.kind = (do
      rangeVerdict xs.size index size
      if 0 < size && !success then throw .invalidArgument
      return ⟨index, size, success⟩) := by
  rw [make, Query.eval_bind, ← Query.kind_eval_checkRange hxs index size .length]
  cases (Query.checkRange .length index size).eval xs with
  | error f => rfl
  | ok u =>
    cases decide (0 < size) && !success <;> rfl

theorem Window.stop_le_of_eval_make {w : Window} (h : (make index size).eval xs = .ok w) :
    w.index + w.count ≤ xs.size := by
  have hkind := kind_eval_make hxs index size
  rw [h] at hkind
  obtain ⟨hend, hw⟩ := le_of_rangeVerdict_bind_eq_ok hkind.symm
  cases hw
  exact hend

theorem Match.stop_le_of_eval_make {success : Bool} {m : Match}
    (h : (make index size success).eval xs = .ok m) : m.stop ≤ xs.size := by
  have hkind := kind_eval_make hxs index size success
  rw [h] at hkind
  obtain ⟨hend, hm⟩ := le_of_rangeVerdict_bind_eq_ok hkind.symm
  split_ifs at hm <;> cases hm
  exact hend

end Validation

namespace Source

variable {β : Type} [BEq α]

/-- With enough work allowed the computation comes to the result, and the windows of the matches can
be read from then on. -/
def Finds (src : Source α) (xs : Array α) (f : Nat → Search α β) (b : β) (ms : List Match) : Prop :=
  ∃ enough, ∀ fuel, enough ≤ fuel →
    (src.run (f fuel).run).1 = some b ∧ ∀ m ∈ ms, m.window.KeepsReading xs (src.run (f fuel).run).2

/-- It suffices that in every sequence the matches lie in the sequence. -/
theorem Holds.finds {src : Source α} {xs : Array α} (h : src.Holds xs) (hxs : xs.size ≤ maxSize)
    {f : Nat → Search α β} (hf : Monotone f) (found : β → List Match)
    (hin : ∀ ys : Array α, ys.size ≤ maxSize →
      ∃ b, Settles ys f b ∧ ∀ m ∈ found b, m.stop ≤ ys.size)
    {b : β} (hb : Settles xs f b) : src.Finds xs f b (found b) := by
  obtain ⟨enough, henough⟩ := h.run_of_settles hb
  refine ⟨enough, fun fuel hle => ⟨henough fuel hle, fun m hm => ?_⟩⟩
  -- The known items alone give the same result, so the match lies among them.
  have hknown := h.result_known hf hxs hin (henough fuel hle)
  exact Window.keepsReading_of_known (h.run_snd _) (hknown m hm)

end Source

section Searches

variable [BEq α] {xs : Array α}

theorem Scan.Yields.settles_takeAfter {s : Scan α} {ms : List Match} (h : s.Yields xs ms) (k : Nat)
    (before : List Match) :
    ∃ t, Settles xs (fun fuel => takeAfter fuel k before s)
      (.ok (before.reverse ++ ms.take k, decide (ms.length < k)), t) := by
  induction h generalizing k before with
  | @stop s t first again =>
    cases k with
    | zero => exact ⟨s, by simpa using! settles_pure _⟩
    | succ k =>
      rw [List.take_nil, List.append_nil, decide_eq_true (by simp)]
      exact ⟨t, first.bind (settles_pure _)⟩
  | @give s t m ms first rest ih =>
    cases k with
    | zero => exact ⟨s, by simpa using! settles_pure _⟩
    | succ k =>
      obtain ⟨u, hu⟩ := ih k (m :: before)
      rw [List.reverse_cons, List.append_assoc, List.singleton_append] at hu
      simp only [List.take_succ_cons, List.length_cons, Nat.add_lt_add_iff_right]
      exact ⟨u, first.bind hu⟩

namespace Expression

variable {e : Expression α} (hxs : xs.size ≤ maxSize) (he : e.isTested = true)

include hxs he

theorem exists_yields_unfinished {p : Nat} (hp : p ≤ xs.size + 1) :
    ∃ ms, Scan.Yields xs ⟨e, p, false⟩ ms ∧ ∀ m ∈ ms, m.stop ≤ xs.size := by
  obtain ⟨stops, h⟩ := exists_leadsTo hxs he
  have hstops (i q : Nat) (hq : (stops i).head? = some q) : i ≤ q ∧ q ≤ xs.size :=
    h.bounded i q (List.mem_of_head? hq)
  refine ⟨leftmost (fun i => (stops i).head?) xs.size p, Scan.yields_leftmost (fun i _ => ?_)
    (fun i q hq => (hstops i q hq).2) hp, fun m hm => ?_⟩
  · simpa using settles_first? (h.enumerates i)
  · obtain ⟨q, hq, hspan⟩ := Option.map_eq_some_iff.mp (first_of_mem_leftmost hm).2.2
    rw [← hspan, Match.stop_span (hstops _ q hq).1]
    exact (hstops _ q hq).2

theorem exists_yields (p : Nat) :
    ∃ ms, Scan.Yields xs ⟨e, p, decide (xs.size < p)⟩ ms ∧ (∀ m ∈ ms, m.stop ≤ xs.size) ∧
      (xs.size < p → ms = []) := by
  by_cases hp : xs.size < p
  · rw [decide_eq_true hp]
    exact ⟨[], .stop Scan.settles_next_finished Scan.settles_next_finished, by simp, fun _ => rfl⟩
  · rw [decide_eq_false hp]
    obtain ⟨ms, hms, hin⟩ := exists_yields_unfinished hxs he (p := p) (by omega)
    exact ⟨ms, hms, hin, fun h => absurd h hp⟩

theorem exists_next (p : Nat) (finished : Bool) :
    ∃ r, Settles xs (fun fuel => Scan.next fuel ⟨e, p, finished⟩) r ∧
      ∀ m ∈ r.1.toOption.join, m.stop ≤ xs.size := by
  cases finished with
  | true => exact ⟨_, Scan.settles_next_finished, by simp [Except.toOption]⟩
  | false =>
    by_cases hp : p ≤ xs.size + 1
    · obtain ⟨ms, hms, hin⟩ := exists_yields_unfinished hxs he hp
      obtain ⟨t, ht⟩ := hms.settles_next
      exact ⟨_, ht, fun m hm => hin m (List.mem_of_head? hm)⟩
    · have h := Scan.settles_next_out_of_range (e := e) (show xs.size < p by omega)
      rw [if_neg (by omega)] at h
      exact ⟨_, h, by simp [Except.toOption]⟩

theorem exists_searched (start : Nat) :
    ∃ ms : List Match, (∀ m ∈ ms, m.stop ≤ xs.size) ∧ (xs.size < start → ms = []) ∧
      (∀ k, ∃ t, Settles xs (fun fuel => do (← ask (Scan.start e start)).take fuel k)
        (.ok (ms.take k, decide (ms.length < k)), t)) ∧
      Settles xs (fun fuel => e.findAll fuel start)
        (if start ≤ xs.size then .ok (.collect ms) else .error (.startPastEnd start)) ∧
      Settles xs (fun fuel => e.find fuel start)
        (if start ≤ xs.size then .ok (ms.head?.getD (.failure start))
          else .error (.startPastEnd start)) := by
  obtain ⟨ms, hms, hin, hpast⟩ := exists_yields hxs he start
  refine ⟨ms, hin, hpast, fun k => ?_, settles_findAll_of_yields hms, settles_find_of_yields hms⟩
  obtain ⟨t, ht⟩ := hms.settles_takeAfter k []
  exact ⟨t, (settles_start e start).bind ht⟩

end Expression

end Searches

namespace Source

variable [BEq α] {xs : Array α} {src : Source α} (hsrc : src.Holds xs) (hxs : xs.size ≤ maxSize)
  {e : Expression α} (he : e.isTested = true)

include hsrc hxs he

theorem Holds.finds_next (position : Nat) (finished : Bool) :
    ∃ r, src.Finds xs (fun fuel => Scan.next fuel ⟨e, position, finished⟩) r
      r.1.toOption.join.toList := by
  obtain ⟨r, hr, -⟩ := Expression.exists_next hxs he position finished
  refine ⟨r, hsrc.finds hxs (fun _ _ => Scan.next_mono _)
    (fun r => r.1.toOption.join.toList) (fun ys hys => ?_) hr⟩
  simpa using! Expression.exists_next hys he position finished

theorem Holds.finds_searched (start : Nat) :
    ∃ ms : List Match,
      (∀ k, ∃ t, src.Finds xs (fun fuel => do (← ask (Scan.start e start)).take fuel k)
        (.ok (ms.take k, decide (ms.length < k)), t) (ms.take k)) ∧
      src.Finds xs (fun fuel => e.findAll fuel start)
        (if start ≤ xs.size then .ok (.collect ms) else .error (.startPastEnd start)) ms ∧
      src.Finds xs (fun fuel => e.find fuel start)
        (if start ≤ xs.size then .ok (ms.head?.getD (.failure start))
          else .error (.startPastEnd start))
        (if start ≤ xs.size then [ms.head?.getD (.failure start)] else []) := by
  obtain ⟨ms, -, hpast, htake, hall, hfirst⟩ := Expression.exists_searched hxs he start
  refine ⟨ms, fun k => ?_, ?_, ?_⟩
  · obtain ⟨t, ht⟩ := htake k
    have h := hsrc.finds hxs (fun _ _ hle => bind_mono_right fun s => s.takeAfter_mono k [] hle)
      (fun r => (r.1.toOption.map Prod.fst).getD []) (fun ys hys => ?_) ht
    · exact ⟨t, h⟩
    · obtain ⟨ns, hin, -, htake, -, -⟩ := Expression.exists_searched hys he start
      obtain ⟨u, hu⟩ := htake k
      exact ⟨_, hu, fun m hm => hin m (List.mem_of_mem_take hm)⟩
  · have h := hsrc.finds hxs (e.monotone_findAll start)
      (fun r => (r.toOption.map MatchList.toList).getD []) (fun ys hys => ?_) hall
    · by_cases hs : start ≤ xs.size
      · simpa [hs, Except.toOption, MatchList.collect, MatchList.toList] using h
      · rw [hpast (Nat.lt_of_not_le hs)] at h ⊢
        simpa [hs, Except.toOption] using h
    · obtain ⟨ns, hin, -, -, hall, -⟩ := Expression.exists_searched hys he start
      refine ⟨_, hall, fun m hm => ?_⟩
      split_ifs at hm
      · exact hin m hm
      · cases hm
  · have h := hsrc.finds hxs (e.monotone_find start)
      (fun r => r.toOption.toList) (fun ys hys => ?_) hfirst
    · by_cases hs : start ≤ xs.size
      · simpa [hs, Except.toOption] using h
      · simpa [hs, Except.toOption] using h
    · obtain ⟨ns, hin, -, -, -, hfirst⟩ := Expression.exists_searched hys he start
      refine ⟨_, hfirst, fun m hm => ?_⟩
      split_ifs at hm with hs
      · obtain rfl : m = ns.head?.getD (.failure start) := by simpa [Except.toOption] using hm
        cases ns with
        | nil => exact hs
        | cons n ns => exact hin n List.mem_cons_self
      · cases hm

omit he

/-- A window is known when the answer it is made of puts it into whatever sequence answers so. -/
theorem Holds.keepsReading_of_run {β : Type} {q : Query α β} {b : β} {w : Window}
    (h : (src.run q).1 = b)
    (hin : ∀ ys : Array α, ys.size ≤ maxSize → q.eval ys = b → w.index + w.count ≤ ys.size) :
    w.KeepsReading xs (src.run q).2 := by
  have hlater := hsrc.run_snd q
  exact Window.keepsReading_of_known hlater
    (hin _ (Nat.le_trans hlater.size_known_le hxs) ((eval_known q src).trans h))

theorem Holds.keepsReading_of_make {index size : Nat} {w : Window}
    (h : (src.run (Window.make index size)).1 = .ok w) :
    w.KeepsReading xs (src.run (Window.make index size)).2 :=
  hsrc.keepsReading_of_run hxs h fun _ hys => Window.stop_le_of_eval_make hys index size

theorem Holds.keepsReading_of_make_match {index size : Nat} {success : Bool} {m : Match}
    (h : (src.run (Match.make index size success)).1 = .ok m) :
    m.window.KeepsReading xs (src.run (Match.make index size success)).2 :=
  hsrc.keepsReading_of_run hxs h fun _ hys => Match.stop_le_of_eval_make hys index size

/-- Windows and matches are made of the same ranges, those that lie in the sequence, and refused for
the same kinds of reasons; a match that is no success has to be empty besides. The window of a match
is its range. Every window that is made, and that of every match that is found without candidates
from outside, is known to the end, so that reading it, at once or after anything else, gives its
slice and draws nothing. -/
theorem windows_are_checked_and_known :
    (∀ m : Match, m.window = ⟨m.index, m.length⟩) ∧
    (∀ index size,
      let list := src.run (Window.make index size)
      let hit := src.run (Match.make index size true)
      let miss := src.run (Match.make index size false)
      (list.1.mapError Failure.kind = do
        rangeVerdict xs.size index size
        return ⟨index, size⟩) ∧
      (hit.1.mapError Failure.kind = do
        rangeVerdict xs.size index size
        return ⟨index, size, true⟩) ∧
      (miss.1.mapError Failure.kind = do
        rangeVerdict xs.size index size
        if 0 < size then throw .invalidArgument
        return ⟨index, size, false⟩) ∧
      (∀ w, list.1 = .ok w → w.KeepsReading xs list.2) ∧
      (∀ m, hit.1 = .ok m → m.window.KeepsReading xs hit.2) ∧
      (∀ m, miss.1 = .ok m → m.window.KeepsReading xs miss.2)) ∧
    ∀ e : Expression α, e.isTested = true →
      (∀ position finished, ∃ r,
        src.Finds xs (fun fuel => Scan.next fuel ⟨e, position, finished⟩) r
          r.1.toOption.join.toList) ∧
      ∀ start, ∃ ms : List Match,
        (∀ k, ∃ t, src.Finds xs (fun fuel => do (← ask (Scan.start e start)).take fuel k)
          (.ok (ms.take k, decide (ms.length < k)), t) (ms.take k)) ∧
        src.Finds xs (fun fuel => e.findAll fuel start)
          (if start ≤ xs.size then .ok (.collect ms) else .error (.startPastEnd start)) ms ∧
        src.Finds xs (fun fuel => e.find fuel start)
          (if start ≤ xs.size then .ok (ms.head?.getD (.failure start))
            else .error (.startPastEnd start))
          (if start ≤ xs.size then [ms.head?.getD (.failure start)] else []) := by
  refine ⟨fun _ => rfl, fun index size => ⟨?_, ?_, ?_, fun w => hsrc.keepsReading_of_make hxs,
    fun m => hsrc.keepsReading_of_make_match hxs, fun m => hsrc.keepsReading_of_make_match hxs⟩,
    fun e he => ⟨hsrc.finds_next hxs he, hsrc.finds_searched hxs he⟩⟩
  · rw [hsrc.run_fst, Window.kind_eval_make hxs]
  · rw [hsrc.run_fst, Match.kind_eval_make hxs]
    simp
  · rw [hsrc.run_fst, Match.kind_eval_make hxs]
    simp

omit hsrc hxs [BEq α]

/-- A range that ends with the sequence, and a search, over elements that are drawn on demand. -/
theorem windows_are_checked_and_known_drawn :
    let src : Source Nat := .drawn { feed := feedOf #[5, 7, 7] none false }
    (src.run (Window.make 1 2)).1 = .ok ⟨1, 2⟩ ∧
    (src.run (Window.make 1 2)).2.run (Window.toList ⟨1, 2⟩) =
      ([7, 7], (src.run (Window.make 1 2)).2) ∧
    (src.run (Match.make 2 2 true)).1.mapError Failure.kind = .error .invalidArgument ∧
    ∃ ms, src.Finds #[5, 7, 7] (fun fuel => (Expression.oneOrMore (.value 7)).findAll fuel 0)
      (.ok (.collect ms)) ms := by
  intro src
  have hsrc : src.Holds #[5, 7, 7] := holds_initial (by unfold Supply.Of; decide)
  have hmade : (src.run (Window.make 1 2)).1 = .ok ⟨1, 2⟩ := by rw [hsrc.run_fst]; rfl
  obtain ⟨-, hranges, hsearches⟩ := windows_are_checked_and_known hsrc (by decide)
  have hread := (hranges 1 2).2.2.2.1 _ hmade Unit (pure ())
  rw [run_pure] at hread
  obtain ⟨ms, -, hall, -⟩ := (hsearches (Expression.oneOrMore (.value 7)) (by decide)).2 0
  exact ⟨hmade, hread.toList, (hranges 2 2).2.1, ms, hall⟩

end Source

end SeqPattern
