import SeqPattern.Proofs.OrderedStops
import SeqPattern.Proofs.Trail

namespace SeqPattern

open Search

variable {α : Type} [BEq α] {xs : Array α}

namespace Expression

/-- The cursor that is left when matches have been drawn from the pattern at the position. They are
kept in reverse. -/
inductive Drawn (xs : Array α) (e : Expression α) (p : Nat) : List Match → Cursor α → Prop
  | opened {c : Cursor α} (h : Settles xs (fun fuel => Cursor.start fuel e p) c) : Drawn xs e p [] c
  | next {ms : List Match} {c d : Cursor α} {m : Match} (h : Drawn xs e p ms c)
    (hm : Settles xs (fun fuel => Cursor.next fuel c) (some m, d)) : Drawn xs e p (m :: ms) d

section Drawn

variable {e : Expression α} {p : Nat} {ms : List Match} {c : Cursor α}

theorem Drawn.passes (h : e.Drawn xs p ms c) : e.Passes xs p c := by
  induction h with
  | opened h => exact .opened h
  | next h hm ih =>
    obtain ⟨fuel, heval⟩ := hm
    exact ih.next (heval fuel (Nat.le_refl fuel))

theorem Drawn.yields {all : List Match} (h : e.Drawn xs p ms c) (hall : e.Enumerates xs p all) :
    ∃ rest, c.Yields xs rest ∧ all = ms.reverse ++ rest := by
  induction h with
  | opened h =>
    obtain ⟨c', hc', hyields⟩ := hall
    cases h.unique hc'
    exact ⟨all, hyields, rfl⟩
  | @next ms c d m h hm ih =>
    obtain ⟨rest, hrest, rfl⟩ := ih
    cases hrest with
    | stop first again => cases hm.unique first
    | give first rest =>
      cases hm.unique first
      exact ⟨_, rest, by simp⟩

end Drawn

def isStacked : Expression α → Bool
  | sequence (_ :: _) | repetition .. => true
  | _ => false

end Expression

namespace Stacking

variable {β : Type}

section Rungs

variable (k : Stacking α β) (xs : Array α) (i : Nat)

/-- Every open child has been gone on from the match that was drawn from it last. Those matches end
at `ends`, innermost first, and each child has been opened where the one below it has ended, the
first one at `i`. -/
inductive Ladder : List β → List Nat → Prop
  | nil : Ladder [] []
  | cons {below : List β} {ends : List Nat} {top : β} {e : Expression α} {ms : List Match}
    {m : Match} (h : Ladder below ends) (hopens : k.opens top below e)
    (hdrawn : e.Drawn xs (ends.headD i) (m :: ms) (k.cursor top)) (haccept : k.accepts top m) :
    Ladder (top :: below) (m.stop :: ends)

/-- Every open child but the innermost has been gone on from the match that was drawn from it
last. -/
inductive Climbs : List β → List Nat → Prop
  | nil : Climbs [] []
  | cons {below : List β} {ends : List Nat} {top : β} {e : Expression α} {ms : List Match}
    (h : k.Ladder xs i below ends) (hopens : k.opens top below e)
    (hdrawn : e.Drawn xs (ends.headD i) ms (k.cursor top)) : Climbs (top :: below) ends

end Rungs

variable {k : Stacking α β} {i : Nat} {stack below : List β} {top : β} {ends : List Nat}

theorem Ladder.length_eq (h : k.Ladder xs i stack ends) : ends.length = stack.length := by
  induction h with
  | nil => rfl
  | cons h hopens hdrawn haccept ih => exact congrArg (· + 1) ih

theorem Ladder.opens (h : k.Ladder xs i stack ends) {e : Expression α}
    (hopens : k.opens top stack e)
    (hs : Settles xs (fun fuel => Cursor.start fuel e (ends.headD i)) (k.cursor top)) :
    k.Climbs xs i (top :: stack) ends :=
  .cons h hopens (.opened hs)

theorem Ladder.climbs (h : k.Ladder xs i stack ends) : k.Climbs xs i stack ends.tail := by
  cases h with
  | nil => exact .nil
  | cons h hopens hdrawn haccept => exact .cons h hopens hdrawn

theorem Climbs.ladder (h : k.Climbs xs i (top :: below) ends) : k.Ladder xs i below ends := by
  cases h with
  | cons h hopens hdrawn => exact h

theorem Climbs.opened (h : k.Climbs xs i (top :: below) ends) : ∃ e, k.opens top below e := by
  cases h with
  | cons h hopens hdrawn => exact ⟨_, hopens⟩

theorem Climbs.draws (h : k.Climbs xs i (top :: below) ends) {m : Match} (top' : β)
    (hm : Settles xs (fun fuel => Cursor.next fuel (k.cursor top)) (some m, k.cursor top'))
    (hopens : ∀ e, k.opens top below e → k.opens top' below e) :
    k.Climbs xs i (top' :: below) ends ∧
      (k.accepts top' m → k.Ladder xs i (top' :: below) (m.stop :: ends)) := by
  cases h with
  | cons h htop hdrawn =>
    have htop' := hopens _ htop
    exact ⟨.cons h htop' (hdrawn.next hm), .cons h htop' (hdrawn.next hm)⟩

section Rounds

variable {r : Repeated α} {stack : List (Round (Cursor α))}

/-- The number of the innermost round is that of the rounds that are open. -/
theorem Climbs.last_eq_length (h : (rounds r).Climbs xs i stack ends) :
    Round.last stack = stack.length := by
  cases h with
  | nil => rfl
  | cons h hopens hdrawn => exact hopens.2.1

theorem Ladder.opens_round (h : (rounds r).Ladder xs i stack ends)
    (hroom : Round.last stack < r.bounds.max) {child : Cursor α}
    (hs : Settles xs (fun fuel => Cursor.start fuel r.child (ends.headD i)) child) :
    (rounds r).Climbs xs i (⟨Round.last stack + 1, child⟩ :: stack) ends := by
  have hopens : (rounds r).opens ⟨Round.last stack + 1, child⟩ stack r.child :=
    ⟨rfl, congrArg (· + 1) h.climbs.last_eq_length, hroom⟩
  exact h.opens hopens hs

theorem Ladder.deepened (h : (rounds r).Ladder xs r.index stack ends) {t : LazyCursor α (Cursor α)}
    (hd : Settles xs (fun fuel => LazyCursor.deepen (Cursor.children fuel) ⟨r, true, stack⟩
      (ends.headD r.index)) t) :
    ∃ stack' ends', t = ⟨r, true, stack'⟩ ∧ (rounds r).Climbs xs r.index stack' ends' := by
  by_cases hroom : Round.last stack < r.bounds.max
  · have hopen := hd
    simp only [LazyCursor.deepen, hroom, ↓reduceIte] at hopen
    obtain ⟨child, hs, -⟩ :=
      hopen.exists_of_bind (Cursor.monotone_start r.child (ends.headD r.index))
    exact ⟨_, _, hd.unique (Cursor.lazy_deepen_open hroom hs), h.opens_round hroom hs⟩
  · exact ⟨_, _, hd.unique (Cursor.lazy_deepen_full hroom _), h.climbs⟩

theorem Climbs.length_le (h : (rounds r).Climbs xs i stack ends) :
    stack.length ≤ r.bounds.max := by
  cases h with
  | nil => exact Nat.zero_le _
  | cons h hopens hdrawn => exact hopens.2.1.symm.trans_le hopens.2.2

end Rounds

section Parts

variable {es : List (Expression α)} {stack : List (OpenPart α (Cursor α))}

theorem Climbs.after_eq_drop {top : OpenPart α (Cursor α)} {below : List (OpenPart α (Cursor α))}
    (h : (parts es).Climbs xs i (top :: below) ends) :
    top.after = es.drop (below.length + 1) := by
  obtain ⟨e, hopens⟩ := h.opened
  rw [← List.tail_drop, hopens, List.tail_cons]

theorem Climbs.length_le_parts (h : (parts es).Climbs xs i stack ends) :
    stack.length ≤ es.length := by
  cases stack with
  | nil => exact Nat.zero_le _
  | cons top below =>
    obtain ⟨e, hopens⟩ := h.opened
    have hlt : below.length < es.length := by
      apply Nat.lt_of_not_le
      intro hle
      cases (List.drop_eq_nil_of_le hle).symm.trans hopens
    exact hlt

end Parts

end Stacking

namespace Cursor

open Stacking

/-- How the stack of a cursor that has been opened for a pattern at a position stands to the ends
that are kept. -/
inductive InStep (xs : Array α) : Expression α → Nat → Cursor α → Prop
  | ready {e i} (m) (h : i ≤ xs.size → e.isStacked = false) : InStep xs e i (ready m)
  | candidates (f i cs) : InStep xs (.foreign f) i (candidates cs)
  | sequence {es i stack ends} (h : (parts es).Climbs xs i stack ends) :
    InStep xs (.sequence es) i (sequence ⟨i, stack⟩)
  | alternation {es i current rest ends} (hrest : rest ⊆ es)
    (h : (option es).Climbs xs i current.toList ends) :
    InStep xs (.alternation es) i (alternation ⟨i, current, rest⟩)
  | lazyFresh {child bounds i} :
    InStep xs (.repetition child bounds .lazy) i (lazy ⟨⟨child, bounds, i⟩, false, []⟩)
  | lazy {child bounds i stack ends} (h : (rounds ⟨child, bounds, i⟩).Climbs xs i stack ends) :
    InStep xs (.repetition child bounds .lazy) i (lazy ⟨⟨child, bounds, i⟩, true, stack⟩)
  | greedyDeepen {child bounds i stack ends}
    (h : (rounds ⟨child, bounds, i⟩).Ladder xs i stack ends) :
    InStep xs (.repetition child bounds .greedy) i
      (greedy ⟨⟨child, bounds, i⟩, stack, ends, .deepen⟩)
  | greedyDraw {child bounds i top below ends}
    (h : (rounds ⟨child, bounds, i⟩).Climbs xs i (top :: below) ends) :
    InStep xs (.repetition child bounds .greedy) i
      (greedy ⟨⟨child, bounds, i⟩, top :: below, ends, .draw⟩)
  | greedyRetreat {child bounds i stack ends}
    (h : (rounds ⟨child, bounds, i⟩).Ladder xs i stack ends) :
    InStep xs (.repetition child bounds .greedy) i
      (greedy ⟨⟨child, bounds, i⟩, stack, ends, .retreat⟩)
  | greedyEnd {child bounds i phase} (h : phase = .finish ∨ phase = .over) :
    InStep xs (.repetition child bounds .greedy) i
      (greedy ⟨⟨child, bounds, i⟩, [], [], phase⟩)

section Turns

variable {es : List (Expression α)} {i : Nat}

theorem InStep.sequence_turn {s : SequenceCursor α (Cursor α)}
    {t : Turn (SequenceCursor α (Cursor α))} (h : InStep xs (.sequence es) i (.sequence s))
    (ht : Turns xs SequenceCursor.turn s t) :
    InStep xs (.sequence es) i (.sequence t.state) := by
  cases h with
  | @sequence _ _ stack ends h =>
    cases stack with
    | nil =>
      cases ht.unique (settles_pure (Turn.stop _))
      exact .sequence h
    | cons top below =>
      obtain ⟨c, after⟩ := top
      obtain ⟨⟨m, d⟩, hd, hrest⟩ := ht.exists_of_bind (monotone_next c)
      cases m with
      | none =>
        cases ht.unique (sequence_turn_resume hd i after below)
        exact .sequence h.ladder.climbs
      | some m =>
        have hdrawn := h.draws ⟨d, after⟩ hd fun _ hopens => hopens
        cases after with
        | nil =>
          cases ht.unique (sequence_turn_give hd i below)
          exact .sequence hdrawn.1
        | cons part after =>
          obtain ⟨child, hs, -⟩ := hrest.exists_of_bind (monotone_start part m.stop)
          cases ht.unique (sequence_turn_descend hd hs i after below)
          have hnext : (parts es).opens ⟨child, after⟩ (⟨d, part :: after⟩ :: below) part :=
            h.after_eq_drop.symm
          exact .sequence ((hdrawn.2 trivial).opens hnext hs)

theorem InStep.alternation_turn {s : AlternationCursor α (Cursor α)}
    {t : Turn (AlternationCursor α (Cursor α))}
    (h : InStep xs (.alternation es) i (.alternation s))
    (ht : Turns xs AlternationCursor.turn s t) :
    InStep xs (.alternation es) i (.alternation t.state) := by
  cases h with
  | @alternation _ _ current rest ends hrest h =>
    cases current with
    | some c =>
      obtain ⟨⟨m, d⟩, hd, -⟩ := ht.exists_of_bind (monotone_next c)
      cases m with
      | none =>
        cases ht.unique (hd.bind (settles_pure (Turn.again _)))
        exact .alternation hrest .nil
      | some m =>
        cases ht.unique (hd.bind (settles_pure (Turn.give _ _)))
        exact .alternation hrest (h.draws d hd fun _ hopens => hopens).1
    | none =>
      cases rest with
      | nil =>
        cases ht.unique (settles_pure (Turn.stop _))
        exact .alternation hrest h
      | cons e rest =>
        obtain ⟨he, hrest⟩ := List.cons_subset.mp hrest
        obtain ⟨child, hs, -⟩ := ht.exists_of_bind (monotone_start e i)
        cases ht.unique (hs.bind (settles_pure (Turn.again _)))
        have hopens : (option es).opens child [] e := ⟨rfl, he⟩
        exact .alternation hrest (Ladder.nil.opens hopens hs)

variable {child : Expression α} {bounds : Bounds}

theorem InStep.lazy_turn {s : LazyCursor α (Cursor α)} {t : Turn (LazyCursor α (Cursor α))}
    (h : InStep xs (.repetition child bounds .lazy) i (.lazy s))
    (ht : Turns xs LazyCursor.turn s t) :
    InStep xs (.repetition child bounds .lazy) i (.lazy t.state) := by
  cases h with
  | lazyFresh =>
    obtain ⟨u, hu, -⟩ := ht.exists_of_bind fun _ _ hle =>
      LazyCursor.deepen_mono (children_below hle) ⟨⟨child, bounds, i⟩, true, []⟩ i
    have hnil : (rounds ⟨child, bounds, i⟩).Ladder xs i [] [] := .nil
    obtain ⟨stack, ends, rfl, h⟩ := hnil.deepened hu
    rw [ht.unique (lazy_turn_begin hu rfl), Turn.state_ite]
    exact .lazy h
  | @lazy _ _ _ stack ends h =>
    cases stack with
    | nil =>
      cases ht.unique (settles_pure (Turn.stop _))
      exact .lazy h
    | cons top below =>
      obtain ⟨number, c⟩ := top
      obtain ⟨⟨m, d⟩, hd, hrest⟩ := ht.exists_of_bind (monotone_next c)
      cases m with
      | none =>
        cases ht.unique (lazy_turn_resume hd number below)
        exact .lazy h.ladder.climbs
      | some m =>
        obtain ⟨hskip, haccept⟩ := h.draws ⟨number, d⟩ hd fun _ hopens => hopens
        cases hm : Repeated.admits ⟨child, bounds, i⟩ m number with
        | false =>
          cases ht.unique (lazy_turn_skip hd hm below)
          exact .lazy hskip
        | true =>
          simp only [hm] at hrest
          obtain ⟨u, hu, -⟩ := hrest.exists_of_bind fun _ _ hle =>
            LazyCursor.deepen_mono (children_below hle)
              ⟨⟨child, bounds, i⟩, true, ⟨number, d⟩ :: below⟩ m.stop
          obtain ⟨stack, ends, rfl, h⟩ := (haccept hm).deepened hu
          rw [ht.unique (lazy_turn_accept hd hm hu rfl), Turn.state_ite]
          exact .lazy h

theorem InStep.greedy_turn {s : GreedyCursor α (Cursor α)} {t : Turn (GreedyCursor α (Cursor α))}
    (h : InStep xs (.repetition child bounds .greedy) i (.greedy s))
    (ht : Turns xs GreedyCursor.turn s t) :
    InStep xs (.repetition child bounds .greedy) i (.greedy t.state) := by
  cases h with
  | @greedyDeepen _ _ _ stack ends h =>
    by_cases hroom : Round.last stack < bounds.max
    · have hopen := ht
      simp only [Turns, GreedyCursor.turn, hroom, ↓reduceIte] at hopen
      obtain ⟨c, hs, -⟩ := hopen.exists_of_bind (monotone_start child (ends.headD i))
      cases ht.unique (greedy_turn_open (r := ⟨child, bounds, i⟩) hroom hs)
      exact .greedyDraw (h.opens_round hroom hs)
    · cases ht.unique (greedy_turn_full (r := ⟨child, bounds, i⟩) hroom ends)
      exact .greedyRetreat h
  | @greedyDraw _ _ _ top below ends h =>
    obtain ⟨number, c⟩ := top
    obtain ⟨⟨m, d⟩, hd, -⟩ := ht.exists_of_bind (monotone_next c)
    cases m with
    | none =>
      cases ht.unique (greedy_turn_resume hd number below ends)
      have hladder := h.ladder
      cases ends with
      | nil =>
        cases hladder
        exact .greedyEnd (Or.inl rfl)
      | cons stop ends => exact .greedyRetreat hladder
    | some m =>
      obtain ⟨hskip, haccept⟩ := h.draws ⟨number, d⟩ hd fun _ hopens => hopens
      cases hm : Repeated.admits ⟨child, bounds, i⟩ m number with
      | false =>
        cases ht.unique (greedy_turn_skip hd hm below ends)
        exact .greedyDraw hskip
      | true =>
        cases ht.unique (greedy_turn_accept hd hm below ends)
        exact .greedyDeepen (haccept hm)
  | @greedyRetreat _ _ _ stack ends h =>
    cases ends with
    | nil =>
      cases h
      cases ht.unique (settles_pure (Turn.again _))
      exact .greedyEnd (Or.inl rfl)
    | cons stop ends =>
      rw [ht.unique (greedy_turn_retreat stack stop ends), Turn.state_ite]
      cases stack with
      | nil => cases h
      | cons top below => exact .greedyDraw h.climbs
  | greedyEnd hphase =>
    obtain rfl | rfl := hphase
    · rw [ht.unique (greedy_turn_finish [] []), Turn.state_ite]
      exact .greedyEnd (Or.inr rfl)
    · cases ht.unique (settles_pure (Turn.stop _))
      exact .greedyEnd (Or.inr rfl)

end Turns

section Opening

variable {e : Expression α} {i : Nat} {c : Cursor α}

omit [BEq α] in
theorem exists_ready_of_eval {β : Type} {s : Search α β} {f : β → Option Match}
    (h : (s >>= fun b => pure (ready (f b))).eval xs = some c) : ∃ m, c = .ready m := by
  rw [eval_bind, Option.bind_eq_some_iff] at h
  obtain ⟨b, _, hc⟩ := h
  cases hc
  exact ⟨_, rfl⟩

theorem InStep.opened_sequence {es : List (Expression α)}
    (h : Settles xs (fun fuel => start fuel (.sequence es) i) c) :
    InStep xs (.sequence es) i c := by
  by_cases hi : i ≤ xs.size
  · cases es with
    | nil =>
      cases h.unique ((Expression.settles_opened_sequence_nil hi).succ fun _ => rfl)
      exact .ready _ fun _ => rfl
    | cons e es =>
      have hopened := h.of_succ fun fuel => start_succ fuel (.sequence (e :: es)) i
      have hrest := (settles_inRange xs i).of_bind hopened
      simp only [hi, decide_true, Bool.not_true, Bool.false_eq_true, ↓reduceIte] at hrest
      obtain ⟨child, hs, -⟩ := hrest.exists_of_bind (monotone_start e i)
      cases h.unique (Expression.settles_start_sequence hi hs es)
      have hopens : (parts (e :: es)).opens ⟨child, es⟩ [] e := rfl
      exact .sequence (Ladder.nil.opens hopens hs)
  · cases h.unique ((Expression.settles_opened_sequence_past hi es).succ fun _ => rfl)
    exact .ready _ fun hle => absurd hle hi

theorem InStep.opened_repetition {e : Expression α} {bounds : Bounds} {kind : RepetitionKind}
    (h : Settles xs (fun fuel => start fuel (.repetition e bounds kind) i) c) :
    InStep xs (.repetition e bounds kind) i c := by
  by_cases hi : i ≤ xs.size
  · cases h.unique (Expression.settles_start_repetition hi e bounds kind)
    cases kind with
    | lazy => exact .lazyFresh
    | greedy => exact .greedyDeepen .nil
  · cases h.unique ((Expression.settles_opened_repetition_past hi e bounds kind).succ fun _ => rfl)
    exact .ready _ fun hle => absurd hle hi

theorem InStep.opened (h : Settles xs (fun fuel => start fuel e i) c) : InStep xs e i c := by
  obtain ⟨enough, heval⟩ := id h
  have heval : (Cursor.opened (children enough) e i).eval xs = some c :=
    heval (enough + 1) (by omega)
  cases e with
  | element e | anchor a | lookAhead negative e | lookBehind negative e =>
    obtain ⟨m, rfl⟩ := exists_ready_of_eval heval
    exact .ready m fun _ => rfl
  | foreign f =>
    rw [Cursor.opened] at heval
    split at heval
    · rw [eval_bind, eval_ask] at heval
      cases heval
      exact .candidates _ _ _
    · obtain ⟨m, rfl⟩ := exists_ready_of_eval heval
      exact .ready m fun _ => rfl
  | sequence es => exact .opened_sequence h
  | alternation es =>
    cases es with
    | nil =>
      obtain ⟨m, rfl⟩ := exists_ready_of_eval heval
      exact .ready m fun _ => rfl
    | cons e es =>
      cases heval
      exact .alternation (List.Subset.refl _) .nil
  | repetition e bounds kind => exact .opened_repetition h

/-- One turn keeps the stack in step with the ends, whatever the children give. -/
theorem InStep.proceeds {d : Cursor α} (h : InStep xs e i c) (hturn : c.Proceeds xs d) :
    InStep xs e i d := by
  cases hturn with
  | ready m =>
    cases h with
    | ready _ hready => exact .ready none hready
  | candidates cs =>
    cases h
    exact .candidates _ _ _
  | sequence ht =>
    cases id h with
    | sequence => exact h.sequence_turn ht
  | alternation ht =>
    cases id h with
    | alternation => exact h.alternation_turn ht
  | lazy ht =>
    cases id h with
    | lazyFresh | lazy => exact h.lazy_turn ht
  | greedy ht =>
    cases id h with
    | greedyDeepen | greedyDraw | greedyRetreat | greedyEnd => exact h.greedy_turn ht

theorem InStep.of_passes (h : e.Passes xs i c) : InStep xs e i c := by
  induction h with
  | opened h => exact .opened h
  | turned h hturn ih => exact ih.proceeds hturn

end Opening

end Cursor

end SeqPattern
