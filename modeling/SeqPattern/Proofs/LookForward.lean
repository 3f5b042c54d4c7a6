import SeqPattern.Meaning.Reach
import SeqPattern.Proofs.DrawnWithin
import SeqPattern.Proofs.Searching

namespace SeqPattern

variable {α : Type} {limit : Nat}

/-- Whether a position is the one that matches have to start at, if there is one, and has the room
after it before the limit. -/
structure Begins (far : Nat) (origin : Option Nat) (room p : Nat) : Prop where
  eq_of_mem : ∀ q ∈ origin, p = q
  add_le : p + room ≤ far

/-- Whether the match starts where it has to, if it has to, and leaves the room after it before the
limit. -/
structure Match.EndsWithin (far : Nat) (origin : Option Nat) (room : Nat) (m : Match) : Prop where
  index_eq_of_mem : ∀ q ∈ origin, m.index = q
  stop_add_le : m.stop + room ≤ far

section Room

variable {far room : Nat} {origin : Option Nat}

theorem Begins.endsWithin_span {i j : Nat} (h : Begins far origin room i) (hj : j + room ≤ far) :
    (Match.span i j).EndsWithin far origin room where
  index_eq_of_mem := h.eq_of_mem
  stop_add_le := by
    have hi := h.add_le
    simp only [Match.span, Match.stop]
    omega

theorem Begins.of_room {p more : Nat} (h : Begins far origin (more + room) p) :
    Begins far origin room p :=
  ⟨h.eq_of_mem, by have hp := h.add_le; omega⟩

end Room

def Repeated.reachAfter (r : Repeated α) (number : Nat) : Nat :=
  (r.bounds.max - number) * r.child.reach

theorem Repeated.reachAfter_of_lt {r : Repeated α} {number : Nat} (h : number < r.bounds.max) :
    r.reachAfter number = r.child.reach + r.reachAfter (number + 1) := by
  have hsub : r.bounds.max - number = r.bounds.max - (number + 1) + 1 := by omega
  rw [reachAfter, reachAfter, hsub, Nat.succ_mul, Nat.add_comm]

theorem Repeated.reachAfter_le (r : Repeated α) (number : Nat) :
    r.reachAfter number ≤ r.reachAfter 0 :=
  Nat.mul_le_mul_right _ (Nat.sub_le_sub_left (Nat.zero_le number) _)

/-- Whether the pattern is built without assertions and foreign parts, so that it looks at nothing
but what it matches and one element more. -/
structure Expression.LooksForward (e : Expression α) : Prop where
  isPlain : e.isPlain = true
  isAssertionFree : e.isAssertionFree = true

theorem Expression.LooksForward.inside {e f : Expression α} (he : e.LooksForward)
    (hf : f ∈ e.inside) : f.LooksForward :=
  ⟨everyNode_of_mem_inside he.isPlain hf, everyNode_of_mem_inside he.isAssertionFree hf⟩

/-- Whether all that can be drawn from the cursor ends within the limit and leaves the room after it
before the limit, and starts where it has to. Of what is open, each child leaves the room that is
needed after it. -/
inductive Cursor.EndsWithin (far : Nat) : Option Nat → Nat → Cursor α → Prop
  | ready {origin room m} (h : ∀ m' ∈ m, Match.EndsWithin far origin room m') :
    EndsWithin far origin room (ready m)
  | sequence {origin room index stack} (hindex : Begins far origin room index)
    (hafter : ∀ part ∈ stack, ∀ e ∈ OpenPart.after part, e.LooksForward)
    (hopen : ∀ part ∈ stack,
      EndsWithin far none (Expression.totalReach part.after + room) part.cursor) :
    EndsWithin far origin room (sequence ⟨index, stack⟩)
  | alternation {origin room index current rest}
    (hrest : ∀ e ∈ rest, e.LooksForward ∧ Begins far origin (e.reach + room) index)
    (hopen : ∀ c ∈ current, EndsWithin far origin room c) :
    EndsWithin far origin room (alternation ⟨index, current, rest⟩)
  | lazy {origin room r started stack} (hchild : (Repeated.child r).LooksForward)
    (hindex : Begins far origin (r.reachAfter 0 + room) r.index)
    (hopen : ∀ round ∈ stack,
      EndsWithin far none (r.reachAfter round.number + room) round.cursor) :
    EndsWithin far origin room (lazy ⟨r, started, stack⟩)
  | greedy {origin room r stack ends phase} (hchild : (Repeated.child r).LooksForward)
    (hindex : Begins far origin (r.reachAfter 0 + room) r.index)
    (hopen : ∀ round ∈ stack,
      EndsWithin far none (r.reachAfter round.number + room) round.cursor)
    (hends : ∀ q ∈ ends, q + room ≤ far)
    (hdeepen : phase = .deepen →
      ends.headD r.index + (r.reachAfter (Round.last stack) + room) ≤ far) :
    EndsWithin far origin room (greedy ⟨r, stack, ends, phase⟩)

structure Cursor.DrawEndsWithin (far : Nat) (origin : Option Nat) (room : Nat)
    (r : Option Match × Cursor α) : Prop where
  given : ∀ m ∈ r.1, m.EndsWithin far origin room
  after : r.2.EndsWithin far origin room

structure Children.StaysWithin (far : Nat) (c : Children α (Cursor α)) : Prop where
  start : ∀ {e : Expression α} {p room : Nat} {origin : Option Nat}, e.LooksForward →
    Begins far origin (e.reach + room) p →
    Search.DrawsWithin (far + 1) (Cursor.EndsWithin far origin room) (c.start e p)
  next : ∀ {cursor : Cursor α} {room : Nat} {origin : Option Nat},
    cursor.EndsWithin far origin room →
    Search.DrawsWithin (far + 1) (Cursor.DrawEndsWithin far origin room) (c.next cursor)

inductive Turn.EndsWithin {σ : Type} (far : Nat) (origin : Option Nat) (room : Nat)
    (wrap : σ → Cursor α) : Turn σ → Prop
  | give {m s} (hm : m.EndsWithin far origin room) (h : (wrap s).EndsWithin far origin room) :
    EndsWithin far origin room wrap (.give m s)
  | again {s} (h : (wrap s).EndsWithin far origin room) : EndsWithin far origin room wrap (.again s)
  | stop {s} (h : (wrap s).EndsWithin far origin room) : EndsWithin far origin room wrap (.stop s)

section Turns

open Search

variable {far room : Nat} {origin : Option Nat} {c : Children α (Cursor α)}

theorem sequence_turn_drawsWithin (hc : c.StaysWithin far) {s : SequenceCursor α (Cursor α)}
    (h : (Cursor.sequence s).EndsWithin far origin room) :
    DrawsWithin (far + 1) (Turn.EndsWithin far origin room .sequence) (s.turn c) := by
  cases h with
  | @sequence _ _ index stack hindex hafter hopen =>
    cases stack with
    | nil => exact drawsWithin_pure (.stop (.sequence hindex hafter hopen))
    | cons top below =>
      obtain ⟨child, after⟩ := top
      obtain ⟨hrest, hbelow_rest⟩ := List.forall_mem_cons.mp hafter
      obtain ⟨htop, hbelow⟩ := List.forall_mem_cons.mp hopen
      refine (hc.next htop).bind ?_
      rintro ⟨drawn, cursor⟩ ⟨hdrawn, hcursor⟩
      cases drawn with
      | none => exact drawsWithin_pure (.again (.sequence hindex hbelow_rest hbelow))
      | some m =>
        have hafter : ∀ part ∈ ⟨cursor, after⟩ :: below, ∀ e ∈ OpenPart.after part,
            e.LooksForward := List.forall_mem_cons.mpr ⟨hrest, hbelow_rest⟩
        have hopen : ∀ part ∈ ⟨cursor, after⟩ :: below, Cursor.EndsWithin far none
            (Expression.totalReach (OpenPart.after part) + room) part.cursor :=
          List.forall_mem_cons.mpr ⟨hcursor, hbelow⟩
        have hstop := (hdrawn m rfl).stop_add_le
        cases after with
        | nil =>
          have hm := hindex.endsWithin_span (by simpa [Expression.totalReach] using hstop)
          exact drawsWithin_pure (.give hm (.sequence hindex hafter hopen))
        | cons part after =>
          obtain ⟨hpart, hrest⟩ := List.forall_mem_cons.mp hrest
          have hbegins :
              Begins far none (part.reach + (Expression.totalReach after + room)) m.stop :=
            ⟨by simp, by rw [Expression.totalReach] at hstop; omega⟩
          refine (hc.start hpart hbegins).bind fun child hchild => ?_
          refine drawsWithin_pure (.again (.sequence hindex ?_ ?_))
          · exact List.forall_mem_cons.mpr ⟨hrest, hafter⟩
          · exact List.forall_mem_cons.mpr ⟨hchild, hopen⟩

theorem alternation_turn_drawsWithin (hc : c.StaysWithin far) {s : AlternationCursor α (Cursor α)}
    (h : (Cursor.alternation s).EndsWithin far origin room) :
    DrawsWithin (far + 1) (Turn.EndsWithin far origin room .alternation) (s.turn c) := by
  cases h with
  | @alternation _ _ index current rest hrest hopen =>
    cases current with
    | some child =>
      refine (hc.next (hopen child rfl)).bind ?_
      rintro ⟨drawn, cursor⟩ ⟨hdrawn, hcursor⟩
      cases drawn with
      | none => exact drawsWithin_pure (.again (.alternation hrest (by simp)))
      | some m =>
        refine drawsWithin_pure (.give (hdrawn m rfl) (.alternation hrest ?_))
        simpa using hcursor
    | none =>
      cases rest with
      | nil => exact drawsWithin_pure (.stop (.alternation hrest hopen))
      | cons e rest =>
        obtain ⟨⟨he, hbegins⟩, hrest⟩ := List.forall_mem_cons.mp hrest
        refine (hc.start he hbegins).bind fun child hchild => ?_
        exact drawsWithin_pure (.again (.alternation hrest (by simpa using hchild)))

theorem Begins.of_round {r : Repeated α} {number p : Nat} (hroom : number < r.bounds.max)
    (hp : p + (r.reachAfter number + room) ≤ far) :
    Begins far none (r.child.reach + (r.reachAfter (number + 1) + room)) p := by
  rw [Repeated.reachAfter_of_lt hroom] at hp
  exact ⟨by simp, by omega⟩

theorem give_if_drawsWithin {σ : Type} {wrap : σ → Cursor α} {s : σ} {m : Match}
    (hm : m.EndsWithin far origin room) (h : (wrap s).EndsWithin far origin room) (p : Prop)
    [Decidable p] : DrawsWithin limit (Turn.EndsWithin far origin room wrap)
      (if p then pure (.give m s) else pure (.again s) : Search α (Turn σ)) := by
  split
  · exact drawsWithin_pure (.give hm h)
  · exact drawsWithin_pure (.again h)

theorem lazy_deepen_drawsWithin (hc : c.StaysWithin far) {r : Repeated α}
    (hchild : r.child.LooksForward) (hindex : Begins far origin (r.reachAfter 0 + room) r.index)
    {stack : List (Round (Cursor α))} (hopen : ∀ round ∈ stack,
      Cursor.EndsWithin far none (r.reachAfter round.number + room) round.cursor)
    {p : Nat} (hp : p + (r.reachAfter (Round.last stack) + room) ≤ far) (started : Bool) :
    DrawsWithin (far + 1)
      (fun t => t.toRepeated = r ∧ (Cursor.lazy t).EndsWithin far origin room)
      (LazyCursor.deepen c ⟨r, started, stack⟩ p) := by
  rw [LazyCursor.deepen]
  split
  · next hroom =>
    refine (hc.start hchild (.of_round hroom hp)).bind fun cursor hcursor => ?_
    exact drawsWithin_pure ⟨rfl, .lazy hchild hindex (List.forall_mem_cons.mpr ⟨hcursor, hopen⟩)⟩
  · exact drawsWithin_pure ⟨rfl, .lazy hchild hindex hopen⟩

theorem lazy_turn_drawsWithin (hc : c.StaysWithin far) {s : LazyCursor α (Cursor α)}
    (h : (Cursor.lazy s).EndsWithin far origin room) :
    DrawsWithin (far + 1) (Turn.EndsWithin far origin room .lazy) (s.turn c) := by
  cases h with
  | @lazy _ _ r started stack hchild hindex hopen =>
    have hspan {p : Nat} (hp : p + room ≤ far) : (r.span p).EndsWithin far origin room :=
      hindex.of_room.endsWithin_span hp
    cases started with
    | false =>
      have hp : r.index + (r.reachAfter (Round.last stack) + room) ≤ far := by
        have hle := r.reachAfter_le (Round.last stack)
        have hadd := hindex.add_le
        omega
      refine (lazy_deepen_drawsWithin hc hchild hindex hopen hp true).bind fun t ⟨hr, ht⟩ => ?_
      rw [hr]
      exact give_if_drawsWithin (hspan hindex.of_room.add_le) ht _
    | true =>
      cases stack with
      | nil => exact drawsWithin_pure (.stop (.lazy hchild hindex hopen))
      | cons top below =>
        obtain ⟨htop, hbelow⟩ := List.forall_mem_cons.mp hopen
        refine (hc.next htop).bind ?_
        rintro ⟨drawn, cursor⟩ ⟨hdrawn, hcursor⟩
        cases drawn with
        | none => exact drawsWithin_pure (.again (.lazy hchild hindex hbelow))
        | some m =>
          have hopen : ∀ round ∈ { top with cursor } :: below,
              Cursor.EndsWithin far none (r.reachAfter round.number + room) round.cursor :=
            List.forall_mem_cons.mpr ⟨hcursor, hbelow⟩
          have hstop := (hdrawn m rfl).stop_add_le
          simp only
          split
          · exact drawsWithin_pure (.again (.lazy hchild hindex hopen))
          · refine (lazy_deepen_drawsWithin hc hchild hindex hopen hstop true).bind
              fun t ⟨hr, ht⟩ => ?_
            rw [hr]
            exact give_if_drawsWithin (hspan (by omega)) ht _

theorem greedy_turn_drawsWithin (hc : c.StaysWithin far) {s : GreedyCursor α (Cursor α)}
    (h : (Cursor.greedy s).EndsWithin far origin room) :
    DrawsWithin (far + 1) (Turn.EndsWithin far origin room .greedy) (s.turn c) := by
  cases h with
  | @greedy _ _ r stack ends phase hchild hindex hopen hends hdeepen =>
    have hspan {p : Nat} (hp : p + room ≤ far) : (r.span p).EndsWithin far origin room :=
      hindex.of_room.endsWithin_span hp
    -- the last end has to leave the room of all further rounds only when one is to be opened
    have hstays {phase : GreedyPhase} (hphase : phase ≠ .deepen) :
        (Cursor.greedy ⟨r, stack, ends, phase⟩).EndsWithin far origin room :=
      .greedy hchild hindex hopen hends fun h => absurd h hphase
    cases phase with
    | deepen =>
      simp only [GreedyCursor.turn]
      split
      · next hroom =>
        refine (hc.start hchild (.of_round hroom (hdeepen rfl))).bind fun cursor hcursor => ?_
        refine drawsWithin_pure (.again (.greedy hchild hindex ?_ hends (by simp)))
        exact List.forall_mem_cons.mpr ⟨hcursor, hopen⟩
      · exact drawsWithin_pure (.again (hstays (by simp)))
    | draw =>
      cases stack with
      | nil => exact drawsWithin_pure (.again (hstays (by simp)))
      | cons top below =>
        obtain ⟨htop, hbelow⟩ := List.forall_mem_cons.mp hopen
        refine (hc.next htop).bind ?_
        rintro ⟨drawn, cursor⟩ ⟨hdrawn, hcursor⟩
        cases drawn with
        | none =>
          refine drawsWithin_pure (.again (.greedy hchild hindex hbelow hends ?_))
          split <;> simp
        | some m =>
          have hopen : ∀ round ∈ { top with cursor } :: below,
              Cursor.EndsWithin far none (r.reachAfter round.number + room) round.cursor :=
            List.forall_mem_cons.mpr ⟨hcursor, hbelow⟩
          have hstop := (hdrawn m rfl).stop_add_le
          simp only
          split
          · refine drawsWithin_pure (.again (.greedy hchild hindex hopen ?_ fun _ => hstop))
            exact List.forall_mem_cons.mpr ⟨by omega, hends⟩
          · exact drawsWithin_pure (.again (.greedy hchild hindex hopen hends (by simp)))
    | retreat =>
      cases ends with
      | nil => exact drawsWithin_pure (.again (hstays (by simp)))
      | cons stop ends =>
        obtain ⟨hstop, hends⟩ := List.forall_mem_cons.mp hends
        exact give_if_drawsWithin (hspan hstop) (.greedy hchild hindex hopen hends (by simp)) _
    | finish => exact give_if_drawsWithin (hspan hindex.of_room.add_le) (hstays (by simp)) _
    | «over» => exact drawsWithin_pure (.stop (hstays (by simp)))

end Turns

section Openings

open Search

variable {far room : Nat} {origin : Option Nat} {c : Children α (Cursor α)} {e : Expression α}
  {i : Nat}

theorem Begins.endsWithin_hit {n : Nat} (h : Begins far origin (n + room) i) {r : Outcome}
    (hr : r.length ≤ n) : Match.EndsWithin far origin room ⟨i, r.length, true⟩ where
  index_eq_of_mem := h.eq_of_mem
  stop_add_le := by
    have hfar := h.add_le
    simp only [Match.stop]
    omega

theorem anchor_drawsWithin {a : Anchor} (hi : i ≤ far) :
    (a.matchAt i : Query α Outcome).DrawsWithin (far + 1) fun r => r.length ≤ 0 := by
  cases a with
  | start => exact Query.drawsWithin_pure (Nat.le_refl 0)
  | stop =>
    refine (Query.drawsWithin_of_ensure (Query.drive_atEnd_snd i) (by omega)).bind fun b _ => ?_
    exact Query.drawsWithin_pure (Nat.le_refl 0)

theorem reach_le_greatestReach {es : List (Expression α)} (he : e ∈ es) :
    e.reach ≤ Expression.greatestReach es := by
  induction es with
  | nil => cases he
  | cons d es ih =>
    rw [Expression.greatestReach]
    rcases List.mem_cons.mp he with rfl | he
    · exact Nat.le_max_left _ _
    · exact Nat.le_trans (ih he) (Nat.le_max_right _ _)

theorem afterTurn_drawsWithin (hc : c.StaysWithin far) {σ : Type} {wrap : σ → Cursor α}
    {t : Turn σ} (ht : t.EndsWithin far origin room wrap) :
    DrawsWithin (far + 1) (Cursor.DrawEndsWithin far origin room) (Cursor.afterTurn c wrap t) := by
  cases ht with
  | give hm h => exact drawsWithin_pure ⟨by simpa using hm, h⟩
  | again h => exact hc.next h
  | stop h => exact drawsWithin_pure ⟨by simp, h⟩

theorem drawn_drawsWithin (hc : c.StaysWithin far) {cursor : Cursor α}
    (h : cursor.EndsWithin far origin room) :
    DrawsWithin (far + 1) (Cursor.DrawEndsWithin far origin room) (Cursor.drawn c cursor) := by
  cases cursor with
  | ready m =>
    cases h with
    | ready hm => exact drawsWithin_pure ⟨hm, .ready (by simp)⟩
  | candidates cs => cases h
  | sequence s => exact (sequence_turn_drawsWithin hc h).bind fun _ => afterTurn_drawsWithin hc
  | alternation s =>
    exact (alternation_turn_drawsWithin hc h).bind fun _ => afterTurn_drawsWithin hc
  | lazy s => exact (lazy_turn_drawsWithin hc h).bind fun _ => afterTurn_drawsWithin hc
  | greedy s => exact (greedy_turn_drawsWithin hc h).bind fun _ => afterTurn_drawsWithin hc

variable [BEq α]

theorem element_drawsWithin {d : ElementClass α} (hd : d.isProbing = false)
    (hi : Begins far origin (1 + room) i) :
    (d.matchAt i >>= Match.ofOutcomeChecked i).DrawsWithin (far + 1)
      fun m => ∀ m' ∈ m, m'.EndsWithin far origin room := by
  have hfar := hi.add_le
  refine (Query.drawsWithin_matchAt hd (by omega)).bind fun r hr => ?_
  refine (Query.drawsWithin_ofOutcomeChecked (by omega)).imp fun m hm m' hm' => ?_
  rw [hm m' hm']
  exact hi.endsWithin_hit hr

theorem opened_drawsWithin (hc : c.StaysWithin far) (he : e.LooksForward)
    (hi : Begins far origin (e.reach + room) i) :
    DrawsWithin (far + 1) (Cursor.EndsWithin far origin room) (Cursor.opened c e i) := by
  have hfar := hi.add_le
  have hrange : DrawsWithin (far + 1) (fun _ => True) (ask (Query.inRange i) : Search α Bool) :=
    drawsWithin_ask (Query.drawsWithin_inRange (by omega))
  have hempty : ∀ m ∈ some (Match.span i i), m.EndsWithin far origin room := by
    have hspan := hi.of_room.endsWithin_span hi.of_room.add_le
    simpa using hspan
  cases e with
  | element d =>
    rw [Expression.reach] at hi
    have hd := Expression.isPlain_element.mp he.isPlain
    exact (drawsWithin_ask (element_drawsWithin hd hi)).bind fun _ hm =>
      drawsWithin_pure (.ready hm)
  | sequence es =>
    refine hrange.bind fun inside _ => ?_
    cases inside with
    | false => exact drawsWithin_pure (.ready (by simp))
    | true =>
      cases es with
      | nil => exact drawsWithin_pure (.ready hempty)
      | cons e es =>
        have hparts : ∀ d ∈ e :: es, d.LooksForward := fun d hd => he.inside hd
        rw [List.forall_mem_cons] at hparts
        -- only the sequence as a whole has to start at its origin, its parts follow one another
        have hfirst : Begins far none (e.reach + (Expression.totalReach es + room)) i :=
          ⟨by simp, by rw [Expression.reach, Expression.totalReach] at hfar; omega⟩
        refine (hc.start hparts.1 hfirst).bind fun child hchild => ?_
        refine drawsWithin_pure (.sequence hi.of_room ?_ ?_)
        · simpa using hparts.2
        · simpa using hchild
  | alternation es =>
    cases es with
    | nil =>
      refine hrange.bind fun inside _ => ?_
      cases inside with
      | false => exact drawsWithin_pure (.ready (by simp))
      | true => exact drawsWithin_pure (.ready hempty)
    | cons e es =>
      refine drawsWithin_pure
        (.alternation (fun d hd => ⟨he.inside hd, hi.eq_of_mem, ?_⟩) (by simp))
      have hle := reach_le_greatestReach hd
      rw [Expression.reach] at hfar
      omega
  | repetition child bounds kind =>
    have hchild : child.LooksForward := he.inside (List.mem_singleton_self child)
    have hindex : Begins far origin
        (Repeated.reachAfter ⟨child, bounds, i⟩ 0 + room) i := by
      simpa [Expression.reach, Repeated.reachAfter] using hi
    refine hrange.bind fun inside _ => ?_
    cases inside with
    | false => exact drawsWithin_pure (.ready (by simp))
    | true =>
      cases kind with
      | lazy => exact drawsWithin_pure (.lazy hchild hindex (by simp))
      | greedy =>
        refine drawsWithin_pure (.greedy hchild hindex (by simp) (by simp) fun _ => ?_)
        exact hindex.add_le
  | anchor a =>
    refine (drawsWithin_ask (anchor_drawsWithin (by omega))).bind fun r hr => ?_
    refine drawsWithin_pure (.ready fun m hm => ?_)
    obtain ⟨-, rfl⟩ : r.success = true ∧ ⟨i, r.length, true⟩ = m := by
      simpa [Match.ofOutcome] using hm
    rw [Expression.reach] at hi
    exact hi.endsWithin_hit hr
  | lookAhead negative e => cases he.isAssertionFree
  | lookBehind negative e => cases he.isAssertionFree
  | foreign d => cases he.isPlain

theorem Cursor.children_staysWithin (far fuel : Nat) :
    (Cursor.children fuel : Children α (Cursor α)).StaysWithin far := by
  induction fuel with
  | zero => exact ⟨fun _ _ => drawsWithin_failure, fun _ => drawsWithin_failure⟩
  | succ fuel ih => exact ⟨opened_drawsWithin ih, drawn_drawsWithin ih⟩

theorem Cursor.takeAfter_drawsWithin (fuel k : Nat) (before : List Match) {cursor : Cursor α}
    (h : cursor.EndsWithin far origin room) :
    DrawsWithin (far + 1) (fun _ => True) (cursor.takeAfter fuel k before) := by
  induction k generalizing before cursor with
  | zero => exact drawsWithin_pure trivial
  | succ k ih =>
    refine ((children_staysWithin far fuel).next h).bind ?_
    rintro ⟨drawn, cursor⟩ ⟨_, hcursor⟩
    cases drawn with
    | none => exact drawsWithin_pure trivial
    | some m => exact ih (m :: before) hcursor

end Openings

namespace Expression

open Search

variable [BEq α] {e : Expression α}

theorem LooksForward.first?_drawsWithin (he : e.LooksForward) (fuel p : Nat) :
    DrawsWithin (p + e.reach + 1) (fun m => ∀ m' ∈ m, m'.index = p) (e.first? fuel p) := by
  have hc : (Cursor.children fuel : Children α (Cursor α)).StaysWithin (p + e.reach) :=
    Cursor.children_staysWithin _ fuel
  have hp : Begins (p + e.reach) (some p) (e.reach + 0) p := ⟨by simp, Nat.le_refl _⟩
  refine (hc.start he hp).bind fun cursor hcursor => ?_
  refine (hc.next hcursor).bind ?_
  rintro ⟨drawn, _⟩ ⟨hdrawn, _⟩
  exact drawsWithin_pure fun m hm => (hdrawn m hm).index_eq_of_mem p rfl

theorem LooksForward.take_drawsWithin (he : e.LooksForward) (fuel k p : Nat) :
    DrawsWithin (p + e.reach + 1) (fun _ => True)
      (Cursor.start fuel e p >>= Cursor.take fuel k) := by
  have hp : Begins (p + e.reach) none (e.reach + 0) p := ⟨by simp, Nat.le_refl _⟩
  refine ((Cursor.children_staysWithin _ fuel).start he hp).bind fun cursor hcursor => ?_
  exact Cursor.takeAfter_drawsWithin fuel k [] hcursor

/-- A search that comes upon a match has read no further than one position past what a match there
could take. -/
theorem LooksForward.next_draws (he : e.LooksForward) {fuel p : Nat} {finished : Bool} {m : Match}
    {t : Scan α} {source later : LazySource α}
    (h : (Scan.next fuel ⟨e, p, finished⟩).run.drive source = (some (.ok (some m), t), later)) :
    p ≤ m.index ∧ later.cache.size ≤ max source.cache.size (m.index + e.reach + 1) := by
  induction fuel generalizing p finished source with
  | zero => cases h
  | succ fuel ih =>
    cases finished with
    | true => cases h
    | false =>
      rw [Scan.next_succ_unfinished, drive_bind_eq_some_iff] at h
      obtain ⟨inside, mid, hinside, h⟩ := h
      have hrange : DrawsWithin (p + 1) (fun _ => True) (ask (Query.inRange p) : Search α Bool) :=
        drawsWithin_ask (Query.drawsWithin_inRange (Nat.lt_succ_self p))
      have hmid := (hrange.of_drive hinside).1
      split at h
      · rw [drive_bind_eq_some_iff] at h
        obtain ⟨first, mid', hfirst, h⟩ := h
        obtain ⟨hmid', hindex⟩ := (he.first?_drawsWithin fuel p).of_drive hfirst
        cases first with
        | some m' =>
          cases h
          obtain rfl := hindex m rfl
          exact ⟨Nat.le_refl _, by omega⟩
        | none =>
          -- what was read where nothing was found is below what the match itself may need
          obtain ⟨hle, hlater⟩ := ih h
          exact ⟨by omega, by omega⟩
      · rw [drive_bind_eq_some_iff] at h
        obtain ⟨past, mid', -, h⟩ := h
        split at h <;> cases h

/-- Without assertions, nothing is read further than one position past the elements that a match
could take, be there more of them or not: neither by any number of draws from a position, nor by a
search up to the match that it comes upon. -/
theorem draws_within_reach (he : e.isPlain = true) (hfree : e.isAssertionFree = true)
    (source : LazySource α) (fuel : Nat) :
    (∀ i k, ((Cursor.start fuel e i >>= Cursor.take fuel k).run.drive source).2.cache.size ≤
      max source.cache.size (i + e.reach + 1)) ∧
    ∀ s : Scan α, s.pattern = e → ∀ m t later,
      (s.next fuel).run.drive source = (some (.ok (some m), t), later) →
      later.cache.size ≤ max source.cache.size (m.index + e.reach + 1) := by
  have he : e.LooksForward := ⟨he, hfree⟩
  refine ⟨fun i k => (he.take_drawsWithin fuel k i source).1, ?_⟩
  rintro ⟨_, p, finished⟩ rfl m t later h
  exact (he.next_draws h).2

/-- The numbers 0, 1, 0, 1 and so on, without end. -/
theorem draws_within_reach_endless :
    let e : Expression Nat := sequence [value 1, (value 0).optional]
    let source : LazySource Nat := { feed := fun i => some (i % 2) }
    (∀ i k, ((Cursor.start 20 e i >>= Cursor.take 20 k).run.drive source).2.cache.size ≤
      i + 3) ∧
    ∃ t later, (Scan.next 20 ⟨e, 0, false⟩).run.drive source =
        (some (.ok (some ⟨1, 2, true⟩), t), later) ∧ later.cache.size ≤ 4 := by
  intro e source
  have h := draws_within_reach (e := e) (by decide) (by decide) source 20
  have hnext : (Scan.next 20 ⟨e, 0, false⟩).run.drive source =
      (some (.ok (some ⟨1, 2, true⟩), ⟨e, 3, false⟩),
        { source with cache := #[0, 1, 0, 1], polls := 4 }) := by
    cbv
  refine ⟨fun i k => ?_, _, _, hnext, h.2 ⟨e, 0, false⟩ rfl _ _ _ hnext⟩
  have hdraws := h.1 i k
  have hreach : e.reach = 2 := by decide
  have hcached : source.cache.size = 0 := rfl
  rwa [hreach, hcached, Nat.zero_max] at hdraws

end Expression

end SeqPattern
