import SeqPattern.Foreign.Standard
import SeqPattern.Proofs.Ladder

namespace SeqPattern

open Search Stacking

variable {α : Type} [BEq α] {xs : Array α} {i : Nat}

/-- The rounds of a greedy repetition and their ends are in step: as many ends are kept as rounds
are open, and one less while the innermost round is drawn from. In the end there are none of
either. -/
def GreedyCursor.Lockstep (xs : Array α) (s : GreedyCursor α (Cursor α)) : Prop :=
  s.ends.length ≤ s.bounds.max ∧
  match s.phase with
  | .deepen | .retreat =>
    s.ends.length = s.stack.length ∧ (rounds s.toRepeated).Ladder xs s.index s.stack s.ends
  | .draw =>
    s.ends.length + 1 = s.stack.length ∧ (rounds s.toRepeated).Climbs xs s.index s.stack s.ends
  | .finish | .over => s.stack = [] ∧ s.ends = []

section Lockstep

variable {r : Repeated α} {stack : List (Round (Cursor α))} {ends : List Nat}

theorem Stacking.Ladder.length_le (h : (rounds r).Ladder xs r.index stack ends) :
    ends.length ≤ r.bounds.max :=
  h.length_eq.trans_le h.climbs.length_le

theorem Stacking.Climbs.lockstep {top : Round (Cursor α)}
    (h : (rounds r).Climbs xs r.index (top :: stack) ends) :
    GreedyCursor.Lockstep xs ⟨r, top :: stack, ends, .draw⟩ :=
  ⟨h.ladder.length_le, congrArg (· + 1) h.ladder.length_eq, h⟩

end Lockstep

namespace Cursor

theorem over_of_finish {r : Repeated α} {d : Cursor α}
    (h : Relation.TransGen (Proceeds xs) (greedy ⟨r, [], [], .finish⟩) d) :
    d = greedy ⟨r, [], [], .over⟩ := by
  induction h with
  | single h =>
    cases h with
    | greedy ht => rw [ht.unique (greedy_turn_finish [] []), Turn.state_ite]
  | tail _ h ih =>
    subst ih
    cases h with
    | greedy ht => rw [ht.unique (settles_pure (Turn.stop _)), Turn.state]

theorem InStep.sequence_discipline {es : List (Expression α)} {c : Cursor α}
    (h : InStep xs (.sequence es) i c) (hes : es ≠ []) :
    (xs.size < i ∧ ∃ m, c = .ready m) ∨
      ∃ s, c = .sequence s ∧ s.index = i ∧ s.stack.length ≤ es.length ∧
        (∀ top ∈ s.stack.head?, top.after = es.drop s.stack.length) ∧
        ∃ ends, (parts es).Climbs xs i s.stack ends := by
  cases h with
  | ready m hready =>
    obtain ⟨e, es, rfl⟩ := List.exists_cons_of_ne_nil hes
    exact Or.inl ⟨Nat.lt_of_not_le (nomatch hready ·), m, rfl⟩
  | @sequence _ _ stack ends hstack =>
    refine Or.inr ⟨⟨i, stack⟩, rfl, rfl, hstack.length_le_parts, ?_, ends, hstack⟩
    intro top htop
    cases stack with
    | nil => cases htop
    | cons _ below =>
      cases htop
      exact hstack.after_eq_drop

variable {child : Expression α} {bounds : Bounds} {c : Cursor α}

theorem InStep.lazy_discipline (h : InStep xs (.repetition child bounds .lazy) i c) :
    (xs.size < i ∧ ∃ m, c = .ready m) ∨
      ∃ s, c = .lazy s ∧ s.toRepeated = ⟨child, bounds, i⟩ ∧ s.stack.length ≤ bounds.max ∧
        ∃ ends, (rounds s.toRepeated).Climbs xs i s.stack ends := by
  cases h with
  | ready m hready => exact Or.inl ⟨Nat.lt_of_not_le (nomatch hready ·), m, rfl⟩
  | lazyFresh => exact Or.inr ⟨_, rfl, rfl, Nat.zero_le _, [], .nil⟩
  | lazy hstack => exact Or.inr ⟨_, rfl, rfl, hstack.length_le, _, hstack⟩

theorem InStep.greedy_discipline (h : InStep xs (.repetition child bounds .greedy) i c) :
    (xs.size < i ∧ ∃ m, c = .ready m) ∨
      ∃ s, c = .greedy s ∧ s.toRepeated = ⟨child, bounds, i⟩ ∧ s.Lockstep xs ∧
        (s.phase = .finish → ∀ d, Relation.TransGen (Proceeds xs) c d →
          ∃ t, d = .greedy t ∧ t.phase = .over) := by
  cases h with
  | ready m hready => exact Or.inl ⟨Nat.lt_of_not_le (nomatch hready ·), m, rfl⟩
  | greedyDeepen hstack | greedyRetreat hstack =>
    exact Or.inr ⟨_, rfl, rfl, ⟨hstack.length_le, hstack.length_eq, hstack⟩, nofun⟩
  | greedyDraw hstack => exact Or.inr ⟨_, rfl, rfl, hstack.lockstep, nofun⟩
  | greedyEnd hphase =>
    obtain rfl | rfl := hphase
    · refine Or.inr ⟨_, rfl, rfl, ⟨Nat.zero_le _, rfl, rfl⟩, fun _ d hd => ?_⟩
      exact ⟨_, over_of_finish hd, rfl⟩
    · exact Or.inr ⟨_, rfl, rfl, ⟨Nat.zero_le _, rfl, rfl⟩, nofun⟩

end Cursor

namespace Expression

section Numbers

variable {child : Expression α} {bounds : Bounds}

/-- Whatever a lazy repetition passes through, what its bounds are compared with is the number of
open rounds. -/
theorem last_eq_length_of_passes_lazy {s : LazyCursor α (Cursor α)}
    (h : (repetition child bounds .lazy).Passes xs i (.lazy s)) :
    Round.last s.stack = s.stack.length := by
  cases Cursor.InStep.of_passes h with
  | lazyFresh => rfl
  | lazy hstack => exact hstack.last_eq_length

/-- Whatever a greedy repetition passes through, what its bounds are compared with is the number of
open rounds, and also that of the ends that are kept, unless it is drawing. -/
theorem last_eq_length_of_passes_greedy {s : GreedyCursor α (Cursor α)}
    (h : (repetition child bounds .greedy).Passes xs i (.greedy s)) :
    Round.last s.stack = s.stack.length ∧
      (s.phase ≠ .draw → Round.last s.stack = s.ends.length) := by
  cases Cursor.InStep.of_passes h with
  | greedyDeepen hstack | greedyRetreat hstack =>
    have hlast := hstack.climbs.last_eq_length
    exact ⟨hlast, fun _ => hlast.trans hstack.length_eq.symm⟩
  | greedyDraw hstack => exact ⟨hstack.last_eq_length, fun hphase => absurd rfl hphase⟩
  | greedyEnd => exact ⟨rfl, fun _ => rfl⟩

end Numbers

/-- Whatever matches the children give, wherever those lie and whether they are successes or not:
in everything that an enumeration passes through, a sequence has no more parts open than it has, and
those that are not open are the ones left; a lazy repetition has no more rounds open than it may
have; and the rounds of a greedy one are in step with the ends that are kept, each of which is that
of the match drawn last from its round, which has been opened at the end below it. A greedy
repetition comes to its finish at most once. What is left after any number of draws is passed
through as well. Past the end of the elements nothing is opened at all. -/
theorem stacks_keep_in_step (xs : Array α) (i : Nat) :
    (∀ es c, es ≠ [] → (sequence es).Passes xs i c →
      (xs.size < i ∧ ∃ m, c = .ready m) ∨
        ∃ s, c = .sequence s ∧ s.index = i ∧ s.stack.length ≤ es.length ∧
          (∀ top ∈ s.stack.head?, top.after = es.drop s.stack.length) ∧
          ∃ ends, (parts es).Climbs xs i s.stack ends) ∧
    (∀ child bounds c, (repetition child bounds .lazy).Passes xs i c →
      (xs.size < i ∧ ∃ m, c = .ready m) ∨
        ∃ s, c = .lazy s ∧ s.toRepeated = ⟨child, bounds, i⟩ ∧ s.stack.length ≤ bounds.max ∧
          ∃ ends, (rounds s.toRepeated).Climbs xs i s.stack ends) ∧
    (∀ child bounds c, (repetition child bounds .greedy).Passes xs i c →
      (xs.size < i ∧ ∃ m, c = .ready m) ∨
        ∃ s, c = .greedy s ∧ s.toRepeated = ⟨child, bounds, i⟩ ∧ s.Lockstep xs ∧
          (s.phase = .finish → ∀ d, Relation.TransGen (Cursor.Proceeds xs) c d →
            ∃ t, d = .greedy t ∧ t.phase = .over)) ∧
    ∀ (e : Expression α) c, e.Passes xs i c → ∀ fuel k before ms complete d,
      (Cursor.takeAfter fuel k before c).eval xs = some (ms, complete, d) → e.Passes xs i d := by
  refine ⟨fun es c hes h => ?_, fun child bounds c h => ?_, fun child bounds c h => ?_,
    fun e c h fuel k before ms complete d htake => h.takeAfter htake⟩
  · exact (Cursor.InStep.of_passes h).sequence_discipline hes
  · exact (Cursor.InStep.of_passes h).lazy_discipline
  · exact (Cursor.InStep.of_passes h).greedy_discipline

/-- Wherever a round is opened, it offers an unsuccessful match one ahead, and then one that begins
at the start of the sequence. -/
theorem stacks_keep_in_step_straying :
    let child : Expression Nat := foreign
      { matchAt := Foreign.never
        candidates := some fun p => pure (.give ⟨p + 1, 0, false⟩ (.give ⟨0, p + 3, true⟩ .done)) }
    ∃ s, (repetition child ⟨1, 2, by decide⟩ .greedy).Passes #[1, 2, 3, 4] 0 (.greedy s) ∧
      s.Lockstep #[1, 2, 3, 4] ∧ s.phase = .draw ∧ s.stack.length = 2 ∧ s.ends = [1] := by
  intro child
  have hopened : (repetition child ⟨1, 2, by decide⟩ .greedy).Passes #[1, 2, 3, 4] 0
      (repeatedCursor ⟨child, ⟨1, 2, by decide⟩, 0⟩ .greedy) :=
    .opened (settles_start_repetition (by decide) child _ .greedy)
  have hfirst : ∃ s, (Cursor.next 8 (repeatedCursor ⟨child, ⟨1, 2, by decide⟩, 0⟩ .greedy)).eval
      #[1, 2, 3, 4] = some (some ⟨0, 4, true⟩, .greedy s) ∧
      s.phase = .draw ∧ s.stack.length = 2 ∧ s.ends = [1] := ⟨_, rfl, rfl, rfl, rfl⟩
  obtain ⟨s, hnext, hshape⟩ := hfirst
  have hpass := hopened.next hnext
  obtain ⟨-, -, hgreedy, -⟩ := stacks_keep_in_step (#[1, 2, 3, 4] : Array Nat) 0
  obtain ⟨hlt, -⟩ | ⟨t, ht, -, hstep, -⟩ := hgreedy _ _ _ hpass
  · cases hlt
  · obtain rfl := Cursor.greedy.inj ht
    exact ⟨s, hpass, hstep, hshape⟩

end Expression

end SeqPattern
