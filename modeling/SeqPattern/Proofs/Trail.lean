import SeqPattern.Proofs.Course
import SeqPattern.Proofs.Repetition

namespace SeqPattern

open Search

variable {α : Type}

/-- How a composite keeps its open children, innermost first: the cursor of each, the expression it
has been opened for on top of those below it, and the matches from which it is gone on. -/
structure Stacking (α β : Type) where
  cursor : β → Cursor α
  opens : β → List β → Expression α → Prop
  accepts : β → Match → Prop

namespace Stacking

def parts (es : List (Expression α)) : Stacking α (OpenPart α (Cursor α)) where
  cursor := OpenPart.cursor
  opens top below e := es.drop below.length = e :: top.after
  accepts _ _ := True

def option (es : List (Expression α)) : Stacking α (Cursor α) where
  cursor := id
  opens _ below e := below = [] ∧ e ∈ es
  accepts _ _ := False

/-- The rounds of a repetition, which are numbered and bounded, and may be empty only as long as
they are needed. -/
def rounds (r : Repeated α) : Stacking α (Round (Cursor α)) where
  cursor := Round.cursor
  opens top below e := e = r.child ∧ top.number = below.length + 1 ∧ top.number ≤ r.bounds.max
  accepts top m := r.admits m top.number = true

def OpensOnly {β : Type} (k : Stacking α β) (es : List (Expression α)) : Prop :=
  ∀ top below e, k.opens top below e → e ∈ es

theorem parts_opensOnly (es : List (Expression α)) : (parts es).OpensOnly es :=
  fun _ _ _ h => List.mem_of_mem_drop (h ▸ List.mem_cons_self)

theorem option_opensOnly (es : List (Expression α)) : (option es).OpensOnly es :=
  fun _ _ _ h => h.2

theorem rounds_opensOnly (r : Repeated α) : (rounds r).OpensOnly [r.child] :=
  fun _ _ _ h => List.mem_singleton.mpr h.1

variable [BEq α] {β : Type} (k : Stacking α β) (xs : Array α) (i : Nat)

/-- Every open child has been gone on from a match of it. Those matches end at `ends`, innermost
first, and each child has been opened where the one below it has ended, the first one at `i`. -/
inductive Trail : List β → List Nat → Prop
  | nil : Trail [] []
  | cons {below : List β} {ends : List Nat} {top : β} {e : Expression α} {ms : List Match}
    {m : Match} (h : Trail below ends) (hopens : k.opens top below e)
    (hms : e.Enumerates xs (ends.headD i) ms) (hpass : e.Passes xs (ends.headD i) (k.cursor top))
    (hm : m ∈ ms) (haccept : k.accepts top m) : Trail (top :: below) (m.stop :: ends)

/-- Every open child but the innermost has been gone on from a match of it. -/
inductive Awaits : List β → List Nat → Prop
  | nil : Awaits [] []
  | cons {below : List β} {ends : List Nat} {top : β} {e : Expression α} {ms : List Match}
    (h : k.Trail xs i below ends) (hopens : k.opens top below e)
    (hms : e.Enumerates xs (ends.headD i) ms)
    (hpass : e.Passes xs (ends.headD i) (k.cursor top)) : Awaits (top :: below) ends

variable {k xs i} {stack below : List β} {top : β} {ends : List Nat}

theorem Trail.awaits (h : k.Trail xs i stack ends) : k.Awaits xs i stack ends.tail := by
  cases h with
  | nil => exact .nil
  | cons h hopens hms hpass hm haccept => exact .cons h hopens hms hpass

/-- The innermost child has no match left, or it gives one, from which it may be gone on. -/
theorem Awaits.draws (h : k.Awaits xs i (top :: below) ends) :
    k.Trail xs i below ends ∧ ∃ e, k.opens top below e ∧
      ((∃ d, Settles xs (fun fuel => Cursor.next fuel (k.cursor top)) (none, d)) ∨
      ∃ m d, Settles xs (fun fuel => Cursor.next fuel (k.cursor top)) (some m, d) ∧
        ∀ top', k.cursor top' = d → k.opens top' below e →
          k.Awaits xs i (top' :: below) ends ∧
          (k.accepts top' m → k.Trail xs i (top' :: below) (m.stop :: ends))) := by
  cases h with
  | @cons _ _ _ e ms h hopens hms hpass =>
    refine ⟨h, e, hopens, ?_⟩
    obtain ⟨rest, hrest, hsuffix⟩ := hpass.yields hms
    cases hrest with
    | @stop _ d first again => exact Or.inl ⟨d, first⟩
    | @give _ d m rest first hrest =>
      refine Or.inr ⟨m, d, first, ?_⟩
      obtain ⟨fuel, hfuel⟩ := id first
      have hpass := hpass.next (hfuel fuel (Nat.le_refl fuel))
      rintro top' rfl hopens
      exact ⟨.cons h hopens hms hpass,
        .cons h hopens hms hpass (hsuffix.subset List.mem_cons_self)⟩

theorem Trail.passes {es : List (Expression α)} (hk : k.OpensOnly es)
    (h : k.Trail xs i stack ends) :
    ∀ c ∈ stack.map k.cursor, ∃ e ∈ es, ∃ p, e.Passes xs p c := by
  induction h with
  | nil => simp
  | cons h hopens hms hpass hm haccept ih =>
    rw [List.map_cons, List.forall_mem_cons]
    exact ⟨⟨_, hk _ _ _ hopens, _, hpass⟩, ih⟩

theorem Awaits.passes {es : List (Expression α)} (hk : k.OpensOnly es)
    (h : k.Awaits xs i stack ends) :
    ∀ c ∈ stack.map k.cursor, ∃ e ∈ es, ∃ p, e.Passes xs p c := by
  cases h with
  | nil => simp
  | cons h hopens hms hpass =>
    rw [List.map_cons, List.forall_mem_cons]
    exact ⟨⟨_, hk _ _ _ hopens, _, hpass⟩, h.passes hk⟩

end Stacking

end SeqPattern
