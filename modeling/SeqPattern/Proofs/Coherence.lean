import SeqPattern.Proofs.Ladder

namespace SeqPattern

open Search Stacking

variable {α : Type} [BEq α] {xs : Array α}

namespace Expression

def Enumerable (xs : Array α) (e : Expression α) : Prop := ∀ p, ∃ ms, e.Enumerates xs p ms

end Expression

namespace Stacking

section Enumerable

variable {β : Type} {k : Stacking α β} {es : List (Expression α)} {i : Nat} {stack : List β}
  {ends : List Nat} (hk : k.OpensOnly es) (hes : ∀ e ∈ es, e.Enumerable xs)

include hk hes

theorem Ladder.trail (h : k.Ladder xs i stack ends) : k.Trail xs i stack ends := by
  induction h with
  | nil => exact .nil
  | @cons below ends top e ms m h hopens hdrawn haccept ih =>
    obtain ⟨all, hall⟩ := hes e (hk _ _ _ hopens) (ends.headD i)
    obtain ⟨rest, hrest, hdrawn_all⟩ := hdrawn.yields hall
    have hm : m ∈ all := by simp [hdrawn_all]
    exact ih.cons hopens hall hdrawn.passes hm haccept

theorem Climbs.awaits (h : k.Climbs xs i stack ends) : k.Awaits xs i stack ends := by
  cases h with
  | nil => exact .nil
  | @cons below ends top e ms h hopens hdrawn =>
    obtain ⟨all, hall⟩ := hes e (hk _ _ _ hopens) (ends.headD i)
    exact .cons (h.trail hk hes) hopens hall hdrawn.passes

end Enumerable

end Stacking

namespace Cursor

/-- What is known of a cursor that has been opened for a pattern at a position, and of the children
that are open in it. -/
inductive Coherent (xs : Array α) : Expression α → Nat → Cursor α → Prop
  | ready (e i m) : Coherent xs e i (ready m)
  | candidates (e i cs) : Coherent xs e i (candidates cs)
  | sequence {es i stack ends} (h : (parts es).Awaits xs i stack ends) :
    Coherent xs (.sequence es) i (sequence ⟨i, stack⟩)
  | alternation {es i current rest ends} (hrest : rest ⊆ es)
    (h : (option es).Awaits xs i current.toList ends) :
    Coherent xs (.alternation es) i (alternation ⟨i, current, rest⟩)
  | lazyFresh {child bounds i} :
    Coherent xs (.repetition child bounds .lazy) i (lazy ⟨⟨child, bounds, i⟩, false, []⟩)
  | lazy {child bounds i stack ends} (h : (rounds ⟨child, bounds, i⟩).Awaits xs i stack ends) :
    Coherent xs (.repetition child bounds .lazy) i (lazy ⟨⟨child, bounds, i⟩, true, stack⟩)
  | greedyDeepen {child bounds i stack ends}
    (h : (rounds ⟨child, bounds, i⟩).Trail xs i stack ends) :
    Coherent xs (.repetition child bounds .greedy) i
      (greedy ⟨⟨child, bounds, i⟩, stack, ends, .deepen⟩)
  | greedyDraw {child bounds i top below ends}
    (h : (rounds ⟨child, bounds, i⟩).Awaits xs i (top :: below) ends) :
    Coherent xs (.repetition child bounds .greedy) i
      (greedy ⟨⟨child, bounds, i⟩, top :: below, ends, .draw⟩)
  | greedyRetreat {child bounds i stack ends}
    (h : (rounds ⟨child, bounds, i⟩).Trail xs i stack ends) :
    Coherent xs (.repetition child bounds .greedy) i
      (greedy ⟨⟨child, bounds, i⟩, stack, ends, .retreat⟩)
  | greedyEnd {child bounds i phase} (h : phase = .finish ∨ phase = .over) :
    Coherent xs (.repetition child bounds .greedy) i
      (greedy ⟨⟨child, bounds, i⟩, [], [], phase⟩)

variable {e : Expression α} {i : Nat} {c : Cursor α}

theorem Coherent.of_passes (he : ∀ d ∈ e.inside, d.Enumerable xs) (h : e.Passes xs i c) :
    Coherent xs e i c := by
  cases InStep.of_passes h with
  | ready m => exact .ready _ _ m
  | candidates => exact .candidates _ _ _
  | sequence hstack => exact .sequence (hstack.awaits (parts_opensOnly _) he)
  | alternation hrest hopen =>
    exact .alternation hrest (hopen.awaits (option_opensOnly _) he)
  | lazyFresh => exact .lazyFresh
  | lazy hstack => exact .lazy (hstack.awaits (rounds_opensOnly _) he)
  | greedyDeepen hstack => exact .greedyDeepen (hstack.trail (rounds_opensOnly _) he)
  | greedyDraw hstack => exact .greedyDraw (hstack.awaits (rounds_opensOnly _) he)
  | greedyRetreat hstack => exact .greedyRetreat (hstack.trail (rounds_opensOnly _) he)
  | greedyEnd hphase => exact .greedyEnd hphase

theorem Coherent.opens_pass (h : Coherent xs e i c) :
    ∀ d ∈ c.opens, ∃ f ∈ e.inside, ∃ p, f.Passes xs p d := by
  cases h with
  | ready m | candidates cs | lazyFresh | greedyEnd => simp [opens]
  | sequence h => exact h.passes (parts_opensOnly _)
  | alternation hrest h =>
    have hpasses := h.passes (option_opensOnly _)
    rwa [option, List.map_id] at hpasses
  | lazy h => exact h.passes (rounds_opensOnly _)
  | greedyDeepen h | greedyRetreat h => exact h.passes (rounds_opensOnly _)
  | greedyDraw h => exact h.passes (rounds_opensOnly _)

end Cursor

end SeqPattern
