import SeqPattern.Proofs.Answers
import SeqPattern.Proofs.Enumeration

namespace SeqPattern

open Search

variable {α : Type} [BEq α] {xs : Array α}

omit [BEq α] in
theorem settles_inRange (xs : Array α) (i : Nat) :
    Settles xs (fun _ => ask (Query.inRange i)) (decide (i ≤ xs.size)) := by
  simpa only [Query.eval_inRange] using settles_ask xs (Query.inRange i)

namespace Expression

theorem enumerates_ready {e : Expression α} {i : Nat} {m : Option Match}
    (h : Settles xs (fun fuel => Cursor.opened (Cursor.children fuel) e i) (.ready m)) :
    e.Enumerates xs i m.toList :=
  ⟨.ready m, h.succ fun _ => rfl, Cursor.yields_ready m⟩

end Expression

namespace Children

open Cursor (children)

variable {e : Expression α} {i : Nat}

theorem settles_hasMatch {ms : List Match} (h : e.Enumerates xs i ms) :
    Settles xs (fun fuel => (children fuel).hasMatch e i) (!ms.isEmpty) := by
  obtain ⟨c, hs, hc⟩ := h
  obtain ⟨d, hd⟩ := hc.settles_next
  have hsome : ms.head?.isSome = !ms.isEmpty := by cases ms <;> rfl
  rw [← hsome]
  exact hs.bind (hd.bind (settles_pure _))

/-- Every length that is told and fits before the position is tried, with every match of it. -/
theorem settles_hasMatchBehind {ms : Nat → List Match} (h : ∀ p, e.Enumerates xs p (ms p))
    (ls : Lengths) :
    Settles xs (fun fuel => (children fuel).hasMatchBehind e i ls)
      (ls.toList.any fun n => n ≤ i && (ms (i - n)).any (·.length == n)) := by
  induction ls with
  | done => exact settles_pure false
  | later ls ih => exact ih ()
  | more n rest ih =>
    simp only [Lengths.toList, List.any_cons]
    by_cases hn : n ≤ i
    · obtain ⟨c, hs, hc⟩ := h (i - n)
      have hholds := hc.settles_holds (·.length == n)
      have htry := hs.bind (g := fun fuel c => (children fuel).holds (·.length == n) c) hholds
      simp only [Children.hasMatchBehind, hn, ↓reduceIte, decide_true, Bool.true_and]
      cases hany : (ms (i - n)).any (·.length == n) with
      | true =>
        rw [hany] at htry
        simp only [← bind_assoc]
        exact htry.bind (settles_pure true)
      | false =>
        rw [hany] at htry
        simp only [← bind_assoc]
        exact htry.bind (ih ())
    · simp only [Children.hasMatchBehind, hn, ↓reduceIte, decide_false, Bool.false_and,
        Bool.false_or]
      exact ih ()

theorem settles_assertAhead {ms : List Match} (h : e.Enumerates xs i ms) (negative : Bool) :
    Settles xs (fun fuel => (children fuel).assertAhead negative e i)
      (.zeroWidth (i ≤ xs.size && (!ms.isEmpty) != negative)) := by
  refine (settles_inRange xs i).bind ?_
  by_cases hi : i ≤ xs.size
  · have hm := (settles_hasMatch h).map fun found => Outcome.zeroWidth (found != negative)
    simpa [hi] using! hm
  · simpa [hi] using! settles_pure _

theorem settles_assertBehind {ms : Nat → List Match} (h : ∀ p, e.Enumerates xs p (ms p))
    (negative : Bool) :
    Settles xs (fun fuel => (children fuel).assertBehind negative e i)
      (.zeroWidth (i ≤ xs.size && (e.isPlaceable && ((e.lengths i).toList.any fun n =>
        n ≤ i && (ms (i - n)).any (·.length == n)) != negative))) := by
  refine (settles_inRange xs i).bind ?_
  by_cases hi : i ≤ xs.size
  · cases hp : e.isPlaceable with
    | false => simpa [hi, hp] using! settles_pure _
    | true =>
      have hm := (settles_hasMatchBehind (i := i) h (e.lengths i)).map
        fun found => Outcome.zeroWidth (found != negative)
      simpa [hi, hp] using! hm
  · simpa [hi] using! settles_pure _

end Children

end SeqPattern
