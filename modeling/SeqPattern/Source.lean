import SeqPattern.Source.Lazy
import SeqPattern.Text.Shown

namespace SeqPattern

inductive Source (α : Type) where
  | whole (items : Array α)
  | drawn (s : LazySource α)

def Source.run {α β : Type} (q : Query α β) : Source α → β × Source α
  | .whole xs => (q.eval xs, .whole xs)
  | .drawn s => let (b, s) := q.drive s; (b, .drawn s)

@[simp]
theorem Source.run_pure {α β : Type} (b : β) (s : Source α) : s.run (pure b) = (b, s) := by
  cases s <;> rfl

@[simp]
theorem Source.run_bind {α β γ : Type} (q : Query α β) (f : β → Query α γ) (s : Source α) :
    s.run (q >>= f) = (s.run q).2.run (f (s.run q).1) := by
  cases s with
  | whole xs => simp only [run, Query.eval_bind]
  | drawn s => simp only [run, Query.drive_bind]

@[simp]
theorem Source.run_map {α β γ : Type} (f : β → γ) (q : Query α β) (s : Source α) :
    s.run (f <$> q) = (f (s.run q).1, (s.run q).2) := by
  rw [map_eq_pure_bind, run_bind, run_pure]

/-- How a program lists a sequence known as a whole. No theorem is about it. -/
def Source.wholeText {α : Type} [Shown α] (xs : Array α) : String :=
  "ListSource \x7b items: " ++ Text.listing (xs.toList.map shown) ++ " \x7d"

end SeqPattern
