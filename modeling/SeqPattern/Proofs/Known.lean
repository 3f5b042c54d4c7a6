import SeqPattern.Proofs.Caching
import SeqPattern.Proofs.Work
import SeqPattern.Source

namespace SeqPattern.Source

open Search

variable {α β : Type}

def known : Source α → Array α
  | whole xs => xs
  | drawn s => s.cache

/-- The sequence consists of the items. If it is drawn on demand, any number of them may have been
drawn already. -/
inductive Holds (xs : Array α) : Source α → Prop
  | whole : Holds xs (.whole xs)
  | drawn {s : LazySource α} (h : s.Draws (.finite xs)) : Holds xs (.drawn s)

theorem holds_initial {feed : Nat → Option α} {xs : Array α} (h : (Supply.finite xs).Of feed) :
    (drawn { feed }).Holds xs :=
  .drawn (LazySource.draws_initial h)

/-- Whatever is answered, the items that are known afterwards would have given the same answer if
there were no others. -/
theorem eval_known (q : Query α β) (src : Source α) :
    q.eval (src.run q).2.known = (src.run q).1 := by
  cases src with
  | whole xs => rfl
  | drawn s => exact (Query.eval_eq_of_agreesWith q (q.drive s).2.agreesWith_cache).2

theorem size_known_le_run (q : Query α β) (src : Source α) :
    src.known.size ≤ (src.run q).2.known.size := by
  cases src with
  | whole xs => exact Nat.le_refl _
  | drawn s => simpa using! (Query.cache_prefix_drive q s).length_le

section Holds

variable {xs : Array α} {src : Source α} (h : src.Holds xs)

include h

theorem Holds.run_fst (q : Query α β) : (src.run q).1 = q.eval xs := by
  cases h with
  | whole => rfl
  | drawn hs => exact Query.drive_finite hs q

theorem Holds.run_snd (q : Query α β) : (src.run q).2.Holds xs := by
  cases h with
  | whole => exact .whole
  | drawn hs => exact .drawn (Query.draws_drive hs q)

theorem Holds.size_known_le : src.known.size ≤ xs.size := by
  cases h with
  | whole => exact Nat.le_refl _
  | drawn hs => exact hs.size_le

theorem Holds.run_get? {i : Nat} (hi : i < src.known.size) :
    src.run (Query.get? i) = (xs[i]?, src) := by
  refine Prod.ext ((h.run_fst _).trans (Query.eval_get? xs i)) ?_
  cases h with
  | whole => rfl
  | @drawn s hs =>
    change Source.drawn ((Query.get? i).drive s).2 = _
    rw [Query.drive_get?_snd, LazySource.ensure_of_lt hi]

theorem Holds.run_of_settles {f : Nat → Search α β} {b : β} (hf : Settles xs f b) :
    ∃ enough, ∀ fuel, enough ≤ fuel → (src.run (f fuel).run).1 = some b := by
  obtain ⟨enough, henough⟩ := hf
  exact ⟨enough, fun fuel hle => (h.run_fst _).trans (henough fuel hle)⟩

/-- What is true of the result in every sequence is true of it in the items that are known in the
end, for these give the same result. -/
theorem Holds.result_known {f : Nat → Search α β} (hf : Monotone f) (hxs : xs.size ≤ maxSize)
    {p : Array α → β → Prop} (hp : ∀ ys, ys.size ≤ maxSize → ∃ b, Settles ys f b ∧ p ys b)
    {fuel : Nat} {b : β} (hb : (src.run (f fuel).run).1 = some b) :
    p (src.run (f fuel).run).2.known b := by
  have hsize := (h.run_snd (f fuel).run).size_known_le
  obtain ⟨c, hc, hpc⟩ := hp _ (Nat.le_trans hsize hxs)
  have hsettles := Settles.of_monotone hf ((eval_known (f fuel).run src).trans hb)
  rwa [hsettles.unique hc]

end Holds

end SeqPattern.Source
