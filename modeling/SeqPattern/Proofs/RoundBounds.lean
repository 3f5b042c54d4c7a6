import SeqPattern.Proofs.WellFormed

namespace SeqPattern

open Search Stacking

variable {α : Type} [BEq α] {xs : Array α} {r : Repeated α}

namespace Stacking

theorem Trail.length_ends {β : Type} {k : Stacking α β} {i : Nat} {stack : List β}
    {ends : List Nat} (h : k.Trail xs i stack ends) : ends.length = stack.length := by
  induction h with
  | nil => rfl
  | cons h hopens hms hpass hm haccept ih => exact congrArg (· + 1) ih

variable {stack : List (Round (Cursor α))} {ends : List Nat}

theorem Trail.ends_inside (h : (rounds r).Trail xs r.index stack ends) (hr : r.child.Orderly xs) :
    ∀ q ∈ ends, r.index ≤ q ∧ q ≤ xs.size :=
  (h.ordered (rounds_opensOnly r) (by simpa using hr)).2

/-- A round that is accepted takes an element, or it is one of those that are needed. -/
theorem Trail.length_add_le (h : (rounds r).Trail xs r.index stack ends)
    (hr : r.child.Orderly xs) :
    stack.length + r.index ≤ r.bounds.min + ends.headD r.index := by
  induction h with
  | nil => simp
  | @cons below ends top e ms m h hopens hms hpass hm haccept ih =>
    have hinside := (h.cons hopens hms hpass hm haccept).ends_inside hr
    have hstop := (hinside m.stop (by simp)).1
    obtain ⟨rfl, hnumber, -⟩ := hopens
    have hindex := (hr.liesFrom hms m hm).index_eq
    simp only [rounds, Repeated.admits, Bool.or_eq_true, decide_eq_true_eq] at haccept
    rw [List.length_cons, List.headD_cons]
    -- A round that takes something moves the end on; any other is among the first that are needed.
    rcases haccept with htaken | hneeded
    · have hlength : m.length ≠ 0 := by simpa [Match.isEmpty] using htaken
      rw [Match.stop, hindex]
      omega
    · omega

theorem Trail.length_le (h : (rounds r).Trail xs r.index stack ends) (hr : r.child.Orderly xs) :
    stack.length ≤ r.bounds.min + (xs.size - r.index) := by
  have hlength := h.length_add_le hr
  have hinside := h.ends_inside hr
  cases h with
  | nil => exact Nat.zero_le _
  | @cons below ends top e ms m h hopens hms hpass hm haccept =>
    have hstop := hinside m.stop (by simp)
    rw [List.headD_cons] at hlength
    omega

end Stacking

namespace Cursor

/-- How many rounds of a repetition can be open at once, and how many can be accepted: those below
the innermost one, those whose ends are kept, and all of them when the innermost one has a match
that is accepted. -/
structure WithinRounds (xs : Array α) (r : Repeated α) (c : Cursor α) : Prop where
  opens_le : c.opens.length ≤ min r.bounds.max (r.bounds.min + (xs.size - r.index) + 1)
  ends_le : c.ends.length ≤ r.bounds.min + (xs.size - r.index)
  accepted_le : ∀ top ∈ c.opens.head?, ∀ m d, Settles xs (fun fuel => next fuel top) (some m, d) →
    r.admits m c.opens.length = true → c.opens.length ≤ r.bounds.min + (xs.size - r.index)

variable {e : Expression α} {i : Nat} {c : Cursor α}

theorem WithinRounds.of_awaits {stack : List (Round (Cursor α))} {ends : List Nat}
    (h : (rounds r).Awaits xs r.index stack ends) (hr : r.child.Orderly xs)
    (hopens : c.opens = stack.map (·.cursor))
    (hends : c.ends.length ≤ r.bounds.min + (xs.size - r.index)) : c.WithinRounds xs r := by
  cases stack with
  | nil => exact ⟨by simp [hopens], hends, by simp [hopens]⟩
  | cons top below =>
    obtain ⟨htrail, e, hround, hdraws⟩ := h.draws
    have hbelow := htrail.length_le hr
    have hnumber : top.number = below.length + 1 := hround.2.1
    have hmax : top.number ≤ r.bounds.max := hround.2.2
    have hlength : c.opens.length = below.length + 1 := by simp [hopens]
    refine ⟨by omega, hends, ?_⟩
    intro child htop m d hnext hadmits
    have hchild : top.cursor = child := by simpa [hopens] using htop
    obtain rfl := hchild
    obtain ⟨d', hd'⟩ | ⟨m', d', hd', hgoes⟩ := hdraws
    · cases hd'.unique hnext
    · cases hd'.unique hnext
      rw [hlength, ← hnumber] at hadmits
      have hgone := (hgoes ⟨top.number, d⟩ rfl hround).2 hadmits
      rw [hlength]
      exact hgone.length_le hr

theorem Coherent.withinRounds (h : Coherent xs e i c) (he : ∀ f ∈ e.inside, f.Orderly xs)
    (hr : r ∈ c.repeated?) : c.WithinRounds xs r := by
  cases h with
  | ready m | candidates cs | sequence h | alternation hrest h => cases hr
  | lazyFresh | greedyEnd =>
    cases hr
    exact .of_awaits .nil (he _ (List.mem_singleton_self _)) rfl (Nat.zero_le _)
  | lazy h =>
    cases hr
    exact .of_awaits h (he _ (List.mem_singleton_self _)) rfl (Nat.zero_le _)
  | greedyDeepen h | greedyRetreat h =>
    cases hr
    have hchild := he _ (List.mem_singleton_self _)
    exact .of_awaits h.awaits hchild rfl (h.length_ends.trans_le (h.length_le hchild))
  | greedyDraw h =>
    cases hr
    have hchild := he _ (List.mem_singleton_self _)
    have hbelow := h.draws.1
    exact .of_awaits h hchild rfl (hbelow.length_ends.trans_le (hbelow.length_le hchild))

end Cursor

namespace Expression

variable {e : Expression α}

/-- Enumerating a plain pattern comes to an end: opening it and every draw give a result, and from
whatever it passes through there is only a part of finitely many matches left to come. All the while
no repetition, however deep inside, has more rounds open or accepted than it needs, than it may have
and than there are elements from its position on. -/
theorem enumeration_ends_within_rounds (he : e.isPlain = true) (xs : Array α)
    (hxs : xs.size ≤ maxSize) (i : Nat) :
    ∃ ms, e.Enumerates xs i ms ∧ ∀ c, e.Passes xs i c →
      (∃ rest, c.Yields xs rest ∧ rest <:+ ms) ∧
      ∀ d, c.Nests d → ∀ r ∈ d.repeated?, d.WithinRounds xs r := by
  have he := isTested_of_isPlain he
  obtain ⟨ms, hms⟩ := (orderly_of_isTested hxs he).enumerable i
  refine ⟨ms, hms, fun c hc => ⟨hc.yields hms, fun d hd r hr => ?_⟩⟩
  obtain ⟨f, p, hf, hpass⟩ := hd.exists_passes hxs he hc
  exact (Cursor.Coherent.of_isTested hxs hf hpass).withinRounds (orderly_of_mem_inside hxs hf) hr

/-- Any number of rounds that may be empty, any number of times. -/
theorem enumeration_ends_within_rounds_nested_nullable :
    ∃ ms, (atLeast (zeroOrMore (alternation [sequence [], value 1]) .lazy) 2 :
        Expression Nat).Enumerates #[1, 1, 2] 0 ms ∧
      ∀ c, (atLeast (zeroOrMore (alternation [sequence [], value 1]) .lazy) 2 :
          Expression Nat).Passes #[1, 1, 2] 0 c →
        (∃ rest, c.Yields #[1, 1, 2] rest ∧ rest <:+ ms) ∧
        ∀ d, c.Nests d → ∀ r ∈ d.repeated?, d.WithinRounds #[1, 1, 2] r :=
  enumeration_ends_within_rounds (by decide) #[1, 1, 2] (by decide) 0

end Expression

end SeqPattern
