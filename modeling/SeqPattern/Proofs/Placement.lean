import SeqPattern.Foreign.Standard
import SeqPattern.Proofs.Patterns
import SeqPattern.Scan
import SeqPattern.Source

namespace SeqPattern

variable {α : Type}

namespace Source

variable {β γ : Type}

theorem run_map_ask (c : γ) (q : Query α β) (s : Source α) :
    (s.run ((fun _ => c) <$> Search.ask q).run).1 = some c := by
  rw [OptionT.run_map, Search.ask, OptionT.run_lift, run_map, run_bind, run_pure]
  rfl

end Source

namespace Expression

section Flags

theorem induct_inside {motive : Expression α → Prop}
    (h : ∀ e, (∀ d ∈ e.inside, motive d) → motive e) (e : Expression α) : motive e := by
  induction e with
  | element c | anchor a | foreign c => exact h _ (by simp [inside])
  | sequence es ih | alternation es ih => exact h _ ih
  | repetition e bounds kind ih | lookAhead negative e ih | lookBehind negative e ih =>
    exact h _ (by simpa [inside] using ih)

theorem within_iff {enters : Expression α → Bool} {e f : Expression α} :
    f.Within enters e ↔ e = f ∨ enters e = true ∧ ∃ d ∈ e.inside, f.Within enters d := by
  constructor
  · rintro (_ | ⟨he, hd, hf⟩)
    · exact Or.inl rfl
    · exact Or.inr ⟨he, _, hd, hf⟩
  · rintro (rfl | ⟨he, d, hd, hf⟩)
    · exact .self
    · exact .inside he hd hf

theorem someHaveAnyLength_iff {es : List (Expression α)} :
    someHaveAnyLength es = true ↔ ∃ e ∈ es, e.anyLength = true := by
  rw [← Bool.not_eq_false, someHaveAnyLength_eq_false_iff]
  simp

theorem isPlaceable_iff_inside (e : Expression α) :
    e.isPlaceable = true ↔ (∀ c, e = foreign c → ∃ p ∈ c.placement, p.possible = true) ∧
      ∀ d ∈ e.inside, d.isPlaceable = true := by
  cases e <;> simp [isPlaceable, allPlaceable_iff, inside, Option.any_eq_true]

theorem anyLength_iff_inside (e : Expression α) :
    e.anyLength = true ↔ (∃ c, e = foreign c ∧ ∀ p ∈ c.placement, p.anyLength = true) ∨
      (!e.isLookAhead && !e.isLookBehind) = true ∧ ∃ d ∈ e.inside, d.anyLength = true := by
  cases e <;>
    simp [anyLength, someHaveAnyLength_iff, inside, isLookAhead, isLookBehind, Option.all_eq_true]

theorem isPlaceable_iff_within (e : Expression α) :
    e.isPlaceable = true ↔
      ∀ c, (foreign c).Within (fun _ => true) e → ∃ p ∈ c.placement, p.possible = true := by
  induction e using induct_inside with
  | h e ih =>
    rw [isPlaceable_iff_inside]
    constructor
    · rintro ⟨hself, hinside⟩ c hc
      rcases within_iff.mp hc with rfl | ⟨_, d, hd, hc⟩
      · exact hself c rfl
      · exact (ih d hd).mp (hinside d hd) c hc
    · intro h
      refine ⟨fun c hc => h c (hc ▸ .self), fun d hd => (ih d hd).mpr fun c hc => ?_⟩
      exact h c (.inside rfl hd hc)

theorem anyLength_iff_within (e : Expression α) :
    e.anyLength = true ↔ ∃ c, (foreign c).Within (fun d => !d.isLookAhead && !d.isLookBehind) e ∧
      ∀ p ∈ c.placement, p.anyLength = true := by
  induction e using induct_inside with
  | h e ih =>
    rw [anyLength_iff_inside]
    constructor
    · rintro (⟨c, rfl, hc⟩ | ⟨he, d, hd, hany⟩)
      · exact ⟨c, .self, hc⟩
      · obtain ⟨c, hin, hc⟩ := (ih d hd).mp hany
        exact ⟨c, .inside he hd hin, hc⟩
    · rintro ⟨c, hin, hc⟩
      rcases within_iff.mp hin with rfl | ⟨he, d, hd, hin⟩
      · exact Or.inl ⟨c, rfl, hc⟩
      · exact Or.inr ⟨he, d, hd, (ih d hd).mpr ⟨c, hin, hc⟩⟩

end Flags

section Unplaced

variable {e : Expression α}

/-- What can not be placed tells no length, but for what a foreign expression tells itself. -/
theorem lengths_of_not_isPlaceable (he : e.isForeign = false) (h : e.isPlaceable = false)
    (max : Nat) : e.lengths max = .done := by
  cases e <;> simp_all [isForeign, isPlaceable, lengths]

theorem toList_lengths_of_anyLength (he : e.isForeign = false) (h : e.isPlaceable = true)
    (hany : e.anyLength = true) (max : Nat) : (e.lengths max).toList = List.range (max + 1) := by
  rw [← Lengths.toList_upTo]
  cases e <;> simp_all [isForeign, isPlaceable, anyLength, lengths]

theorem assertBehind_of_not_isPlaceable {γ : Type} (c : Children α γ) (negative : Bool) (i : Nat)
    (h : e.isPlaceable = false) :
    c.assertBehind negative e i = (fun _ => .miss) <$> Search.ask (Query.inRange i) := by
  simp [Children.assertBehind, h]

variable [BEq α]

theorem run_matchAt?_of_not_isPlaceable (h : e.isPlaceable = false) (negative : Bool)
    (s : Source α) (i fuel : Nat) :
    (s.run ((lookBehind negative e).matchAt? fuel i).run).1 = some (some .miss) := by
  have hmiss : (lookBehind negative e).matchAt? fuel i =
      (fun _ => some .miss) <$> Search.ask (Query.inRange i) := by
    simp [matchAt?, assertBehind_of_not_isPlaceable _ negative i h]
  rw [hmiss]
  exact Source.run_map_ask _ _ s

theorem run_first?_of_not_isPlaceable (h : e.isPlaceable = false) (negative : Bool)
    (s : Source α) (i fuel : Nat) :
    (s.run ((lookBehind negative e).first? (fuel + 1) i).run).1 = some none := by
  have hnone : (lookBehind negative e).first? (fuel + 1) i =
      (fun _ => none) <$> Search.ask (Query.inRange i) := by
    simp [first?, Cursor.start_succ, Cursor.opened, Match.ofOutcome, Outcome.miss,
      assertBehind_of_not_isPlaceable _ negative i h, Cursor.next_succ, Cursor.drawn]
  rw [hnone]
  exact Source.run_map_ask _ _ s

end Unplaced

/-- Whether a pattern can be placed is up to all foreign expressions inside it, be they asserted or
never reached, and whether it may have any length is up to those that it does not only assert. What
can not be placed tells no lengths, unless it is foreign itself, and a lookbehind on it fails in
every source, negative or not. What can be placed and may have any length tells them all. -/
theorem placement_from_foreign_parts [BEq α] (e : Expression α) :
    (e.isPlaceable = true ↔
      ∀ c, (foreign c).Within (fun _ => true) e → ∃ p ∈ c.placement, p.possible = true) ∧
    (e.anyLength = true ↔
      ∃ c, (foreign c).Within (fun d => !d.isLookAhead && !d.isLookBehind) e ∧
        ∀ p ∈ c.placement, p.anyLength = true) ∧
    (e.isPlaceable = false →
      (e.isForeign = false → ∀ max, (e.lengths max).toList = []) ∧
      ∀ (negative : Bool) (s : Source α) (i fuel : Nat),
        (s.run ((lookBehind negative e).matchAt? fuel i).run).1 = some (some .miss) ∧
        (s.run ((lookBehind negative e).first? (fuel + 1) i).run).1 = some none) ∧
    (e.isForeign = false → e.isPlaceable = true → e.anyLength = true →
      ∀ max, (e.lengths max).toList = List.range (max + 1)) := by
  refine ⟨isPlaceable_iff_within e, anyLength_iff_within e, fun h => ⟨fun he max => ?_, ?_⟩,
    toList_lengths_of_anyLength⟩
  · rw [lengths_of_not_isPlaceable he h, Lengths.toList]
  · intro negative s i fuel
    exact ⟨run_matchAt?_of_not_isPlaceable h negative s i fuel,
      run_first?_of_not_isPlaceable h negative s i fuel⟩

/-- An expression without a placement that is asserted in rounds of which there are none, and one
that may have any length, whatever it tells. -/
theorem placement_from_foreign_parts_never_reached :
    let blind : Expression Nat := foreign { matchAt := Foreign.never }
    let e := sequence [value 1, times (lookAhead true blind) 0]
    let wide : Expression Nat := foreign
      { matchAt := Foreign.never, placement := some ⟨true, true, fun _ => [7]⟩ }
    ((e.lengths 3).toList = [] ∧
      ∀ (s : Source Nat) (i fuel : Nat),
        (s.run ((lookBehind true e).matchAt? fuel i).run).1 = some (some .miss) ∧
        (s.run ((lookBehind true e).first? (fuel + 1) i).run).1 = some none) ∧
      ((alternation [wide, value 1]).lengths 3).toList = [0, 1, 2, 3] := by
  intro blind e wide
  obtain ⟨hnone, hfail⟩ := (placement_from_foreign_parts e).2.2.1 rfl
  have hall := (placement_from_foreign_parts (alternation [wide, value 1])).2.2.2 rfl rfl rfl 3
  exact ⟨⟨hnone rfl 3, hfail true⟩, hall⟩

end Expression

end SeqPattern
