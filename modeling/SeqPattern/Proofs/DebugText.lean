import SeqPattern.Proofs.SameMeaning
import SeqPattern.Proofs.SpelledText

namespace SeqPattern

namespace ElementClass

theorem someAccepts_named {cs : List (ElementClass Int)} {a : Int}
    (h : ∀ c ∈ cs, c.term.namedClass.accepts a = c.accepts a) :
    someAccepts (namedClasses (terms cs)) a = someAccepts cs a := by
  induction cs with
  | nil => rfl
  | cons c cs ih =>
    rw [List.forall_mem_cons] at h
    rw [terms, namedClasses, someAccepts, someAccepts, h.1, ih h.2]

theorem accepts_named {c : ElementClass Int} (hc : c.isSpelledOut = true) (a : Int) :
    c.term.namedClass.accepts a = c.accepts a := by
  induction c using induct with
  | any | value b => rfl
  | predicate label holds | probing name holds probe => cases hc
  | oneOf cs ih =>
    exact someAccepts_named fun c hmem => ih c hmem (allSpelledOut_iff.mp hc c hmem)
  | noneOf cs ih =>
    have hsome := someAccepts_named fun c hmem => ih c hmem (allSpelledOut_iff.mp hc c hmem)
    rw [term, Term.namedClass, Term.namedClass, accepts, accepts, accepts, hsome]
  | not c ih => rw [term, Term.namedClass, accepts, accepts, ih hc]

end ElementClass

theorem Bounds.pattern_head {α : Type} (b : Bounds) (kind : RepetitionKind) (e : Expression α) :
    ∃ kind', (b.head kind).1.pattern (b.head kind).2 e = .repetition e b kind' ∧
      (kind' = kind ∨ b.min = b.max) := by
  obtain ⟨min, max, hle⟩ := b
  unfold Bounds.head
  dsimp only
  split_ifs with hsame hmax hzero hone hoptional
  · refine ⟨.greedy, ?_, Or.inr hsame⟩
    simp [Head.pattern, Expression.times, hsame]
  all_goals refine ⟨kind, ?_, Or.inl rfl⟩
  · simp [Head.pattern, Expression.zeroOrMore, Expression.atLeast, hmax, hzero]
  · have hle : 1 ≤ maxSize := by decide
    simp [Head.pattern, Expression.oneOrMore, Expression.atLeast, hmax, hone, hle]
  · simp [Head.pattern, Expression.atLeast, hmax, hmax ▸ hle]
  · simp [Head.pattern, Expression.optional, hoptional]
  · simp [Head.pattern, hle]

namespace Expression

theorem optionPatterns_eq_map (ts : List Term) : optionPatterns ts = ts.map Term.pattern := by
  induction ts with
  | nil => rfl
  | cons t ts ih => rw [optionPatterns, ih, List.map_cons]

theorem partPatterns_eq_map (ps : List Phrase) : partPatterns ps = ps.map Phrase.pattern := by
  induction ps with
  | nil => rfl
  | cons p ps ih => rw [partPatterns, ih, List.map_cons]

theorem sameMeaning_option {e : Expression Int} (h : e.SameMeaning e.phrase.pattern) :
    e.SameMeaning (e.phrase.option e.isAlternation).pattern := by
  cases ha : e.isAlternation with
  | true => exact h.trans (sameMeaning_sequence_singleton h.right).symm
  | false =>
    rw [phrase_eq_of_not_isAlternation ha] at h
    exact h

theorem isProbing_of_isSpelledOut {α : Type} {c : ElementClass α} (h : c.isSpelledOut = true) :
    c.isProbing = false := by
  cases c <;> first | rfl | cases h

theorem isProbing_namedClass (t : Term) : t.namedClass.isProbing = false := by
  cases t with
  | atom a => cases a <;> rfl
  | not t | listing ts | group ps | call h p ns => rfl

theorem pattern_term (c : ElementClass Int) : c.term.pattern = element c.term.namedClass := by
  cases c <;> rfl

/-- The pattern that a text describes means what the pattern means that has the text. -/
theorem sameMeaning_pattern {e : Expression Int} (he : e.isSpelledOut = true) :
    e.SameMeaning e.phrase.pattern := by
  induction e with
  | element c =>
    have h : (element c).phrase.pattern = element c.term.namedClass := pattern_term c
    rw [h]
    exact sameMeaning_element (isProbing_of_isSpelledOut he) (isProbing_namedClass c.term)
      fun a => (ElementClass.accepts_named he a).symm
  | sequence es ih =>
    have h : (sequence es).phrase.pattern = sequence (es.map fun e => e.phrase.pattern) := by
      simp [phrase, Phrase.pattern, Term.pattern, partPatterns_eq_map, phrases_eq_map,
        Function.comp_def]
    rw [h]
    exact sameMeaning_sequence fun e hmem => ih e hmem (isSpelledOut_sequence.mp he e hmem)
  | alternation es ih =>
    have hoptions := sameMeaning_alternation fun e hmem =>
      sameMeaning_option (ih e hmem (isSpelledOut_alternation.mp he e hmem))
    -- Without options the text is that of an empty sequence, and with one that of the option.
    cases es with
    | nil => exact sameMeaning_nothing
    | cons e es =>
      cases es with
      | nil =>
        have hsingle := isPlain_alternation.mp hoptions.right _ List.mem_cons_self
        exact hoptions.trans (sameMeaning_alternation_singleton hsingle)
      | cons d es =>
        have h : (alternation (e :: d :: es)).phrase.pattern = alternation
            ((e :: d :: es).map fun e => (e.phrase.option e.isAlternation).pattern) := by
          simp [phrase, Phrase.pattern, optionPatterns_eq_map, phraseOptions_eq_map,
            Function.comp_def]
        rwa [h]
  | repetition e bounds kind ih =>
    obtain ⟨kind', hpattern, hkind⟩ := bounds.pattern_head kind e.phrase.pattern
    have h : (repetition e bounds kind).phrase.pattern =
        repetition e.phrase.pattern bounds kind' := hpattern
    rw [h]
    exact (ih he).repetition hkind
  | lookAhead negative e ih => exact (ih he).lookAhead negative
  | lookBehind negative e ih => exact (ih he).lookBehind negative
  | anchor a => exact .refl rfl
  | foreign c => cases he

/-- Patterns over numbers that are spelled out and have the same text have the same matches, in the
same order, everywhere in every sequence. -/
theorem matches_told_by_text {e f : Expression Int} (he : e.isSpelledOut = true)
    (hf : f.isSpelledOut = true) (h : e.text = f.text) (xs : Array Int) (hxs : xs.size ≤ maxSize)
    (i : Nat) : ∃ ms, e.Enumerates xs i ms ∧ f.Enumerates xs i ms := by
  have hchars : e.phrase.chars = f.phrase.chars := by
    rw [← toList_text he, ← toList_text hf, h]
  have hsame := sameMeaning_pattern he
  rw [Phrase.chars_inj hchars] at hsame
  exact (hsame.trans (sameMeaning_pattern hf).symm).enumerate hxs i

/-- Two patterns with the text `((1 || 2), is_not_after(repeat(![3], 2)))`. -/
theorem matches_told_by_text_parentheses :
    let e : Expression Int := sequence [alternation [alternation [value 1, value 2]],
      lookBehind true (repetition (element (.noneOf [.value 3])) { min := 2, max := 2 } .lazy)]
    let f : Expression Int := sequence [sequence [alternation [value 1, value 2]],
      lookBehind true (times (element (.not (.oneOf [.value 3]))) 2)]
    e.text = f.text ∧
      e.Enumerates #[3, 1, 2] 1 [⟨1, 1, true⟩] ∧ f.Enumerates #[3, 1, 2] 1 [⟨1, 1, true⟩] := by
  intro e f
  have htext : e.text = f.text := rfl
  obtain ⟨ms, he, hf⟩ :=
    matches_told_by_text (by decide) (by decide) htext #[3, 1, 2] (by decide) 1
  obtain rfl : ms = [⟨1, 1, true⟩] := he.unique (enumerates_ends (by decide) (by decide) 1)
  exact ⟨htext, he, hf⟩

end Expression

end SeqPattern
