import Mathlib.Tactic.SplitIfs
import SeqPattern.Proofs.Patterns
import SeqPattern.Proofs.UniqueReading

namespace SeqPattern

theorem intercalate_eq_separated (sep : List Char) (css : List (List Char)) :
    sep.intercalate css = separated sep css := by
  cases css with
  | nil => rfl
  | cons cs css =>
    induction css generalizing cs with
    | nil => simp [separated]
    | cons ds css ih =>
      rw [List.intercalate_cons_cons, ih]
      simp [separated]

theorem ElementClass.induct {α : Type} {motive : ElementClass α → Prop} (any : motive any)
    (value : ∀ a, motive (value a)) (predicate : ∀ label holds, motive (predicate label holds))
    (oneOf : ∀ cs, (∀ c ∈ cs, motive c) → motive (oneOf cs))
    (noneOf : ∀ cs, (∀ c ∈ cs, motive c) → motive (noneOf cs))
    (not : ∀ c, motive c → motive (not c))
    (probing : ∀ name holds probe, motive (probing name holds probe)) (c : ElementClass α) :
    motive c :=
  @ElementClass.rec α motive (fun cs => ∀ c ∈ cs, motive c) any value predicate oneOf noneOf not
    probing (by simp) (fun c cs hc hcs => List.forall_mem_cons.mpr ⟨hc, hcs⟩) c

namespace ElementClass

theorem allSpelledOut_iff {α : Type} {cs : List (ElementClass α)} :
    allSpelledOut cs = true ↔ ∀ c ∈ cs, c.isSpelledOut = true := by
  induction cs with
  | nil => simp [allSpelledOut]
  | cons c cs ih => simp [allSpelledOut, ih]

theorem names_eq_map {α : Type} [Shown α] (cs : List (ElementClass α)) :
    names cs = cs.map name := by
  induction cs with
  | nil => rfl
  | cons c cs ih => rw [names, ih, List.map_cons]

theorem terms_eq_map (cs : List (ElementClass Int)) : terms cs = cs.map term := by
  induction cs with
  | nil => rfl
  | cons c cs ih => rw [terms, ih, List.map_cons]

theorem toList_listing {cs : List (ElementClass Int)}
    (h : ∀ c ∈ cs, c.name.toList = c.term.chars) :
    (Text.listing (names cs)).toList = (Term.listing (terms cs)).chars := by
  have hmap : cs.map (fun c => c.name.toList) = cs.map fun c => c.term.chars :=
    List.map_congr_left h
  simp [Text.listing, Term.chars, intercalate_eq_separated, names_eq_map, terms_eq_map,
    Function.comp_def, hmap, comma]

theorem toList_name {c : ElementClass Int} (hc : c.isSpelledOut = true) :
    c.name.toList = c.term.chars := by
  induction c using induct with
  | any => rfl
  | value a => rfl
  | predicate label holds => cases hc
  | probing name holds probe => cases hc
  | oneOf cs ih =>
    exact toList_listing fun c hmem => ih c hmem (allSpelledOut_iff.mp hc c hmem)
  | noneOf cs ih =>
    have hlisting := toList_listing fun c hmem => ih c hmem (allSpelledOut_iff.mp hc c hmem)
    simp [name, term, Term.chars, hlisting]
  | not c ih => simp [name, term, Term.chars, ih hc]

end ElementClass

theorem Bounds.toList_text (b : Bounds) (kind : RepetitionKind) {child : String} {p : Phrase}
    (h : child.toList = p.chars) :
    (b.text kind child).toList = (Term.call (b.head kind).1 p (b.head kind).2).chars := by
  have hsame (s : String) : toString s = s := rfl
  unfold Bounds.text Bounds.head
  cases kind <;> dsimp only <;> split_ifs <;>
    simp [Term.chars, hsame, h, Head.name, count, comma]

namespace Expression

theorem isSpelledOut_sequence {α : Type} {es : List (Expression α)} :
    (sequence es).isSpelledOut = true ↔ ∀ e ∈ es, e.isSpelledOut = true :=
  everyNodeOf_iff

theorem isSpelledOut_alternation {α : Type} {es : List (Expression α)} :
    (alternation es).isSpelledOut = true ↔ ∀ e ∈ es, e.isSpelledOut = true :=
  everyNodeOf_iff

section Lists

variable (es : List (Expression Int))

theorem texts_eq_map : texts es = es.map text := by
  induction es with
  | nil => rfl
  | cons e es ih => rw [texts, ih, List.map_cons]

theorem optionTexts_eq_map :
    optionTexts es = es.map fun e => if e.isAlternation then "(" ++ e.text ++ ")" else e.text := by
  induction es with
  | nil => rfl
  | cons e es ih => rw [optionTexts, ih, List.map_cons]

theorem phrases_eq_map : phrases es = es.map phrase := by
  induction es with
  | nil => rfl
  | cons e es ih => rw [phrases, ih, List.map_cons]

theorem phraseOptions_eq_map :
    phraseOptions es = es.map fun e => e.phrase.option e.isAlternation := by
  induction es with
  | nil => rfl
  | cons e es ih => rw [phraseOptions, ih, List.map_cons]

end Lists

theorem phrase_eq_of_not_isAlternation {e : Expression Int} (h : e.isAlternation = false) :
    e.phrase = .mk e.phrase.first [] := by
  cases e with
  | alternation es => cases h
  | element c | sequence es | repetition e bounds kind | lookAhead negative e
  | lookBehind negative e | anchor a | foreign c => rfl

theorem toList_option {e : Expression Int} (h : e.text.toList = e.phrase.chars) :
    (if e.isAlternation then "(" ++ e.text ++ ")" else e.text).toList =
      (e.phrase.option e.isAlternation).chars := by
  cases ha : e.isAlternation with
  | true => simp [Phrase.option, Term.chars, h, separated]
  | false =>
    rw [phrase_eq_of_not_isAlternation ha] at h
    simpa [Phrase.option, Phrase.chars, separated] using! h

/-- The text of a pattern that is spelled out is taken apart as it says. -/
theorem toList_text {e : Expression Int} (he : e.isSpelledOut = true) :
    e.text.toList = e.phrase.chars := by
  induction e with
  | element c =>
    have hname := ElementClass.toList_name he
    simpa [text, phrase, Phrase.chars, separated] using hname
  | sequence es ih =>
    have htexts : es.map (fun e => e.text.toList) = es.map fun e => e.phrase.chars :=
      List.map_congr_left fun e hmem => ih e hmem (isSpelledOut_sequence.mp he e hmem)
    simp [text, phrase, Phrase.chars, Term.chars, separated, intercalate_eq_separated,
      texts_eq_map, phrases_eq_map, Function.comp_def, htexts, comma]
  | alternation es ih =>
    have hoptions : (optionTexts es).map String.toList = (phraseOptions es).map Term.chars := by
      rw [optionTexts_eq_map, phraseOptions_eq_map, List.map_map, List.map_map]
      exact List.map_congr_left fun e hmem =>
        toList_option (ih e hmem (isSpelledOut_alternation.mp he e hmem))
    cases es with
    | nil => rfl
    | cons e es =>
      rw [text, phrase, String.toList_intercalate, intercalate_eq_separated, hoptions, Phrase.chars,
        termsChars_eq_map]
      rfl
  | repetition e bounds kind ih =>
    have htext := bounds.toList_text kind (ih he)
    simpa [text, phrase, Phrase.chars, separated] using htext
  | lookAhead negative e ih | lookBehind negative e ih =>
    cases negative <;>
      simp [text, phrase, Phrase.chars, Term.chars, Head.name, separated, ih he]
  | anchor a => simp [text, phrase, Phrase.chars, Term.chars, Atom.chars, separated]
  | foreign c => cases he

end Expression

end SeqPattern
