import SeqPattern.Expression.Nodes
import SeqPattern.Expression.Placement

namespace SeqPattern.Expression

variable {α : Type}

/-- A property of patterns holds of a composite when it holds of its parts. -/
@[elab_as_elim, induction_eliminator]
theorem induct {motive : Expression α → Prop}
    (element : ∀ c, motive (element c))
    (sequence : ∀ es, (∀ e ∈ es, motive e) → motive (sequence es))
    (alternation : ∀ es, (∀ e ∈ es, motive e) → motive (alternation es))
    (repetition : ∀ e bounds kind, motive e → motive (repetition e bounds kind))
    (lookAhead : ∀ negative e, motive e → motive (lookAhead negative e))
    (lookBehind : ∀ negative e, motive e → motive (lookBehind negative e))
    (anchor : ∀ a, motive (anchor a)) (foreign : ∀ c, motive (foreign c))
    (e : Expression α) : motive e :=
  @Expression.rec α motive (fun es => ∀ e ∈ es, motive e) element sequence alternation repetition
    lookAhead lookBehind anchor foreign (by simp)
    (fun e es he hes => List.forall_mem_cons.mpr ⟨he, hes⟩) e

section Nodes

variable {p : Expression α → Bool}

theorem everyNodeOf_iff {es : List (Expression α)} :
    everyNodeOf p es = true ↔ ∀ e ∈ es, e.everyNode p = true := by
  induction es with
  | nil => simp [everyNodeOf]
  | cons e es ih => simp [everyNodeOf, ih]

theorem everyNode_of_mem_inside {e f : Expression α} (h : e.everyNode p = true)
    (hf : f ∈ e.inside) : f.everyNode p = true := by
  cases e with
  | element c | anchor a | foreign c => cases hf
  | sequence es | alternation es =>
    rw [everyNode, Bool.and_eq_true] at h
    exact everyNodeOf_iff.mp h.2 f hf
  | repetition e bounds kind | lookAhead negative e | lookBehind negative e =>
    rw [everyNode, Bool.and_eq_true] at h
    exact List.mem_singleton.mp hf ▸ h.2

theorem everyNode_mono {q : Expression α → Bool} (hpq : ∀ d, p d = true → q d = true)
    {e : Expression α} (h : e.everyNode p = true) : e.everyNode q = true := by
  induction e with
  | element c | anchor a | foreign c => exact hpq _ h
  | sequence es ih | alternation es ih =>
    rw [everyNode, Bool.and_eq_true, everyNodeOf_iff] at h ⊢
    exact ⟨hpq _ h.1, fun e he => ih e he (h.2 e he)⟩
  | repetition e bounds kind ih | lookAhead negative e ih | lookBehind negative e ih =>
    rw [everyNode, Bool.and_eq_true] at h ⊢
    exact ⟨hpq _ h.1, ih h.2⟩

@[simp]
theorem isPlain_element {c : ElementClass α} :
    (element c).isPlain = true ↔ c.isProbing = false :=
  iff_of_eq (Bool.not_eq_true' c.isProbing)

@[simp]
theorem isPlain_sequence {es : List (Expression α)} :
    (sequence es).isPlain = true ↔ ∀ e ∈ es, e.isPlain = true :=
  everyNodeOf_iff

@[simp]
theorem isPlain_alternation {es : List (Expression α)} :
    (alternation es).isPlain = true ↔ ∀ e ∈ es, e.isPlain = true :=
  everyNodeOf_iff

@[simp]
theorem isPlain_repetition {e : Expression α} {bounds : Bounds} {kind : RepetitionKind} :
    (repetition e bounds kind).isPlain = true ↔ e.isPlain = true :=
  Iff.rfl

@[simp]
theorem isPlain_lookAhead {negative : Bool} {e : Expression α} :
    (lookAhead negative e).isPlain = true ↔ e.isPlain = true :=
  Iff.rfl

@[simp]
theorem isPlain_lookBehind {negative : Bool} {e : Expression α} :
    (lookBehind negative e).isPlain = true ↔ e.isPlain = true :=
  Iff.rfl

@[simp]
theorem not_isPlain_foreign {c : Foreign α} : (foreign c).isPlain = false := rfl

@[simp]
theorem isTested_sequence {es : List (Expression α)} :
    (sequence es).isTested = true ↔ ∀ e ∈ es, e.isTested = true :=
  everyNodeOf_iff

@[simp]
theorem isTested_alternation {es : List (Expression α)} :
    (alternation es).isTested = true ↔ ∀ e ∈ es, e.isTested = true :=
  everyNodeOf_iff

@[simp]
theorem isTested_repetition {e : Expression α} {bounds : Bounds} {kind : RepetitionKind} :
    (repetition e bounds kind).isTested = true ↔ e.isTested = true :=
  Iff.rfl

@[simp]
theorem isTested_lookAhead {negative : Bool} {e : Expression α} :
    (lookAhead negative e).isTested = true ↔ e.isTested = true :=
  Iff.rfl

@[simp]
theorem isTested_lookBehind {negative : Bool} {e : Expression α} :
    (lookBehind negative e).isTested = true ↔ e.isTested = true :=
  Iff.rfl

@[simp]
theorem isTested_foreign {c : Foreign α} :
    (foreign c).isTested = true ↔ c.candidates = none := by
  rw [← Option.isNone_iff_eq_none, ← Option.not_isSome]
  rfl

theorem isTested_of_isPlain {e : Expression α} (h : e.isPlain = true) : e.isTested = true := by
  refine everyNode_mono (fun d hd => ?_) h
  cases d <;> simp_all [asksItself, enumeratesItself]

@[simp]
theorem isLookBehindFree_sequence {es : List (Expression α)} :
    (sequence es).isLookBehindFree = true ↔ ∀ e ∈ es, e.isLookBehindFree = true :=
  everyNodeOf_iff

@[simp]
theorem isLookBehindFree_alternation {es : List (Expression α)} :
    (alternation es).isLookBehindFree = true ↔ ∀ e ∈ es, e.isLookBehindFree = true :=
  everyNodeOf_iff

@[simp]
theorem isLookBehindFree_repetition {e : Expression α} {bounds : Bounds}
    {kind : RepetitionKind} :
    (repetition e bounds kind).isLookBehindFree = true ↔ e.isLookBehindFree = true :=
  Iff.rfl

@[simp]
theorem isLookBehindFree_lookAhead {negative : Bool} {e : Expression α} :
    (lookAhead negative e).isLookBehindFree = true ↔ e.isLookBehindFree = true :=
  Iff.rfl

@[simp]
theorem not_isLookBehindFree_lookBehind {negative : Bool} {e : Expression α} :
    (lookBehind negative e).isLookBehindFree = false := rfl

@[simp]
theorem isAssertionFree_sequence {es : List (Expression α)} :
    (sequence es).isAssertionFree = true ↔ ∀ e ∈ es, e.isAssertionFree = true :=
  everyNodeOf_iff

@[simp]
theorem isAssertionFree_alternation {es : List (Expression α)} :
    (alternation es).isAssertionFree = true ↔ ∀ e ∈ es, e.isAssertionFree = true :=
  everyNodeOf_iff

@[simp]
theorem isAssertionFree_repetition {e : Expression α} {bounds : Bounds}
    {kind : RepetitionKind} :
    (repetition e bounds kind).isAssertionFree = true ↔ e.isAssertionFree = true :=
  Iff.rfl

@[simp]
theorem not_isAssertionFree_lookAhead {negative : Bool} {e : Expression α} :
    (lookAhead negative e).isAssertionFree = false := rfl

@[simp]
theorem not_isAssertionFree_lookBehind {negative : Bool} {e : Expression α} :
    (lookBehind negative e).isAssertionFree = false := rfl

end Nodes

section Placement

theorem allPlaceable_iff {es : List (Expression α)} :
    allPlaceable es = true ↔ ∀ e ∈ es, e.isPlaceable = true := by
  induction es with
  | nil => simp [allPlaceable]
  | cons e es ih => simp [allPlaceable, ih]

theorem someHaveAnyLength_eq_false_iff {es : List (Expression α)} :
    someHaveAnyLength es = false ↔ ∀ e ∈ es, e.anyLength = false := by
  induction es with
  | nil => simp [someHaveAnyLength]
  | cons e es ih => simp [someHaveAnyLength, ih]

theorem isPlaceable_of_isPlain {e : Expression α} (h : e.isPlain = true) :
    e.isPlaceable = true := by
  induction e with
  | element c => simp only [isPlaceable]
  | sequence es ih | alternation es ih =>
    simp only [isPlain_sequence, isPlain_alternation] at h
    rw [isPlaceable, allPlaceable_iff]
    exact fun e he => ih e he (h e he)
  | repetition e bounds kind ih | lookAhead negative e ih | lookBehind negative e ih =>
    rw [isPlaceable]
    exact ih (by simpa using h)
  | anchor a => simp only [isPlaceable]
  | foreign c => simp at h

theorem anyLength_of_isPlain {e : Expression α} (h : e.isPlain = true) :
    e.anyLength = false := by
  induction e with
  | sequence es ih | alternation es ih =>
    simp only [isPlain_sequence, isPlain_alternation] at h
    rw [anyLength, someHaveAnyLength_eq_false_iff]
    exact fun e he => ih e he (h e he)
  | repetition e bounds kind ih =>
    rw [anyLength]
    exact ih (by simpa using h)
  | foreign c => simp at h
  | element c | lookAhead negative e | lookBehind negative e | anchor a => simp only [anyLength]

end Placement

end SeqPattern.Expression
