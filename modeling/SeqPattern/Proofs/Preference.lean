import Mathlib.Data.List.Forall2
import SeqPattern.Meaning.Preference
import SeqPattern.Proofs.Searching

namespace SeqPattern

open Search

section Rounds

/-- The stops of a repetition depend on the order of its child's stops in nothing but their own. -/
theorem greedyEnds_perm {child child' : Nat → List Nat} (h : ∀ p, (child p).Perm (child' p))
    (bound need p : Nat) :
    (greedyEnds child bound need p).Perm (greedyEnds child' bound need p) := by
  induction bound generalizing need p with
  | zero => exact .refl _
  | succ bound ih =>
    rw [greedyEnds, greedyEnds]
    exact ((h p).filter _ |>.flatMap fun q _ => ih (need - 1) q).append_right _

theorem repeatedStops_perm {child child' : Nat → List Nat} (h : ∀ p, (child p).Perm (child' p))
    (kind kind' : RepetitionKind) (bounds : Bounds) (p : Nat) :
    (repeatedStops kind child bounds p).Perm (repeatedStops kind' child' bounds p) := by
  have hgreedy (kind : RepetitionKind) (child : Nat → List Nat) :
      (repeatedStops kind child bounds p).Perm (greedyEnds child bounds.max bounds.min p) := by
    cases kind with
    | lazy => exact lazyEnds_perm_greedyEnds child bounds.max bounds.min p
    | greedy => exact .refl _
  exact (hgreedy kind child).trans
    ((greedyEnds_perm h bounds.max bounds.min p).trans (hgreedy kind' child').symm)

end Rounds

theorem chainStops_perm {α : Type} {stops : Expression α → Nat → List Nat}
    {es fs : List (Expression α)}
    (h : List.Forall₂ (fun e f => ∀ p, (stops e p).Perm (stops f p)) es fs) (p : Nat) :
    (chainStops stops es p).Perm (chainStops stops fs p) := by
  induction h generalizing p with
  | nil => exact .refl _
  | cons he _ ih => exact (he p).flatMap fun q _ => ih q

theorem flatMap_perm_of_forall₂ {α : Type} {stops : Expression α → List Nat}
    {es fs : List (Expression α)}
    (h : List.Forall₂ (fun e f => (stops e).Perm (stops f)) es fs) :
    (es.flatMap stops).Perm (fs.flatMap stops) := by
  induction h with
  | nil => exact .refl _
  | cons he _ ih =>
    rw [List.flatMap_cons, List.flatMap_cons]
    exact he.append ih

section Pointwise

variable {β γ : Type} {R S : β → γ → Prop} {bs : List β} {cs : List γ}

theorem isEmpty_of_forall₂ (h : List.Forall₂ R bs cs) : bs.isEmpty = cs.isEmpty := by
  cases h <;> rfl

theorem forall₂_of_exists (h : List.Forall₂ (fun b c => ∃ _ : R b c, S b c) bs cs) :
    List.Forall₂ S bs cs :=
  h.imp fun _ _ hS => hS.choose_spec

end Pointwise

namespace Expression

variable {α : Type}

section Rearranged

@[elab_as_elim, induction_eliminator]
theorem Rearranged.induct {motive : (e f : Expression α) → e.Rearranged f → Prop}
    (element : ∀ c, motive _ _ (.element c))
    (sequence : ∀ {es fs} (h : List.Forall₂ Rearranged es fs),
      List.Forall₂ (fun e f => ∃ h, motive e f h) es fs → motive _ _ (.sequence h))
    (alternation : ∀ {es fs gs} (h : List.Forall₂ Rearranged es fs) (order : fs.Perm gs),
      List.Forall₂ (fun e f => ∃ h, motive e f h) es fs → motive _ _ (.alternation h order))
    (repetition : ∀ {e f} (h : e.Rearranged f) (bounds kind kind'), motive e f h →
      motive _ _ (.repetition h bounds kind kind'))
    (lookAhead : ∀ {e f} (negative) (h : e.Rearranged f), motive e f h →
      motive _ _ (.lookAhead negative h))
    (lookBehind : ∀ {e f} (negative) (h : e.Rearranged f), motive e f h →
      motive _ _ (.lookBehind negative h))
    (anchor : ∀ a, motive _ _ (.anchor a)) (foreign : ∀ c, motive _ _ (.foreign c))
    {e f : Expression α} (h : e.Rearranged f) : motive e f h :=
  @Rearranged.rec α motive (fun es fs _ => List.Forall₂ (fun e f => ∃ h, motive e f h) es fs)
    element sequence alternation repetition lookAhead lookBehind anchor foreign .nil
    (fun h _ he hes => .cons ⟨h, he⟩ hes) e f h

@[refl]
theorem Rearranged.refl (e : Expression α) : e.Rearranged e := by
  induction e with
  | element c => exact .element c
  | sequence es ih => exact .sequence (List.forall₂_same.mpr ih)
  | alternation es ih => exact .alternation (List.forall₂_same.mpr ih) (.refl es)
  | repetition e bounds kind ih => exact .repetition ih bounds kind kind
  | lookAhead negative e ih => exact .lookAhead negative ih
  | lookBehind negative e ih => exact .lookBehind negative ih
  | anchor a => exact .anchor a
  | foreign c => exact .foreign c

variable {es fs : List (Expression α)}

theorem exists_mem_iff_of_forall₂ {P Q : Expression α → Prop}
    (h : List.Forall₂ (fun e f => P e ↔ Q f) es fs) : (∃ e ∈ es, P e) ↔ ∃ f ∈ fs, Q f := by
  induction h with
  | nil => simp
  | cons he _ ih => simp only [List.exists_mem_cons_iff, he, ih]

theorem forall_mem_iff_of_forall₂ {P Q : Expression α → Prop}
    (h : List.Forall₂ (fun e f => P e ↔ Q f) es fs) : (∀ e ∈ es, P e) ↔ ∀ f ∈ fs, Q f := by
  induction h with
  | nil => simp
  | cons he _ ih => simp only [List.forall_mem_cons, he, ih]

theorem isPlain_iff_of_rearranged {e f : Expression α} (h : e.Rearranged f) :
    e.isPlain = true ↔ f.isPlain = true := by
  induction h with
  | element c | anchor a | foreign c => rfl
  | sequence h ih =>
    rw [isPlain_sequence, isPlain_sequence]
    exact forall_mem_iff_of_forall₂ (forall₂_of_exists ih)
  | alternation h order ih =>
    rw [isPlain_alternation, isPlain_alternation,
      forall_mem_iff_of_forall₂ (forall₂_of_exists ih)]
    simp only [order.mem_iff]
  | repetition h bounds kind kind' ih | lookAhead negative h ih | lookBehind negative h ih =>
    exact ih

theorem fitTogether_iff_of_forall₂
    (h : List.Forall₂ (fun e f => ∀ room n, e.Fits room n ↔ f.Fits room n) es fs) (room n : Nat) :
    FitTogether es room n ↔ FitTogether fs room n := by
  induction h generalizing room n with
  | nil => rfl
  | cons he _ ih => simp only [FitTogether, he, ih]

theorem fits_iff_of_rearranged {e f : Expression α} (h : e.Rearranged f) (room n : Nat) :
    e.Fits room n ↔ f.Fits room n := by
  induction h generalizing room n with
  | element c | anchor a | foreign c => rfl
  | sequence h ih =>
    rw [Fits, Fits]
    exact fitTogether_iff_of_forall₂ (forall₂_of_exists ih) room n
  | alternation h order ih =>
    have hsome := exists_mem_iff_of_forall₂ ((forall₂_of_exists ih).imp fun _ _ h => h room n)
    have hnil := isEmpty_of_forall₂ h
    rw [order.isEmpty_eq, Bool.eq_iff_iff, List.isEmpty_iff, List.isEmpty_iff] at hnil
    rw [fits_alternation, fits_alternation, hsome, hnil]
    simp only [order.mem_iff]
  | repetition h bounds kind kind' ih => simp only [Fits, ih]
  | lookAhead negative h ih | lookBehind negative h ih => simp only [Fits, ih]

theorem mem_lengths_iff_of_rearranged {e f : Expression α} (he : e.isPlain = true)
    (h : e.Rearranged f) (max n : Nat) :
    n ∈ (e.lengths max).toList ↔ n ∈ (f.lengths max).toList := by
  rw [mem_lengths_iff_fits he, mem_lengths_iff_fits ((isPlain_iff_of_rearranged h).mp he)]
  exact fits_iff_of_rearranged h max n

end Rearranged

variable [BEq α] {xs : Array α}

section Assertions

variable {e f : Expression α}

theorem ends_lookAhead_eq {p : Nat} (h : (e.ends xs p).Perm (f.ends xs p)) (negative : Bool) :
    (lookAhead negative e).ends xs p = (lookAhead negative f).ends xs p := by
  rw [ends, ends, h.isEmpty_eq]

theorem ends_lookBehind_eq {p : Nat} (h : ∀ q, (e.ends xs q).Perm (f.ends xs q))
    (hfits : ∀ n, e.Fits p n ↔ f.Fits p n) (negative : Bool) :
    (lookBehind negative e).ends xs p = (lookBehind negative f).ends xs p := by
  simp only [ends, hfits, (h _).mem_iff]

end Assertions

theorem ends_perm_of_rearranged (xs : Array α) {e f : Expression α} (h : e.Rearranged f)
    (p : Nat) : (e.ends xs p).Perm (f.ends xs p) := by
  induction h generalizing p with
  | element c | anchor a | foreign c => exact .refl _
  | sequence h ih =>
    rw [ends_sequence, ends_sequence]
    split
    · exact chainStops_perm (forall₂_of_exists ih) p
    · exact .refl _
  | alternation h order ih =>
    have hends := flatMap_perm_of_forall₂ ((forall₂_of_exists ih).imp fun _ _ h => h p)
    rw [ends_alternation, ends_alternation, isEmpty_of_forall₂ h, order.isEmpty_eq]
    split
    · exact .refl _
    · exact hends.trans (order.flatMap_right _)
  | repetition h bounds kind kind' ih =>
    rw [ends_repetition, ends_repetition]
    split
    · exact repeatedStops_perm ih kind kind' bounds p
    · exact .refl _
  | lookAhead negative h ih =>
    rw [ends_lookAhead_eq (ih p)]
  | lookBehind negative h ih =>
    rw [ends_lookBehind_eq ih (fits_iff_of_rearranged h p)]

/-- Whether two patterns answer alike wherever they are asked, with the same matches in the same
order. -/
structure Alike (xs : Array α) (e f : Expression α) : Prop where
  same_matches : ∀ i, ∃ ms, e.Enumerates xs i ms ∧ f.Enumerates xs i ms
  same_outcome : ∀ i, ∃ r, Settles xs (fun fuel => e.matchAt? fuel i) r ∧
    Settles xs (fun fuel => f.matchAt? fuel i) r

section Verdicts

variable (hxs : xs.size ≤ maxSize)

omit [BEq α] in
theorem not_isEmpty_ite (c : Prop) [Decidable c] (p : Nat) :
    (!(if c then [p] else []).isEmpty) = decide c := by
  by_cases h : c <;> simp [h]

include hxs

theorem settles_matchAt?_lookAhead {e : Expression α} (he : e.isPlain = true) (negative : Bool)
    (i : Nat) :
    Settles xs (fun fuel => (lookAhead negative e).matchAt? fuel i)
      (some (.zeroWidth (!((lookAhead negative e).ends xs i).isEmpty))) := by
  have h := (Children.settles_assertAhead (enumerates_ends hxs he i) negative).map some
  rw [List.isEmpty_map] at h
  rw [ends, not_isEmpty_ite, Bool.decide_eq_true]
  exact h

theorem settles_matchAt?_lookBehind {e : Expression α} (he : e.isPlain = true) (negative : Bool)
    (i : Nat) :
    Settles xs (fun fuel => (lookBehind negative e).matchAt? fuel i)
      (some (.zeroWidth (!((lookBehind negative e).ends xs i).isEmpty))) := by
  have h := (settles_assertBehind_fits he (leadsTo_ends hxs he) negative i).map some
  rw [ends, not_isEmpty_ite]
  exact h

theorem alike_lookAhead {e f : Expression α} (he : e.isPlain = true) (h : e.Rearranged f)
    (negative : Bool) : (lookAhead negative e).Alike xs (lookAhead negative f) := by
  have hf := (isPlain_iff_of_rearranged h).mp he
  have hends (i : Nat) := ends_lookAhead_eq (ends_perm_of_rearranged xs h i) negative
  constructor <;> intro i
  · exact ⟨_, enumerates_ends hxs (isPlain_lookAhead.mpr he) i,
      hends i ▸ enumerates_ends hxs (isPlain_lookAhead.mpr hf) i⟩
  · exact ⟨_, settles_matchAt?_lookAhead hxs he negative i,
      hends i ▸ settles_matchAt?_lookAhead hxs hf negative i⟩

theorem alike_lookBehind {e f : Expression α} (he : e.isPlain = true) (h : e.Rearranged f)
    (negative : Bool) : (lookBehind negative e).Alike xs (lookBehind negative f) := by
  have hf := (isPlain_iff_of_rearranged h).mp he
  have hends (i : Nat) := ends_lookBehind_eq (ends_perm_of_rearranged xs h)
    (fits_iff_of_rearranged h i) negative
  constructor <;> intro i
  · exact ⟨_, enumerates_ends hxs (isPlain_lookBehind.mpr he) i,
      hends i ▸ enumerates_ends hxs (isPlain_lookBehind.mpr hf) i⟩
  · exact ⟨_, settles_matchAt?_lookBehind hxs he negative i,
      hends i ▸ settles_matchAt?_lookBehind hxs hf negative i⟩

end Verdicts

theorem isEmpty_scanned_eq {e f : Expression α} (h : ∀ p, (e.ends xs p).Perm (f.ends xs p))
    (p : Nat) : (e.scanned xs p).isEmpty = (f.scanned xs p).isEmpty := by
  rw [Bool.eq_iff_iff, List.isEmpty_iff, List.isEmpty_iff, scanned, scanned, leftmost_eq_nil_iff,
    leftmost_eq_nil_iff]
  simp only [List.head?_eq_none_iff, ← List.isEmpty_iff, (h _).isEmpty_eq]

/-- Patterns that differ in nothing but the kinds of repetitions and the order of options have the
same matches, as often, and tell the same lengths. So they occur at the same positions, and it makes
no difference which of them is asserted. -/
theorem enumerations_perm_of_rearranged {e f : Expression α} (he : e.isPlain = true)
    (h : e.Rearranged f) (xs : Array α) (hxs : xs.size ≤ maxSize) :
    (∀ i, ∃ ms ns, e.Enumerates xs i ms ∧ f.Enumerates xs i ns ∧ ms.Perm ns) ∧
    (∀ max n, n ∈ (e.lengths max).toList ↔ n ∈ (f.lengths max).toList) ∧
    (∃ found, Settles xs (fun fuel => e.occurs fuel) (.ok found) ∧
      Settles xs (fun fuel => f.occurs fuel) (.ok found)) ∧
    (∀ i, ∃ found, Settles xs (fun fuel => e.occursAt fuel i) found ∧
      Settles xs (fun fuel => f.occursAt fuel i) found) ∧
    ∀ negative, (lookAhead negative e).Alike xs (lookAhead negative f) ∧
      (lookBehind negative e).Alike xs (lookBehind negative f) := by
  have hf := (isPlain_iff_of_rearranged h).mp he
  have hends (p : Nat) := ends_perm_of_rearranged xs h p
  refine ⟨fun i => ?_, mem_lengths_iff_of_rearranged he h, ?_, fun i => ?_, fun negative => ?_⟩
  · exact ⟨_, _, enumerates_ends hxs he i, enumerates_ends hxs hf i, (hends i).map _⟩
  · exact ⟨_, settles_occurs hxs he, isEmpty_scanned_eq hends 0 ▸ settles_occurs hxs hf⟩
  · exact ⟨_, settles_occursAt hxs he i, (hends i).isEmpty_eq ▸ settles_occursAt hxs hf i⟩
  · exact ⟨alike_lookAhead hxs he h negative, alike_lookBehind hxs he h negative⟩

/-- Rounds of one or two elements, with the longer round preferred in one and the fewer rounds in
the other. -/
theorem enumerations_perm_of_rearranged_rounds :
    ∃ ms ns : List Match,
      (zeroOrMore (alternation [values [1, 1], value 1])).Enumerates #[1, 1, 1] 0 ms ∧
      (zeroOrMore (alternation [value 1, values [1, 1]]) .lazy).Enumerates #[1, 1, 1] 0 ns ∧
      ms.Perm ns :=
  (enumerations_perm_of_rearranged (by decide)
    (.repetition (.alternation (List.forall₂_same.mpr fun e _ => .refl e) (.swap _ _ _)) _ _ _)
    #[1, 1, 1] (by decide)).1 0

end Expression

end SeqPattern
