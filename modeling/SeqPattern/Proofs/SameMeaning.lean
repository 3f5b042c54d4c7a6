import SeqPattern.Proofs.Preference
import SeqPattern.Proofs.Unrolling

namespace SeqPattern.Expression

variable {α : Type} [BEq α]

/-- Plain patterns with the same ends everywhere, for which the same lengths fit. -/
structure SameMeaning (e f : Expression α) : Prop where
  left : e.isPlain = true
  right : f.isPlain = true
  ends_eq : ∀ xs : Array α, xs.size ≤ maxSize → e.ends xs = f.ends xs
  fits_iff : ∀ room n, e.Fits room n ↔ f.Fits room n

section SameMeaning

variable {e f g : Expression α} {es : List (Expression α)}

theorem SameMeaning.refl (h : e.isPlain = true) : e.SameMeaning e :=
  ⟨h, h, fun _ _ => rfl, fun _ _ => Iff.rfl⟩

theorem SameMeaning.symm (h : e.SameMeaning f) : f.SameMeaning e :=
  ⟨h.right, h.left, fun xs hxs => (h.ends_eq xs hxs).symm, fun room n => (h.fits_iff room n).symm⟩

theorem SameMeaning.trans (h : e.SameMeaning f) (h' : f.SameMeaning g) : e.SameMeaning g :=
  ⟨h.left, h'.right, fun xs hxs => (h.ends_eq xs hxs).trans (h'.ends_eq xs hxs),
    fun room n => (h.fits_iff room n).trans (h'.fits_iff room n)⟩

theorem SameMeaning.enumerate (h : e.SameMeaning f) {xs : Array α} (hxs : xs.size ≤ maxSize)
    (i : Nat) : ∃ ms, e.Enumerates xs i ms ∧ f.Enumerates xs i ms := by
  have hleft := enumerates_ends hxs h.left i
  rw [h.ends_eq xs hxs] at hleft
  exact ⟨_, hleft, enumerates_ends hxs h.right i⟩

theorem SameMeaning.lookAhead (h : e.SameMeaning f) (negative : Bool) :
    (lookAhead negative e).SameMeaning (lookAhead negative f) where
  left := h.left
  right := h.right
  ends_eq := fun xs hxs => by
    funext p
    exact ends_lookAhead_eq (h.ends_eq xs hxs ▸ List.Perm.refl _) negative
  fits_iff := fun room n => by simp only [Fits, h.fits_iff]

theorem SameMeaning.lookBehind (h : e.SameMeaning f) (negative : Bool) :
    (lookBehind negative e).SameMeaning (lookBehind negative f) where
  left := h.left
  right := h.right
  ends_eq := fun xs hxs => by
    funext p
    exact ends_lookBehind_eq (fun q => h.ends_eq xs hxs ▸ List.Perm.refl _) (h.fits_iff p) negative
  fits_iff := fun room n => by simp only [Fits, h.fits_iff]

omit [BEq α] in
theorem repeatedStops_of_min_eq_max {bounds : Bounds} (h : bounds.min = bounds.max)
    (child : Nat → List Nat) (kind : RepetitionKind) :
    repeatedStops kind child bounds = greedyEnds child bounds.max bounds.min := by
  cases kind with
  | greedy => rfl
  | lazy =>
    funext p
    rw [repeatedStops, h, lazyEnds_self_eq_greedyEnds]

theorem SameMeaning.repetition (h : e.SameMeaning f) {bounds : Bounds} {kind kind' : RepetitionKind}
    (hkind : kind' = kind ∨ bounds.min = bounds.max) :
    (repetition e bounds kind).SameMeaning (repetition f bounds kind') where
  left := h.left
  right := h.right
  ends_eq := fun xs hxs => by
    have hstops : repeatedStops kind (f.ends xs) bounds =
        repeatedStops kind' (f.ends xs) bounds := by
      rcases hkind with rfl | hsame
      · rfl
      · rw [repeatedStops_of_min_eq_max hsame, repeatedStops_of_min_eq_max hsame]
    funext p
    rw [ends_repetition, ends_repetition, h.ends_eq xs hxs, hstops]
  fits_iff := fun room n => by simp only [Fits, h.fits_iff]

omit [BEq α] in
theorem chainStops_map (stops : Expression α → Nat → List Nat) (g : Expression α → Expression α)
    (es : List (Expression α)) :
    chainStops stops (es.map g) = chainStops (fun e => stops (g e)) es := by
  induction es with
  | nil => rfl
  | cons e es ih =>
    funext p
    rw [List.map_cons, chainStops, chainStops, ih]

omit [BEq α] in
theorem chainStops_congr {stops stops' : Expression α → Nat → List Nat}
    (h : ∀ e ∈ es, stops e = stops' e) : chainStops stops es = chainStops stops' es := by
  induction es with
  | nil => rfl
  | cons e es ih =>
    rw [List.forall_mem_cons] at h
    funext p
    rw [chainStops, chainStops, h.1, ih h.2]

section Composites

variable {g : Expression α → Expression α} (h : ∀ e ∈ es, e.SameMeaning (g e))

include h

theorem sameMeaning_sequence : (sequence es).SameMeaning (sequence (es.map g)) where
  left := isPlain_sequence.mpr fun e he => (h e he).left
  right := isPlain_sequence.mpr (by simpa using fun e he => (h e he).right)
  ends_eq := fun xs hxs => by
    funext p
    rw [ends_sequence, ends_sequence, chainStops_map,
      chainStops_congr fun e he => (h e he).ends_eq xs hxs]
  fits_iff := fun room n => by
    rw [Fits, Fits]
    refine fitTogether_iff_of_forall₂ ?_ room n
    rw [List.forall₂_map_right_iff, List.forall₂_same]
    exact fun e he => (h e he).fits_iff

theorem sameMeaning_alternation : (alternation es).SameMeaning (alternation (es.map g)) where
  left := isPlain_alternation.mpr fun e he => (h e he).left
  right := isPlain_alternation.mpr (by simpa using fun e he => (h e he).right)
  ends_eq := fun xs hxs => by
    funext p
    rw [ends_alternation, ends_alternation, List.isEmpty_map, List.flatMap_map]
    congr 1
    exact List.flatMap_congr fun e he => congrFun ((h e he).ends_eq xs hxs) p
  fits_iff := fun room n => by
    simp only [fits_alternation, List.map_eq_nil_iff, List.mem_map, exists_exists_and_eq_and]
    refine or_congr_right (exists_congr fun e => and_congr_right fun he => ?_)
    exact (h e he).fits_iff room n

end Composites

theorem sameMeaning_sequence_singleton (h : e.isPlain = true) : (sequence [e]).SameMeaning e where
  left := isPlain_sequence.mpr (by simpa using h)
  right := h
  ends_eq := fun xs hxs => by
    funext p
    rw [ends_sequence, chainStops]
    split
    · exact List.flatMap_singleton' _
    · next hp =>
      symm
      rw [List.eq_nil_iff_forall_not_mem]
      intro q hq
      have hbounds := (leadsTo_ends hxs h).bounded p q hq
      omega
  fits_iff := fun room n => by simp [Fits, FitTogether]

theorem sameMeaning_alternation_singleton (h : e.isPlain = true) :
    (alternation [e]).SameMeaning e where
  left := isPlain_alternation.mpr (by simpa using h)
  right := h
  ends_eq := fun xs hxs => by
    funext p
    simp [ends_alternation]
  fits_iff := fun room n => by simp [Fits, SomeFits]

theorem sameMeaning_element {c d : ElementClass α} (hc : c.isProbing = false)
    (hd : d.isProbing = false) (h : ∀ a, c.accepts a = d.accepts a) :
    (element c).SameMeaning (element d) where
  left := isPlain_element.mpr hc
  right := isPlain_element.mpr hd
  ends_eq := fun xs hxs => by
    funext p
    rw [ends, ends, funext h]
  fits_iff := fun room n => Iff.rfl

theorem sameMeaning_nothing :
    (alternation ([] : List (Expression α))).SameMeaning (sequence []) where
  left := rfl
  right := rfl
  ends_eq := fun xs hxs => by
    funext p
    rw [ends, ends, sequenceEnds]
  fits_iff := fun room n => by simp [Fits, SomeFits, FitTogether]

end SameMeaning

end SeqPattern.Expression
