import Mathlib.Data.List.Perm.Basic
import SeqPattern.Proofs.Lookaround
import SeqPattern.Proofs.Repetition
import SeqPattern.Proofs.ToldLengths

namespace SeqPattern

open Search

variable {α : Type}

section Bounds

variable {size : Nat}

theorem bounded_chainStops {stops : Expression α → Nat → List Nat} {es : List (Expression α)}
    (hes : ∀ e ∈ es, ∀ p, ∀ q ∈ stops e p, p ≤ q ∧ q ≤ size) {p : Nat} (hp : p ≤ size) :
    ∀ q ∈ chainStops stops es p, p ≤ q ∧ q ≤ size := by
  induction es generalizing p with
  | nil =>
    intro q hq
    cases List.mem_singleton.mp hq
    exact ⟨Nat.le_refl p, hp⟩
  | cons e es ih =>
    intro q hq
    obtain ⟨m, hm, hq⟩ := List.mem_flatMap.mp hq
    obtain ⟨hpm, hms⟩ := hes e (by simp) p m hm
    obtain ⟨hmq, hqs⟩ := ih (fun e' h' => hes e' (by simp [h'])) hms q hq
    exact ⟨Nat.le_trans hpm hmq, hqs⟩

theorem lazyEnds_perm_greedyEnds (child : Nat → List Nat) (bound need p : Nat) :
    (lazyEnds child bound need p).Perm (greedyEnds child bound need p) := by
  induction bound generalizing need p with
  | zero => exact .refl _
  | succ bound ih =>
    rw [lazyEnds, greedyEnds]
    exact List.perm_append_comm.trans
      (.append_right _ (List.Perm.flatMap_left _ fun q _ => ih (need - 1) q))

theorem bounded_greedyEnds {child : Nat → List Nat}
    (hchild : ∀ p, ∀ q ∈ child p, p ≤ q ∧ q ≤ size) (bound need : Nat) {p : Nat}
    (hp : p ≤ size) : ∀ q ∈ greedyEnds child bound need p, p ≤ q ∧ q ≤ size := by
  induction bound generalizing need p with
  | zero =>
    intro q hq
    rw [greedyEnds, List.mem_ite_nil_right, List.mem_singleton] at hq
    omega
  | succ bound ih =>
    intro q hq
    rw [greedyEnds, List.mem_append, List.mem_flatMap, List.mem_ite_nil_right,
      List.mem_singleton] at hq
    rcases hq with ⟨m, hm, hq⟩ | hq
    · obtain ⟨hpm, hms⟩ := hchild p m (List.mem_filter.mp hm).1
      obtain ⟨hmq, hqs⟩ := ih (need - 1) hms q hq
      exact ⟨Nat.le_trans hpm hmq, hqs⟩
    · omega

end Bounds

def repeatedStops (kind : RepetitionKind) (child : Nat → List Nat) (bounds : Bounds) (p : Nat) :
    List Nat :=
  match kind with
  | .lazy => lazyEnds child bounds.max bounds.min p
  | .greedy => greedyEnds child bounds.max bounds.min p

theorem mem_repeatedStops (kind : RepetitionKind) (child : Nat → List Nat) (bounds : Bounds)
    (p q : Nat) :
    q ∈ repeatedStops kind child bounds p ↔ q ∈ greedyEnds child bounds.max bounds.min p := by
  cases kind with
  | lazy => exact (lazyEnds_perm_greedyEnds child bounds.max bounds.min p).mem_iff
  | greedy => rfl

variable [BEq α] {xs : Array α}

namespace Expression

/-- What comes from outside leads on as far as it says, if that is in the sequence. -/
theorem leadsTo_of_checked (hxs : xs.size ≤ maxSize) {e : Expression α}
    {test : Nat → Query α Outcome}
    (h : ∀ p, Settles xs (fun fuel => Cursor.opened (Cursor.children fuel) e p)
      (.ready ((test p >>= Match.ofOutcomeChecked p).eval xs))) :
    e.LeadsTo xs fun p =>
      let r := (test p).eval xs
      if r.success = true ∧ p + r.length ≤ xs.size then [p + r.length] else [] := by
  simp only [Query.eval_bind, Match.eval_ofOutcomeChecked xs hxs] at h
  refine ⟨fun p => ?_, fun p q hq => ?_⟩
  · have hr := enumerates_ready (h p)
    by_cases hin : ((test p).eval xs).success = true ∧ p + ((test p).eval xs).length ≤ xs.size
    · simpa [hin, Match.span] using hr
    · simpa [hin] using hr
  · rw [List.mem_ite_nil_right, List.mem_singleton] at hq
    omega

theorem settles_opened_element (xs : Array α) (c : ElementClass α) (p : Nat) :
    Settles xs (fun fuel => Cursor.opened (Cursor.children fuel) (element c) p)
      (.ready ((c.matchAt p >>= Match.ofOutcomeChecked p).eval xs)) :=
  (settles_ask xs (c.matchAt p >>= Match.ofOutcomeChecked p)).map Cursor.ready

theorem settles_opened_foreign (xs : Array α) {c : Foreign α} (hc : c.candidates = none) (p : Nat) :
    Settles xs (fun fuel => Cursor.opened (Cursor.children fuel) (foreign c) p)
      (.ready ((c.matchAt p >>= Match.ofOutcomeChecked p).eval xs)) := by
  simp only [Cursor.opened, hc]
  exact (settles_ask xs (c.matchAt p >>= Match.ofOutcomeChecked p)).map Cursor.ready

theorem leadsTo_element (hxs : xs.size ≤ maxSize) {c : ElementClass α}
    (hc : c.isProbing = false) :
    (element c).LeadsTo xs fun p => if xs[p]?.any c.accepts then [p + 1] else [] := by
  have h := leadsTo_of_checked hxs (settles_opened_element xs c)
  simp only [ElementClass.eval_matchAt xs c hc] at h
  have hstops : (fun p => if xs[p]?.any c.accepts then [p + 1] else []) = fun p =>
      let r := Outcome.oneElement (xs[p]?.any c.accepts)
      if r.success = true ∧ p + r.length ≤ xs.size then [p + r.length] else [] := by
    funext p
    cases ha : xs[p]? with
    | none => simp [Outcome.oneElement]
    | some a =>
      have hp : p + 1 ≤ xs.size := (Array.getElem?_eq_some_iff.mp ha).1
      cases hacc : c.accepts a <;> simp [Outcome.oneElement, hacc, hp]
  rwa [hstops]

theorem settles_opened_sequence_nil {p : Nat} (hp : p ≤ xs.size) :
    Settles xs (fun fuel => Cursor.opened (Cursor.children fuel) (sequence []) p)
      (.ready (some (.span p p))) :=
  (settles_inRange xs p).bind (by simpa [hp] using! settles_pure _)

theorem settles_opened_sequence_past {p : Nat} (hp : ¬ p ≤ xs.size) (es : List (Expression α)) :
    Settles xs (fun fuel => Cursor.opened (Cursor.children fuel) (sequence es) p) (.ready none) :=
  (settles_inRange xs p).bind (by simpa [hp] using! settles_pure _)

theorem settles_opened_repetition_past {p : Nat} (hp : ¬ p ≤ xs.size) (e : Expression α)
    (bounds : Bounds) (kind : RepetitionKind) :
    Settles xs (fun fuel => Cursor.opened (Cursor.children fuel) (repetition e bounds kind) p)
      (.ready none) :=
  (settles_inRange xs p).bind (by simpa [hp] using! settles_pure _)

theorem settles_start_sequence {e : Expression α} {p : Nat} (hp : p ≤ xs.size) {c : Cursor α}
    (hs : Settles xs (fun fuel => Cursor.start fuel e p) c) (es : List (Expression α)) :
    Settles xs (fun fuel => Cursor.start fuel (sequence (e :: es)) p)
      (.sequence ⟨p, [⟨c, es⟩]⟩) := by
  have h : Settles xs (fun fuel => Cursor.opened (Cursor.children fuel) (sequence (e :: es)) p)
      (.sequence ⟨p, [⟨c, es⟩]⟩) := (settles_inRange xs p).bind (by
    simp only [hp, decide_true, Bool.not_true, Bool.false_eq_true, ↓reduceIte]
    exact hs.bind (settles_pure _))
  exact h.succ fun _ => rfl

def repeatedCursor (r : Repeated α) : RepetitionKind → Cursor α
  | .lazy => .lazy { toRepeated := r }
  | .greedy => .greedy { toRepeated := r }

theorem settles_start_repetition {p : Nat} (hp : p ≤ xs.size) (e : Expression α) (bounds : Bounds)
    (kind : RepetitionKind) :
    Settles xs (fun fuel => Cursor.start fuel (repetition e bounds kind) p)
      (repeatedCursor ⟨e, bounds, p⟩ kind) := by
  have h : Settles xs
      (fun fuel => Cursor.opened (Cursor.children fuel) (repetition e bounds kind) p)
      (repeatedCursor ⟨e, bounds, p⟩ kind) :=
    (settles_inRange xs p).bind (by cases kind <;> simpa [hp] using! settles_pure _)
  exact h.succ fun _ => rfl

theorem leadsTo_sequence {stops : Expression α → Nat → List Nat} {es : List (Expression α)}
    (hes : ∀ e ∈ es, e.LeadsTo xs (stops e)) :
    (sequence es).LeadsTo xs fun p => if p ≤ xs.size then chainStops stops es p else [] := by
  refine ⟨fun p => ?_, fun p q hq => ?_⟩
  · by_cases hp : p ≤ xs.size
    · cases es with
      | nil => simpa [hp, chainStops] using enumerates_ready (settles_opened_sequence_nil hp)
      | cons e es =>
        have he := hes e (by simp)
        obtain ⟨c, hs, hc⟩ := he.enumerates p
        have htail : ∀ e' ∈ es, e'.LeadsTo xs (stops e') := fun e' h' => hes e' (by simp [h'])
        have hy := Cursor.yields_sequence htail p (Cursor.yields_sequence_nil p) hc
        rw [List.append_nil, flatMap_span fun q hq => (he.bounded p q hq).1] at hy
        rw [if_pos hp]
        exact ⟨_, settles_start_sequence hp hs es, hy⟩
    · simpa [hp] using enumerates_ready (settles_opened_sequence_past hp es)
  · rw [List.mem_ite_nil_right] at hq
    exact bounded_chainStops (fun e he => (hes e he).bounded) hq.1 q hq.2

theorem leadsTo_alternation {stops : Expression α → Nat → List Nat} {es : List (Expression α)}
    (hes : ∀ e ∈ es, e.LeadsTo xs (stops e)) :
    (alternation es).LeadsTo xs fun p =>
      if es.isEmpty then (if p ≤ xs.size then [p] else []) else es.flatMap (stops · p) := by
  cases es with
  | nil =>
    refine ⟨fun p => ?_, fun p q hq => ?_⟩
    · have h : Settles xs (fun fuel => Cursor.opened (Cursor.children fuel) (alternation []) p)
          (.ready (if p ≤ xs.size then some (.span p p) else none)) := by
        refine (settles_inRange xs p).bind ?_
        by_cases hp : p ≤ xs.size <;> simpa [hp] using! settles_pure _
      by_cases hp : p ≤ xs.size <;> simpa [hp] using enumerates_ready h
    · simp only [List.isEmpty_nil, ↓reduceIte, List.mem_ite_nil_right, List.mem_singleton] at hq
      omega
  | cons e es =>
    refine ⟨fun p => ?_, fun p q hq => ?_⟩
    · have hy := Cursor.yields_alternation fun e' h' => (hes e' h').enumerates p
      simp only [List.isEmpty_cons, Bool.false_eq_true, ↓reduceIte, List.map_flatMap]
      exact ⟨_, (settles_pure (Cursor.alternation ⟨p, none, e :: es⟩)).succ fun _ => rfl, hy⟩
    · simp only [List.isEmpty_cons, Bool.false_eq_true, ↓reduceIte, List.mem_flatMap] at hq
      obtain ⟨e', h', hq⟩ := hq
      exact (hes e' h').bounded p q hq

theorem leadsTo_repetition {e : Expression α} {stops : Nat → List Nat} (he : e.LeadsTo xs stops)
    (bounds : Bounds) (kind : RepetitionKind) :
    (repetition e bounds kind).LeadsTo xs fun p =>
      if p ≤ xs.size then repeatedStops kind stops bounds p else [] := by
  refine ⟨fun p => ?_, fun p q hq => ?_⟩
  · by_cases hp : p ≤ xs.size
    · rw [if_pos hp]
      refine ⟨_, settles_start_repetition hp e bounds kind, ?_⟩
      cases kind with
      | lazy => exact Cursor.yields_lazy (r := ⟨e, bounds, p⟩) he
      | greedy => exact Cursor.yields_greedy (r := ⟨e, bounds, p⟩) he
    · simpa [hp] using enumerates_ready (settles_opened_repetition_past hp e bounds kind)
  · rw [List.mem_ite_nil_right, mem_repeatedStops] at hq
    exact bounded_greedyEnds he.bounded _ _ hq.1 q hq.2

theorem leadsTo_of_zeroWidth {e : Expression α} {verdict : Nat → Bool}
    (h : ∀ p, Settles xs (fun fuel => Cursor.opened (Cursor.children fuel) e p)
      (.ready (Match.ofOutcome p (.zeroWidth (verdict p)))))
    (hin : ∀ p, verdict p = true → p ≤ xs.size) :
    e.LeadsTo xs fun p => if verdict p then [p] else [] := by
  refine ⟨fun p => ?_, fun p q hq => ?_⟩
  · have hr := enumerates_ready (h p)
    cases hv : verdict p <;>
      simpa [hv, Match.ofOutcome, Outcome.zeroWidth, Match.span] using hr
  · rw [List.mem_ite_nil_right, List.mem_singleton] at hq
    have hp := hin p hq.1
    omega

theorem leadsTo_lookAhead {e : Expression α} {stops : Nat → List Nat} (he : e.LeadsTo xs stops)
    (negative : Bool) :
    (lookAhead negative e).LeadsTo xs fun p =>
      if p ≤ xs.size && (!(stops p).isEmpty) != negative then [p] else [] := by
  refine leadsTo_of_zeroWidth (fun p => ?_) fun p hp => by simp at hp; exact hp.1
  have h := Children.settles_assertAhead (he.enumerates p) negative
  rw [List.isEmpty_map] at h
  exact h.bind (settles_pure _)

/-- A lookbehind tries the lengths that are told, and looks whether one of them leads back to the
position. -/
theorem settles_assertBehind_stops {e : Expression α} {stops : Nat → List Nat}
    (he : e.LeadsTo xs stops) (negative : Bool) (p : Nat) :
    Settles xs (fun fuel => (Cursor.children fuel).assertBehind negative e p)
      (.zeroWidth (p ≤ xs.size && (e.isPlaceable && ((e.lengths p).toList.any fun n =>
        n ≤ p && (stops (p - n)).contains p) != negative))) := by
  have h := Children.settles_assertBehind (i := p) he.enumerates negative
  have hplaced : (fun n => decide (n ≤ p) &&
      ((stops (p - n)).map (Match.span (p - n))).any (·.length == n)) =
      fun n => decide (n ≤ p) && (stops (p - n)).contains p := by
    funext n
    by_cases hn : n ≤ p
    · rw [Bool.eq_iff_iff]
      simp only [hn, decide_true, Bool.true_and, List.any_map, List.any_eq_true,
        List.contains_iff_mem, Function.comp_apply, Match.span, beq_iff_eq]
      constructor
      · rintro ⟨q, hq, hlen⟩
        have hle := (he.bounded (p - n) q hq).1
        have hqp : q = p := by omega
        exact hqp ▸ hq
      · exact fun hp => ⟨p, hp, by omega⟩
    · simp [hn]
  rwa [hplaced] at h

theorem leadsTo_lookBehind {e : Expression α} {stops : Nat → List Nat} (he : e.LeadsTo xs stops)
    (negative : Bool) :
    (lookBehind negative e).LeadsTo xs fun p =>
      if p ≤ xs.size && (e.isPlaceable && ((e.lengths p).toList.any fun n =>
        n ≤ p && (stops (p - n)).contains p) != negative) then [p] else [] := by
  refine leadsTo_of_zeroWidth (fun p => ?_) fun p hp => by simp at hp; exact hp.1
  exact (settles_assertBehind_stops he negative p).bind (settles_pure _)

theorem settles_assertBehind_fits {e : Expression α} (hplain : e.isPlain = true)
    {stops : Nat → List Nat} (he : e.LeadsTo xs stops) (negative : Bool) (p : Nat) :
    Settles xs (fun fuel => (Cursor.children fuel).assertBehind negative e p)
      (.zeroWidth (decide (p ≤ xs.size ∧
        ((∃ n, n ≤ p ∧ e.Fits p n ∧ p ∈ stops (p - n)) ↔ negative = false)))) := by
  have h := settles_assertBehind_stops he negative p
  have hverdict : (p ≤ xs.size && ((e.lengths p).toList.any fun n =>
      n ≤ p && (stops (p - n)).contains p) != negative) = decide (p ≤ xs.size ∧
        ((∃ n, n ≤ p ∧ e.Fits p n ∧ p ∈ stops (p - n)) ↔ negative = false)) := by
    rw [Bool.eq_iff_iff, Bool.and_eq_true, decide_eq_true_eq, decide_eq_true_eq,
      ← any_lengths_iff_exists_fits hplain]
    cases negative <;> simp
  rwa [isPlaceable_of_isPlain hplain, Bool.true_and, hverdict] at h

theorem leadsTo_anchor (xs : Array α) (a : Anchor) :
    (anchor a : Expression α).LeadsTo xs fun p =>
      if (match a with | .start => decide (p = 0) | .stop => decide (p = xs.size)) then [p]
      else [] := by
  refine leadsTo_of_zeroWidth (fun p => ?_) fun p hp => ?_
  · have h := (settles_ask xs (a.matchAt p)).map fun r =>
      Cursor.ready (α := α) (Match.ofOutcome p r)
    rw [Anchor.eval_matchAt] at h
    exact h
  · cases a <;> simp at hp <;> omega

theorem sequenceEnds_eq_chainStops (es : List (Expression α)) :
    sequenceEnds xs es = chainStops (fun e => e.ends xs) es := by
  induction es with
  | nil => rfl
  | cons e es ih =>
    funext p
    rw [sequenceEnds, chainStops, ih]

theorem ends_sequence (xs : Array α) (es : List (Expression α)) (p : Nat) :
    (sequence es).ends xs p = if p ≤ xs.size then chainStops (fun e => e.ends xs) es p else [] := by
  rw [ends, sequenceEnds_eq_chainStops]

theorem ends_repetition (xs : Array α) (e : Expression α) (bounds : Bounds)
    (kind : RepetitionKind) (p : Nat) :
    (repetition e bounds kind).ends xs p =
      if p ≤ xs.size then repeatedStops kind (e.ends xs) bounds p else [] := by
  cases kind <;> rw [ends] <;> rfl

theorem leadsTo_ends (hxs : xs.size ≤ maxSize) {e : Expression α} (he : e.isPlain = true) :
    e.LeadsTo xs (e.ends xs) := by
  induction e with
  | element c =>
    have h := leadsTo_element hxs (isPlain_element.mp he)
    simpa only [ends] using! h
  | sequence es ih =>
    have h := leadsTo_sequence fun e h => ih e h (isPlain_sequence.mp he e h)
    have hends := funext (ends_sequence xs es)
    rwa [hends]
  | alternation es ih =>
    have h := leadsTo_alternation fun e h => ih e h (isPlain_alternation.mp he e h)
    have hends := funext (ends_alternation xs es)
    rwa [hends]
  | repetition e bounds kind ih =>
    have h := leadsTo_repetition (ih (isPlain_repetition.mp he)) bounds kind
    have hends := funext (ends_repetition xs e bounds kind)
    rwa [hends]
  | lookAhead negative e ih =>
    have h := leadsTo_lookAhead (ih (isPlain_lookAhead.mp he)) negative
    have hends : (lookAhead negative e).ends xs = fun p =>
        if p ≤ xs.size && (!(e.ends xs p).isEmpty) != negative then [p] else [] := by
      funext p
      rw [ends]
    rwa [hends]
  | lookBehind negative e ih =>
    have he := isPlain_lookBehind.mp he
    have hends : (lookBehind negative e).ends xs = fun p =>
        if decide (p ≤ xs.size ∧
          ((∃ n, n ≤ p ∧ e.Fits p n ∧ p ∈ e.ends xs (p - n)) ↔ negative = false)) then [p]
        else [] := by
      funext p
      simp only [ends, decide_eq_true_eq]
    rw [hends]
    refine leadsTo_of_zeroWidth (fun p => ?_) fun p hp => (of_decide_eq_true hp).1
    exact (settles_assertBehind_fits he (ih he) negative p).bind (settles_pure _)
  | anchor a =>
    have h := leadsTo_anchor xs a
    cases a <;> simpa only [ends, decide_eq_true_eq] using! h
  | foreign c => simp at he

theorem enumerates_ends (hxs : xs.size ≤ maxSize) {e : Expression α} (he : e.isPlain = true)
    (i : Nat) : e.Enumerates xs i ((e.ends xs i).map (Match.span i)) :=
  (leadsTo_ends hxs he).enumerates i

theorem exists_stop_iff_mem_ends (hxs : xs.size ≤ maxSize) {e : Expression α}
    (he : e.isPlain = true) {i j : Nat} :
    (∃ m ∈ (e.ends xs i).map (Match.span i), m.stop = j) ↔ j ∈ e.ends xs i := by
  have hstop (q : Nat) (hq : q ∈ e.ends xs i) : (Match.span i q).stop = q :=
    Match.stop_span ((leadsTo_ends hxs he).bounded i q hq).1
  constructor
  · rintro ⟨m, hm, rfl⟩
    obtain ⟨q, hq, rfl⟩ := List.mem_map.mp hm
    rwa [hstop q hq]
  · exact fun hj => ⟨.span i j, List.mem_map_of_mem hj, hstop j hj⟩

/-- Drawing from a plain pattern at a position gives the ranges from there to its ends, in their
order and as often as they occur, and then the end, again and again. The ends lie between the
position and the end of the sequence, so that past the end there is none. -/
theorem take_eq_spans_of_ends {e : Expression α} (he : e.isPlain = true) (xs : Array α)
    (hxs : xs.size ≤ maxSize) (i : Nat) :
    (∀ j ∈ e.ends xs i, i ≤ j ∧ j ≤ xs.size) ∧
    ∃ c enough, ∀ fuel, enough ≤ fuel →
      (Cursor.start fuel e i).eval xs = some c ∧
      ∀ k, ∃ d,
        (c.take fuel k).eval xs = some (((e.ends xs i).map (Match.span i)).take k,
          decide ((e.ends xs i).length < k), d) ∧
        ((e.ends xs i).length < k → (d.next fuel).eval xs = some (none, d)) := by
  refine ⟨(leadsTo_ends hxs he).bounded i, ?_⟩
  obtain ⟨c, ⟨m, hm⟩, hc⟩ := enumerates_ends hxs he i
  obtain ⟨n, hn⟩ := hc.eval_takeAfter
  refine ⟨c, max m n, fun fuel h => ⟨hm fuel (by omega), fun k => ?_⟩⟩
  obtain ⟨d, hd, hstop⟩ := hn fuel (by omega) k []
  rw [List.length_map] at hd hstop
  exact ⟨d, hd, hstop⟩

/-- Where the rounds of a repetition have led, some stay for what lies behind, and one for what does
not. -/
theorem take_eq_spans_of_ends_behind_rounds :
    ∃ c enough, ∀ fuel, enough ≤ fuel →
      (Cursor.start fuel (sequence [zeroOrMore (alternation [value 1, sequence [], value 1]),
        alternation [lookBehind false (values [1, 1]), lookBehind true (value 1)]] :
        Expression Nat) 0).eval #[1, 1, 2] = some c ∧
      ∀ k, ∃ d,
        (c.take fuel k).eval #[1, 1, 2] = some
          ([⟨0, 2, true⟩, ⟨0, 2, true⟩, ⟨0, 2, true⟩, ⟨0, 2, true⟩, ⟨0, 0, true⟩].take k,
            decide (5 < k), d) ∧
        (5 < k → (d.next fuel).eval #[1, 1, 2] = some (none, d)) :=
  (take_eq_spans_of_ends (e := (sequence [zeroOrMore (alternation [value 1, sequence [], value 1]),
    alternation [lookBehind false (values [1, 1]), lookBehind true (value 1)]] : Expression Nat))
    (by decide) #[1, 1, 2] (by decide) 0).2

end Expression

end SeqPattern
