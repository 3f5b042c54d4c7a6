import SeqPattern.Proofs.CappedLengths
import SeqPattern.Proofs.WellFormed

namespace SeqPattern

theorem eraseDups_filter_eraseDups (keep : Nat → Bool) (ns : List Nat) :
    (ns.eraseDups.filter keep).eraseDups = (ns.filter keep).eraseDups := by
  -- On the length, for what is left of the tail is not the tail.
  induction hk : ns.length using Nat.strong_induction_on generalizing keep ns with
  | _ k ih =>
    subst hk
    cases ns with
    | nil => rfl
    | cons n ns =>
      have hlen : (ns.filter fun m => !m == n).length < (n :: ns).length :=
        Nat.lt_succ_of_le (List.length_filter_le _ _)
      rw [List.eraseDups_cons, List.filter_cons, List.filter_cons]
      split
      · simp only [List.eraseDups_cons, List.filter_filter]
        rw [ih _ hlen _ _ rfl]
        simp only [List.filter_filter, Bool.and_left_comm, Bool.and_self, Bool.and_comm]
      · next hn =>
        rw [ih _ hlen _ _ rfl, List.filter_filter]
        congr 1
        refine List.filter_congr fun m _ => ?_
        by_cases hm : m = n <;> simp [hm, hn]

theorem eraseDups_append_eraseDups (ns ms : List Nat) :
    (ns.eraseDups ++ ms.eraseDups).eraseDups = (ns ++ ms).eraseDups := by
  have hself := eraseDups_filter_eraseDups (fun _ => true) ns
  simp only [List.filter_true] at hself
  have hseen : (fun m => !List.elem m ns.eraseDups) = fun m => !List.elem m ns := by
    funext m
    rw [Bool.eq_iff_iff]
    simp
  simp only [List.eraseDups_append, List.removeAll, hself, hseen, eraseDups_filter_eraseDups]

namespace Expression

variable {α : Type} {es fs : List (Expression α)} {max s t n : Nat}

section Told

abbrev told (e : Expression α) (rest : Nat) : List Nat := (e.lengths rest).toList

theorem sums_append (es fs : List (Expression α)) (max : Nat) (ns : List Nat) :
    sums (es ++ fs) max ns = sums fs max (sums es max ns) := by
  induction es generalizing ns with
  | nil => rfl
  | cons e es ih => exact ih _

theorem mem_sums_iff_exists (es : List (Expression α)) (ns : List Nat) :
    n ∈ sums es max ns ↔ ∃ s ∈ ns, n ∈ sums es max [s] := by
  induction es generalizing ns with
  | nil => simp [sums]
  | cons e es ih =>
    simp only [sums, ih (extendSums _ _ _), mem_extendSums, List.mem_singleton, exists_eq_left]
    constructor
    · rintro ⟨m, ⟨s, hs, hm⟩, hn⟩
      exact ⟨s, hs, m, hm, hn⟩
    · rintro ⟨s, hs, m, hm, hn⟩
      exact ⟨m, ⟨s, hs, hm⟩, hn⟩

theorem mem_sums_cons_iff {e : Expression α} :
    n ∈ sums (e :: es) max [s] ↔ ∃ m, Extends e.told max s m ∧ n ∈ sums es max [m] := by
  rw [sums, mem_sums_iff_exists]
  simp [mem_extendSums]

theorem le_of_mem_sums_singleton (h : n ∈ sums es max [s]) : s ≤ n := by
  induction es generalizing s with
  | nil => exact Nat.le_of_eq (List.mem_singleton.mp h).symm
  | cons e es ih =>
    obtain ⟨m, hm, hn⟩ := mem_sums_cons_iff.mp h
    exact Nat.le_trans (le_of_extends _ _ hm) (ih hn)

theorem extends_sub_iff {step : Nat → List Nat} :
    Extends step (max - s) t n ↔ Extends step max (s + t) (s + n) := by
  simp only [Extends, Nat.sub_sub, Nat.add_assoc, Nat.add_left_cancel_iff]

/-- What is added to a sum does not depend on how the sum has come about, only on the room that it
leaves. -/
theorem mem_sums_sub_iff : n ∈ sums es (max - s) [t] ↔ s + n ∈ sums es max [s + t] := by
  induction es generalizing t with
  | nil => simp [sums]
  | cons e es ih =>
    rw [mem_sums_cons_iff, mem_sums_cons_iff]
    constructor
    · rintro ⟨m, hm, hn⟩
      exact ⟨s + m, extends_sub_iff.mp hm, ih.mp hn⟩
    · rintro ⟨m, hm, hn⟩
      have hle := le_of_extends _ _ hm
      obtain ⟨m, rfl⟩ : ∃ d, m = s + d := ⟨m - s, by omega⟩
      exact ⟨m, extends_sub_iff.mpr hm, ih.mpr hn⟩

theorem sums_cons_sequence (h : (sequence es).isPlaceable = true)
    (hany : (sequence es).anyLength = false) {ns : List Nat} (hns : ns.Pairwise (· < ·))
    (hle : ∀ n ∈ ns, n ≤ max) :
    sums (sequence es :: fs) max ns = sums (es ++ fs) max ns := by
  rw [sums_append, sums]
  congr 1
  -- Both lists of sums ascend, so that only their members have to be compared.
  refine eq_of_pairwise_lt (pairwise_ascending _) (pairwise_sums hns) fun n => ?_
  rw [mem_extendSums, mem_sums_iff_exists]
  refine exists_congr fun s => and_congr_right fun hs => ?_
  simp only [Extends, lengths_sequence h hany]
  constructor
  · rintro ⟨l, hl, -, rfl⟩
    exact mem_sums_sub_iff.mp hl
  · intro hn
    have hsn := le_of_mem_sums_singleton hn
    have hmax := le_of_mem_sums (by simpa using hle s hs) n hn
    refine ⟨n - s, ?_, by omega, by omega⟩
    rw [mem_sums_sub_iff, Nat.add_sub_cancel' hsn]
    exact hn

end Told

section Flags

theorem allPlaceable_append (es fs : List (Expression α)) :
    allPlaceable (es ++ fs) = (allPlaceable es && allPlaceable fs) := by
  rw [Bool.eq_iff_iff, Bool.and_eq_true]
  simp [allPlaceable_iff, or_imp, forall_and]

theorem someHaveAnyLength_append (es fs : List (Expression α)) :
    someHaveAnyLength (es ++ fs) = (someHaveAnyLength es || someHaveAnyLength fs) := by
  rw [Bool.eq_iff_iff, Bool.or_eq_true]
  simp [someHaveAnyLength_iff, or_and_right, exists_or]

theorem isPlaceable_sequence_append (es fs : List (Expression α)) :
    (sequence (es ++ fs)).isPlaceable = (sequence [sequence es, sequence fs]).isPlaceable := by
  simp [isPlaceable, allPlaceable, allPlaceable_append]

theorem anyLength_sequence_append (es fs : List (Expression α)) :
    (sequence (es ++ fs)).anyLength = (sequence [sequence es, sequence fs]).anyLength := by
  simp [anyLength, someHaveAnyLength, someHaveAnyLength_append]

theorem isPlaceable_alternation_append (es fs : List (Expression α)) :
    (alternation (es ++ fs)).isPlaceable =
      (alternation [alternation es, alternation fs]).isPlaceable := by
  simp [isPlaceable, allPlaceable, allPlaceable_append]

theorem anyLength_alternation_append (es fs : List (Expression α)) :
    (alternation (es ++ fs)).anyLength =
      (alternation [alternation es, alternation fs]).anyLength := by
  simp [anyLength, someHaveAnyLength, someHaveAnyLength_append]

/-- Patterns that are placed alike have to be compared only where their lengths are counted. -/
theorem told_rel_of_placed_alike {e f : Expression α} {R : List Nat → List Nat → Prop}
    (hR : ∀ ns, R ns ns) (he : e.isForeign = false) (hf : f.isForeign = false)
    (hplace : e.isPlaceable = f.isPlaceable) (hany : e.anyLength = f.anyLength)
    (h : e.isPlaceable = true → e.anyLength = false → R (e.told max) (f.told max)) :
    R (e.told max) (f.told max) := by
  cases hp : e.isPlaceable with
  | false =>
    rw [told, told, lengths_of_not_isPlaceable he hp, lengths_of_not_isPlaceable hf (hplace ▸ hp)]
    exact hR _
  | true =>
    cases ha : e.anyLength with
    | false => exact h hp ha
    | true =>
      rw [told, told, toList_lengths_of_anyLength he hp ha,
        toList_lengths_of_anyLength hf (hplace ▸ hp) (hany ▸ ha)]
      exact hR _

end Flags

section Lengths

theorem told_sequence_append (es fs : List (Expression α)) (max : Nat) :
    (sequence (es ++ fs)).told max = (sequence [sequence es, sequence fs]).told max := by
  have hplace := isPlaceable_sequence_append es fs
  have hany := anyLength_sequence_append es fs
  refine told_rel_of_placed_alike (fun _ => rfl) rfl rfl hplace hany fun hp ha => ?_
  rw [told, told, lengths_sequence hp ha, lengths_sequence (hplace ▸ hp) (hany ▸ ha)]
  rw [isPlaceable, allPlaceable_append, Bool.and_eq_true] at hp
  rw [anyLength, someHaveAnyLength_append, Bool.or_eq_false_iff] at ha
  have hes : (sequence es).isPlaceable = true ∧ (sequence es).anyLength = false := by
    rw [isPlaceable, anyLength]
    exact ⟨hp.1, ha.1⟩
  have hfs : (sequence fs).isPlaceable = true ∧ (sequence fs).anyLength = false := by
    rw [isPlaceable, anyLength]
    exact ⟨hp.2, ha.2⟩
  have hzero : ([0] : List Nat).Pairwise (· < ·) := List.pairwise_singleton _ 0
  rw [sums_cons_sequence hes.1 hes.2 hzero (by simp), sums_append es [sequence fs],
    sums_cons_sequence hfs.1 hfs.2 (pairwise_sums hzero) (le_of_mem_sums (by simp)),
    List.append_nil, ← sums_append]

theorem told_alternation (hes : es ≠ []) (hp : (alternation es).isPlaceable = true)
    (ha : (alternation es).anyLength = false) :
    (alternation es).told max = ((es.flatMap fun e => e.told max).filter (· ≤ max)).eraseDups := by
  rw [told, toList_lengths_alternation ha, hp, if_neg (by simp), if_neg (by simpa using hes)]

theorem mem_told_alternation_iff (hes : es ≠ []) (hp : (alternation es).isPlaceable = true)
    (ha : (alternation es).anyLength = false) :
    n ∈ (alternation es).told max ↔ n ≤ max ∧ ∃ e ∈ es, n ∈ e.told max := by
  rw [told_alternation hes hp ha, List.mem_eraseDups, List.mem_filter, List.mem_flatMap,
    decide_eq_true_eq, and_comm]

theorem told_alternation_append (hes : es ≠ []) (hfs : fs ≠ []) (max : Nat) :
    (alternation (es ++ fs)).told max =
      (alternation [alternation es, alternation fs]).told max := by
  have hplace := isPlaceable_alternation_append es fs
  have hany := anyLength_alternation_append es fs
  refine told_rel_of_placed_alike (fun _ => rfl) rfl rfl hplace hany fun hp ha => ?_
  rw [told_alternation (by simp [hes]) hp ha,
    told_alternation (List.cons_ne_nil _ _) (hplace ▸ hp) (hany ▸ ha)]
  rw [isPlaceable, allPlaceable_append, Bool.and_eq_true] at hp
  rw [anyLength, someHaveAnyLength_append, Bool.or_eq_false_iff] at ha
  have hleft : (alternation es).told max = _ :=
    told_alternation hes (by rw [isPlaceable]; exact hp.1) (by rw [anyLength]; exact ha.1)
  have hright : (alternation fs).told max = _ :=
    told_alternation hfs (by rw [isPlaceable]; exact hp.2) (by rw [anyLength]; exact ha.2)
  have hfits (ns : List Nat) : ((ns.filter (· ≤ max)).eraseDups.filter (· ≤ max)) =
      (ns.filter (· ≤ max)).eraseDups := by
    rw [List.filter_eq_self]
    intro n hn
    exact (List.mem_filter.mp (List.mem_eraseDups.mp hn)).2
  rw [List.flatMap_append, List.flatMap_cons, List.flatMap_singleton, hleft, hright,
    List.filter_append, List.filter_append, hfits, hfits, eraseDups_append_eraseDups]

theorem mem_told_pair_iff {d c : Expression α} (hp : (sequence [d, c]).isPlaceable = true)
    (ha : (sequence [d, c]).anyLength = false) :
    n ∈ (sequence [d, c]).told max ↔ ∃ l ∈ d.told max, l ≤ max ∧ Extends c.told max l n := by
  rw [told, lengths_sequence hp ha]
  simp [sums, mem_extendSums, Extends, told, and_assoc]

theorem told_sequence_alternation_perm (a b c : Expression α) (max : Nat) :
    ((sequence [alternation [a, b], c]).told max).Perm
      ((alternation [sequence [a, c], sequence [b, c]]).told max) := by
  have hplace : (sequence [alternation [a, b], c]).isPlaceable =
      (alternation [sequence [a, c], sequence [b, c]]).isPlaceable := by
    rw [Bool.eq_iff_iff]
    simp only [isPlaceable, allPlaceable, Bool.and_eq_true]
    tauto
  have hany : (sequence [alternation [a, b], c]).anyLength =
      (alternation [sequence [a, c], sequence [b, c]]).anyLength := by
    rw [Bool.eq_iff_iff]
    simp only [anyLength, someHaveAnyLength, Bool.or_eq_true]
    tauto
  refine told_rel_of_placed_alike (R := List.Perm) List.Perm.refl rfl rfl hplace hany
    fun hp ha => ?_
  rw [List.perm_ext_iff_of_nodup (nodup_lengths rfl) (nodup_lengths rfl)]
  intro n
  rw [mem_told_alternation_iff (List.cons_ne_nil _ _) (hplace ▸ hp) (hany ▸ ha),
    mem_told_pair_iff hp ha]
  simp only [isPlaceable, allPlaceable, Bool.and_eq_true, and_true] at hp
  simp only [anyLength, someHaveAnyLength, Bool.or_eq_false_iff, and_true] at ha
  have hoption {l : Nat} :
      l ∈ (alternation [a, b]).told max ↔ l ≤ max ∧ (l ∈ a.told max ∨ l ∈ b.told max) := by
    rw [mem_told_alternation_iff (List.cons_ne_nil _ _)
      (by simp [isPlaceable, allPlaceable, hp]) (by simp [anyLength, someHaveAnyLength, ha])]
    simp
  have hfirst : n ∈ (sequence [a, c]).told max ↔ _ := mem_told_pair_iff
    (by simp [isPlaceable, allPlaceable, hp]) (by simp [anyLength, someHaveAnyLength, ha])
  have hsecond : n ∈ (sequence [b, c]).told max ↔ _ := mem_told_pair_iff
    (by simp [isPlaceable, allPlaceable, hp]) (by simp [anyLength, someHaveAnyLength, ha])
  simp only [hoption, List.mem_cons, List.not_mem_nil, or_false, exists_eq_or_imp, exists_eq_left,
    hfirst, hsecond]
  constructor
  · rintro ⟨l, ⟨-, hl | hl⟩, hle, hn⟩
    · exact ⟨le_room_of_extends hle hn, Or.inl ⟨l, hl, hle, hn⟩⟩
    · exact ⟨le_room_of_extends hle hn, Or.inr ⟨l, hl, hle, hn⟩⟩
  · rintro ⟨-, ⟨l, hl, hle, hn⟩ | ⟨l, hl, hle, hn⟩⟩
    · exact ⟨l, ⟨hle, Or.inl hl⟩, hle, hn⟩
    · exact ⟨l, ⟨hle, Or.inr hl⟩, hle, hn⟩

end Lengths

variable [BEq α] {xs : Array α}

section Matches

theorem LeadsTo.unique {e : Expression α} {stops stops' : Nat → List Nat}
    (h : e.LeadsTo xs stops) (h' : e.LeadsTo xs stops') : stops = stops' := by
  have hback {stops : Nat → List Nat} (h : e.LeadsTo xs stops) (p : Nat) :
      ((stops p).map (Match.span p)).map Match.stop = stops p := by
    rw [List.map_map]
    exact (List.map_congr_left fun q hq => Match.stop_span (h.bounded p q hq).1).trans
      (List.map_id _)
  funext p
  rw [← hback h p, ← hback h' p, (h.enumerates p).unique (h'.enumerates p)]

omit [BEq α] in
theorem chainStops_append (stops : Expression α → Nat → List Nat) (es fs : List (Expression α))
    (p : Nat) :
    chainStops stops (es ++ fs) p = (chainStops stops es p).flatMap (chainStops stops fs) := by
  induction es generalizing p with
  | nil => simp [chainStops]
  | cons e es ih =>
    simp only [List.cons_append, chainStops, List.flatMap_assoc]
    exact List.flatMap_congr fun q _ => ih q

theorem exists_stops (hxs : xs.size ≤ maxSize) : ∃ stops : Expression α → Nat → List Nat,
    ∀ e : Expression α, e.isTested = true → e.LeadsTo xs (stops e) := by
  choose! stops hstops using fun (e : Expression α) (he : e.isTested = true) =>
    exists_leadsTo hxs he
  exact ⟨stops, hstops⟩

section Stops

variable {stops : Expression α → Nat → List Nat}
  (hstops : ∀ e : Expression α, e.isTested = true → e.LeadsTo xs (stops e))

include hstops

theorem stops_sequence (hes : ∀ e ∈ es, e.isTested = true) :
    stops (sequence es) = fun p => if p ≤ xs.size then chainStops stops es p else [] :=
  (hstops _ (isTested_sequence.mpr hes)).unique
    (leadsTo_sequence fun e he => hstops e (hes e he))

theorem stops_alternation (hes : ∀ e ∈ es, e.isTested = true) :
    stops (alternation es) = fun p =>
      if es.isEmpty then (if p ≤ xs.size then [p] else []) else es.flatMap (stops · p) :=
  (hstops _ (isTested_alternation.mpr hes)).unique
    (leadsTo_alternation fun e he => hstops e (hes e he))

theorem stops_sequence_append (hes : ∀ e ∈ es, e.isTested = true)
    (hfs : ∀ e ∈ fs, e.isTested = true) :
    stops (sequence (es ++ fs)) = stops (sequence [sequence es, sequence fs]) := by
  rw [stops_sequence hstops (by simpa [or_imp, forall_and] using ⟨hes, hfs⟩),
    stops_sequence hstops (by simpa using ⟨hes, hfs⟩)]
  funext p
  split
  · next hp =>
    simp only [chainStops, chainStops_append, List.flatMap_singleton', stops_sequence hstops hes,
      stops_sequence hstops hfs, if_pos hp]
    refine List.flatMap_congr fun q hq => (if_pos ?_).symm
    exact (bounded_chainStops (fun e he => (hstops e (hes e he)).bounded) hp q hq).2
  · rfl

theorem stops_alternation_append (hes : ∀ e ∈ es, e.isTested = true)
    (hfs : ∀ e ∈ fs, e.isTested = true) (hes' : es ≠ []) (hfs' : fs ≠ []) :
    stops (alternation (es ++ fs)) = stops (alternation [alternation es, alternation fs]) := by
  rw [stops_alternation hstops (by simpa [or_imp, forall_and] using ⟨hes, hfs⟩),
    stops_alternation hstops (by simpa using ⟨hes, hfs⟩)]
  funext p
  simp [stops_alternation hstops hes, stops_alternation hstops hfs, hes', hfs']

theorem stops_sequence_alternation {a b c : Expression α} (ha : a.isTested = true)
    (hb : b.isTested = true) (hc : c.isTested = true) :
    stops (sequence [alternation [a, b], c]) =
      stops (alternation [sequence [a, c], sequence [b, c]]) := by
  have hab : ∀ e ∈ [a, b], e.isTested = true := by simp [ha, hb]
  have hac : ∀ e ∈ [a, c], e.isTested = true := by simp [ha, hc]
  have hbc : ∀ e ∈ [b, c], e.isTested = true := by simp [hb, hc]
  rw [stops_sequence hstops (by simpa [hc] using hab),
    stops_alternation hstops (by simp [ha, hb, hc])]
  funext p
  by_cases hp : p ≤ xs.size <;>
    simp [chainStops, stops_alternation hstops hab, stops_sequence hstops hac,
      stops_sequence hstops hbc, hp]

end Stops

theorem enumerate_alike_of_stops_eq {e f : Expression α} (hxs : xs.size ≤ maxSize)
    (he : e.isTested = true) (hf : f.isTested = true)
    (h : ∀ stops : Expression α → Nat → List Nat,
      (∀ e : Expression α, e.isTested = true → e.LeadsTo xs (stops e)) → stops e = stops f)
    (i : Nat) : ∃ ms, e.Enumerates xs i ms ∧ f.Enumerates xs i ms := by
  obtain ⟨stops, hstops⟩ := exists_stops (α := α) hxs
  have hleft := hstops e he
  rw [h stops hstops] at hleft
  exact ⟨_, hleft.enumerates i, (hstops f hf).enumerates i⟩

end Matches

/-- Parts of a sequence may be grouped into sequences, and options of an alternation into
alternations that are not empty, without any difference. When options that what follows them has in
common are each given it, the matches and their order remain, and so do the possible lengths, but
for their order. -/
theorem regrouped_equivalent (es fs : List (Expression α)) (hes : ∀ e ∈ es, e.isTested = true)
    (hfs : ∀ e ∈ fs, e.isTested = true) :
    (sequence (es ++ fs)).Equivalent (sequence [sequence es, sequence fs]) ∧
    (es ≠ [] → fs ≠ [] →
      (alternation (es ++ fs)).Equivalent (alternation [alternation es, alternation fs])) ∧
    ∀ a b c : Expression α, a.isTested = true → b.isTested = true → c.isTested = true →
      (∀ xs : Array α, xs.size ≤ maxSize → ∀ i, ∃ ms,
        (sequence [alternation [a, b], c]).Enumerates xs i ms ∧
        (alternation [sequence [a, c], sequence [b, c]]).Enumerates xs i ms) ∧
      ∀ max, ((sequence [alternation [a, b], c]).lengths max).toList.Perm
        ((alternation [sequence [a, c], sequence [b, c]]).lengths max).toList := by
  have hboth : ∀ e ∈ es ++ fs, e.isTested = true := by
    simpa [or_imp, forall_and] using ⟨hes, hfs⟩
  refine ⟨⟨fun xs hxs => ?_, isPlaceable_sequence_append es fs, anyLength_sequence_append es fs,
      told_sequence_append es fs⟩, fun hes' hfs' => ⟨fun xs hxs => ?_,
      isPlaceable_alternation_append es fs, anyLength_alternation_append es fs,
      told_alternation_append hes' hfs'⟩,
    fun a b c ha hb hc => ⟨fun xs hxs => ?_, told_sequence_alternation_perm a b c⟩⟩
  · exact enumerate_alike_of_stops_eq hxs (isTested_sequence.mpr hboth)
      (by simpa using ⟨hes, hfs⟩) fun stops hstops => stops_sequence_append hstops hes hfs
  · exact enumerate_alike_of_stops_eq hxs (isTested_alternation.mpr hboth)
      (by simpa using ⟨hes, hfs⟩) fun stops hstops =>
        stops_alternation_append hstops hes hfs hes' hfs'
  · exact enumerate_alike_of_stops_eq hxs (by simp [ha, hb, hc]) (by simp [ha, hb, hc])
      fun stops hstops => stops_sequence_alternation hstops ha hb hc

/-- Parts that may be empty, options that tell a length twice, and a class that decides about
positions by itself. -/
theorem regrouped_equivalent_nullable_parts :
    let pair : Expression Nat := element (.probing "pair" (fun _ => true) (Foreign.fixed 2))
    let e : Expression Nat := alternation [value 1, sequence [], pair]
    let f : Expression Nat := zeroOrMore (value 1) .lazy
    (sequence [e, f, pair]).Equivalent (sequence [sequence [e, f], sequence [pair]]) ∧
      (alternation [e, f, pair]).Equivalent (alternation [alternation [e, f], alternation [pair]]) ∧
      ∀ xs : Array Nat, xs.size ≤ maxSize → ∀ i, ∃ ms,
        (sequence [alternation [e, f], pair]).Enumerates xs i ms ∧
        (alternation [sequence [e, pair], sequence [f, pair]]).Enumerates xs i ms := by
  intro pair e f
  obtain ⟨hsequence, halternation, hoptions⟩ :=
    regrouped_equivalent [e, f] [pair] (by decide) (by decide)
  exact ⟨hsequence, halternation (by simp) (by simp),
    (hoptions e f pair (by decide) (by decide) (by decide)).1⟩

end Expression

end SeqPattern
