import Mathlib.Data.Nat.Find
import SeqPattern.Meaning.Supply
import SeqPattern.Proofs.Answers
import SeqPattern.Proofs.Drawing

namespace SeqPattern

variable {α β : Type} {u : Supply α} {s : LazySource α}

theorem Supply.exists_of_feed (feed : Nat → Option α) : ∃ u : Supply α, u.Of feed := by
  by_cases h : ∃ n, feed n = none
  · classical
    have hsome (i : Fin (Nat.find h)) : (feed i).isSome :=
      Option.isSome_iff_ne_none.mpr (Nat.find_min h i.isLt)
    refine ⟨.finite (Array.ofFn fun i => (feed i).get (hsome i)), fun i hi => ?_⟩
    rw [Array.size_ofFn] at hi
    rcases Nat.lt_or_eq_of_le hi with hi | rfl
    · simp [hi]
    · simpa using Nat.find_spec h
  · have hsome (i : Nat) : (feed i).isSome :=
      Option.isSome_iff_ne_none.mpr fun hi => h ⟨i, hi⟩
    exact ⟨.endless fun i => (feed i).get (hsome i), fun i => by simp⟩

namespace LazySource

/-- What is cached are the first items of the supply, all of them once the end has been reported,
and every item and the end have cost one poll each. -/
structure Draws (s : LazySource α) (u : Supply α) : Prop where
  feeds : u.Of s.feed
  cached : ∀ i, i < s.cache.size → s.cache[i]? = u.get? i
  ended : s.exhausted = true → u = .finite s.cache
  polls : s.polls = s.cache.size + if s.exhausted then 1 else 0

theorem draws_initial {feed : Nat → Option α} (h : u.Of feed) :
    ({ feed } : LazySource α).Draws u where
  feeds := h
  cached := fun i hi => absurd hi (Nat.not_lt_zero i)
  ended := fun hex => absurd hex Bool.false_ne_true
  polls := rfl

theorem Draws.size_le {xs : Array α} (h : s.Draws (.finite xs)) : s.cache.size ≤ xs.size := by
  by_contra hlt
  have hget := h.cached xs.size (by omega)
  rw [Array.getElem?_eq_getElem (by omega)] at hget
  simp [Supply.get?] at hget

theorem Draws.countUpTo_size (h : s.Draws u) : u.countUpTo s.cache.size = s.cache.size := by
  cases u with
  | finite xs => exact Nat.min_eq_right h.size_le
  | endless us => rfl

theorem Draws.feed_polls (h : s.Draws u) (hex : s.exhausted = false) :
    s.feed s.polls = u.get? s.cache.size := by
  have hpolls : s.polls = s.cache.size := by simpa [hex] using h.polls
  rw [hpolls]
  cases u with
  | finite xs => exact h.feeds _ h.size_le
  | endless us => exact h.feeds _

theorem Draws.eq_finite (h : s.Draws u) (hend : u.get? s.cache.size = none) :
    u = .finite s.cache := by
  cases u with
  | endless us => exact absurd hend (Option.some_ne_none _)
  | finite xs =>
    have hge : xs.size ≤ s.cache.size := Array.getElem?_eq_none_iff.mp hend
    have hsize := Nat.le_antisymm hge h.size_le
    congr 1
    apply Array.ext_getElem?
    intro i
    rcases Nat.lt_or_ge i s.cache.size with hi | hi
    · exact (h.cached i hi).symm
    · rw [Array.getElem?_eq_none hi, Array.getElem?_eq_none (by omega)]

theorem Draws.poll (h : s.Draws u) (hex : s.exhausted = false) :
    s.poll.Draws u ∧ s.poll.cache.size = u.countUpTo (s.cache.size + 1) := by
  have hfeed := h.feed_polls hex
  have hpolls : s.polls = s.cache.size := by simpa [hex] using h.polls
  cases hget : u.get? s.cache.size with
  | none =>
    have hpoll : s.poll = { s with exhausted := true, polls := s.polls + 1 } := by
      simp [LazySource.poll, hfeed, hget]
    have hu := h.eq_finite hget
    rw [hpoll]
    refine ⟨⟨h.feeds, h.cached, fun _ => hu, by simp [hpolls]⟩, ?_⟩
    rw [hu]
    exact (Nat.min_eq_left (Nat.le_succ _)).symm
  | some a =>
    have hpoll : s.poll = { s with cache := s.cache.push a, polls := s.polls + 1 } := by
      simp [LazySource.poll, hfeed, hget]
    rw [hpoll]
    refine ⟨⟨h.feeds, fun i hi => ?_, fun h' => ?_, by simp [hpolls, hex]⟩, ?_⟩
    · rw [Array.size_push] at hi
      rcases Nat.lt_or_eq_of_le (Nat.le_of_lt_succ hi) with hi | rfl
      · rw [Array.getElem?_push_lt hi, ← h.cached i hi, Array.getElem?_eq_getElem hi]
      · rw [hget, Array.getElem?_push_size]
    · rw [hex] at h'
      cases h'
    · rw [Array.size_push]
      cases u with
      | endless us => rfl
      | finite xs =>
        have hlt : s.cache.size < xs.size := (Array.getElem?_eq_some_iff.mp hget).1
        exact (Nat.min_eq_right hlt).symm

theorem Draws.pollTimes (h : s.Draws u) (n : Nat) :
    (pollTimes n s).Draws u ∧
      (LazySource.pollTimes n s).cache.size = u.countUpTo (s.cache.size + n) := by
  induction n generalizing s with
  | zero => exact ⟨h, h.countUpTo_size.symm⟩
  | succ n ih =>
    cases hex : s.exhausted with
    | true =>
      rw [pollTimes_of_exhausted hex, h.ended hex]
      exact ⟨h.ended hex ▸ h, (Nat.min_eq_left (Nat.le_add_right _ _)).symm⟩
    | false =>
      rw [LazySource.pollTimes, if_neg (by simp [hex])]
      obtain ⟨hpoll, hsize⟩ := h.poll hex
      obtain ⟨hn, hsizen⟩ := ih hpoll
      refine ⟨hn, ?_⟩
      rw [hsizen, hsize]
      cases u with
      | endless us => exact Nat.add_right_comm _ 1 n
      | finite xs => simp only [Supply.countUpTo]; omega

theorem Draws.ensure (h : s.Draws u) (i : Nat) :
    (s.ensure i).Draws u ∧
      (s.ensure i).cache.size = max s.cache.size (u.countUpTo (i + 1)) := by
  obtain ⟨hd, hsize⟩ := h.pollTimes (i + 1 - s.cache.size)
  refine ⟨hd, hsize.trans ?_⟩
  cases u with
  | endless us => simp only [Supply.countUpTo]; omega
  | finite xs =>
    have hle := h.size_le
    simp only [Supply.countUpTo]
    omega

theorem Draws.justPast (h : s.Draws u) (i : Nat) :
    (s.justPast i).2.Draws u ∧ (s.justPast i).2.cache.size =
      max s.cache.size (u.countUpTo (if i ≤ s.cache.size then 0 else i + 1)) := by
  by_cases hi : i ≤ s.cache.size
  · rw [justPast_of_le hi, if_pos hi]
    refine ⟨h, ?_⟩
    cases u <;> simp [Supply.countUpTo]
  · rw [justPast_of_lt (Nat.lt_of_not_le hi), if_neg hi]
    exact h.ensure i

theorem Draws.agreesWith {xs : Array α} (h : s.Draws (.finite xs)) : s.AgreesWith xs := by
  refine ⟨List.prefix_iff_getElem?.mpr fun i hi => ?_, fun hex => ?_⟩
  · rw [Array.length_toList] at hi
    rw [Array.getElem?_toList, ← Supply.get?, ← h.cached i hi, Array.getElem_toList,
      Array.getElem?_eq_getElem hi]
  · have hu := h.ended hex
    injection hu with hu
    exact hu.symm

theorem Draws.read_endless {us : Nat → α} (h : s.Draws (.endless us)) (i : Nat) :
    (s.read i).1 = .ok (us i) := by
  obtain ⟨hd, hsize⟩ := h.ensure i
  have hi : i < (s.ensure i).cache.size := by
    rw [hsize, Supply.countUpTo]
    omega
  have hget : (s.ensure i).cache[i]? = some (us i) := hd.cached i hi
  rw [read, hget]

theorem Draws.justPast_endless {us : Nat → α} (h : s.Draws (.endless us)) (i : Nat) :
    (s.justPast i).1 = false := by
  rcases Nat.lt_or_ge s.cache.size i with hi | hi
  · rw [justPast_of_lt hi, beq_eq_false_iff_ne, (h.ensure i).2, Supply.countUpTo]
    omega
  · rw [justPast_of_le hi]

end LazySource

namespace Query

theorem draws_drive (h : s.Draws u) (q : Query α β) : (q.drive s).2.Draws u := by
  induction q generalizing s with
  | answer b => exact h
  | read i next ih =>
    have hread : (s.read i).2.Draws u := by
      rw [LazySource.read_snd]
      exact (h.ensure i).1
    exact ih (s.read i).1 hread
  | justPast i next ih => exact ih (s.justPast i).1 (h.justPast i).1

theorem cache_prefix_drive (q : Query α β) (s : LazySource α) :
    s.cache.toList <+: (q.drive s).2.cache.toList := by
  induction q generalizing s with
  | answer b => exact List.prefix_refl _
  | read i next ih =>
    have hread : s.cache.toList <+: (s.read i).2.cache.toList := by
      rw [LazySource.read_snd]
      exact LazySource.cache_prefix_pollTimes _ s
    exact hread.trans (ih (s.read i).1 _)
  | justPast i next ih =>
    have hpast : s.cache.toList <+: (s.justPast i).2.cache.toList := by
      rw [LazySource.justPast]
      split
      · exact List.prefix_refl _
      · exact LazySource.cache_prefix_pollTimes _ s
    exact hpast.trans (ih (s.justPast i).1 _)

theorem drive_finite {xs : Array α} (h : s.Draws (.finite xs)) (q : Query α β) :
    (q.drive s).1 = q.eval xs :=
  (eval_eq_of_agreesWith q (draws_drive h q).agreesWith).2.symm

@[simp]
theorem drive_readAt (i : Nat) (s : LazySource α) :
    (readAt i).drive s = ((s.read i).1, s.ensure i) := by
  rw [← LazySource.read_snd]
  rfl

@[simp]
theorem drive_isJustPast (i : Nat) (s : LazySource α) : (isJustPast i).drive s = s.justPast i := rfl

@[simp]
theorem drive_map {γ : Type} (f : β → γ) (q : Query α β) (s : LazySource α) :
    (f <$> q).drive s = (f (q.drive s).1, (q.drive s).2) := by
  rw [map_eq_pure_bind, drive_bind, drive_pure]

theorem drive_readAt_bind_snd (i : Nat) (s : LazySource α) {f : Except Nat α → Query α β}
    (hf : ∀ r t, ((f r).drive t).2 = t) : ((readAt i >>= f).drive s).2 = s.ensure i := by
  rw [drive_bind, drive_readAt]
  exact hf _ _

theorem drive_get_snd (i : Nat) (s : LazySource α) : ((get i).drive s).2 = s.ensure i :=
  drive_readAt_bind_snd i s fun r _ => by cases r <;> rfl

theorem drive_get?_snd (i : Nat) (s : LazySource α) : ((get? i).drive s).2 = s.ensure i :=
  drive_readAt_bind_snd i s fun _ _ => rfl

theorem drive_atEnd_snd (i : Nat) (s : LazySource α) : ((atEnd i).drive s).2 = s.ensure i :=
  drive_readAt_bind_snd i s fun r _ => by cases r <;> rfl

theorem drive_inRange_snd (i : Nat) (s : LazySource α) : ((inRange i).drive s).2 = s.ensure i :=
  drive_readAt_bind_snd i s fun r _ => by cases r <;> rfl

theorem drive_inRange (h : s.Draws u) (i : Nat) :
    (inRange i).drive s = (decide (u.countUpTo i = i), s.ensure i) := by
  refine Prod.ext ?_ (drive_inRange_snd i s)
  cases u with
  | finite xs =>
    rw [drive_finite h, eval_inRange]
    rw [decide_eq_decide, Supply.countUpTo]
    omega
  | endless us =>
    rw [inRange, drive_bind, drive_readAt, h.read_endless]
    exact (decide_eq_true rfl).symm

theorem drive_checkRange_snd (h : s.Draws u) (extent : Extent) (index size : Nat) :
    ((checkRange extent index size).drive s).2 =
      if u.countUpTo index = index ∧ index + size ≤ maxSize then
        (s.ensure index).ensure (index + size)
      else s.ensure index := by
  have hmore := (h.ensure index).1
  by_cases hi : u.countUpTo index = index
  · by_cases hm : maxSize < index + size
    · simp [checkRange, drive_inRange h, hi, hm, Nat.not_le_of_lt hm]
    · have hle := Nat.le_of_not_lt hm
      by_cases he : u.countUpTo (index + size) = index + size <;>
        simp [checkRange, drive_inRange h, drive_inRange hmore, hi, hm, hle, he]
  · simp [checkRange, drive_inRange h, hi]

theorem drive_make_snd (index count : Nat) (s : LazySource α) :
    ((Window.make index count).drive s).2 = ((checkRange .count index count).drive s).2 := by
  rw [Window.make, drive_bind]
  split <;> rfl

theorem drive_make_endless {us : Nat → α} (h : s.Draws (.endless us)) (index count : Nat) :
    ((Window.make index count).drive s).1 =
      if maxSize < index + count then .error (.tooLong .count index count)
      else .ok ⟨index, count⟩ := by
  have hcheck : ((checkRange .count index count).drive s).1 =
      if maxSize < index + count then .error (.tooLong .count index count) else .ok () := by
    have hmore := (h.ensure index).1
    by_cases hm : maxSize < index + count <;>
      simp [checkRange, drive_inRange h, drive_inRange hmore, Supply.countUpTo, hm]
  rw [Window.make, drive_bind, hcheck]
  by_cases hm : maxSize < index + count <;> simp [hm]

end Query

namespace Probe

theorem drive_ask_fst (h : s.Draws u) (p : Probe) : (p.ask.drive s).1 = u.answer p := by
  cases u with
  | finite xs => exact Query.drive_finite h p.ask
  | endless us =>
    cases p with
    | get i | get? i =>
      simp [ask, Supply.answer, Query.get, Query.get?, h.read_endless, Except.toOption]
    | atStart i => rfl
    | atEnd i => simp [ask, Supply.answer, Query.atEnd, h.read_endless]
    | inRange i => simp [ask, Supply.answer, Query.drive_inRange h, Supply.countUpTo]
    | justPast i => simp [ask, Supply.answer, h.justPast_endless]
    | window index count => simp [ask, Supply.answer, Query.drive_make_endless h]

theorem size_drive_ask (h : s.Draws u) (p : Probe) :
    (p.ask.drive s).2.cache.size =
      max s.cache.size (u.countUpTo (u.demand s.cache.size p)) := by
  cases p with
  | get i | get? i | atEnd i | inRange i =>
    simp only [ask, Query.drive_map, Query.drive_get_snd, Query.drive_get?_snd,
      Query.drive_atEnd_snd, Query.drive_inRange_snd]
    exact (h.ensure i).2
  | atStart i => cases u <;> simp [ask, Supply.demand, Supply.countUpTo]
  | justPast i => exact (h.justPast i).2
  | window index count =>
    obtain ⟨hi, hsize⟩ := h.ensure index
    simp only [ask, Query.drive_map, Query.drive_make_snd, Query.drive_checkRange_snd h,
      Supply.demand]
    split
    · rw [(hi.ensure (index + count)).2, hsize]
      cases u <;> simp only [Supply.countUpTo] <;> omega
    · exact hsize

theorem drive_askAll (h : s.Draws u) (ps : List Probe) :
    ((askAll ps).drive s).1 = ps.map u.answer := by
  induction ps generalizing s with
  | nil => rfl
  | cons p ps ih =>
    have hrest := ih (Query.draws_drive h p.ask)
    rw [askAll] at hrest ⊢
    simp [List.mapM_cons, drive_ask_fst h, hrest]

end Probe

/-- However a sequence that is drawn on demand is asked, it answers as all the items that its feed
gives before the end. Every question adds to the first items that are kept those it needs, and
each of them is polled for once, as is the end. Once the end is known, the position just past it is
a size, for there are not so many items. -/
theorem LazySource.answers_of_supply (feed : Nat → Option α)
    (hsize : ∀ xs, (Supply.finite xs).Of feed → xs.size < maxSize) :
    ∃ u : Supply α, u.Of feed ∧ ∀ ps : List Probe,
      let r := (Probe.askAll ps).drive { feed }
      r.1 = ps.map u.answer ∧ r.2.Draws u ∧
      (r.2.exhausted = true → r.2.cache.size + 1 ≤ maxSize) ∧ ∀ p : Probe,
        r.2.cache.toList <+: (p.ask.drive r.2).2.cache.toList ∧
        (p.ask.drive r.2).2.cache.size =
          max r.2.cache.size (u.countUpTo (u.demand r.2.cache.size p)) := by
  obtain ⟨u, hu⟩ := Supply.exists_of_feed feed
  refine ⟨u, hu, fun ps => ?_⟩
  have hinit := LazySource.draws_initial hu
  have hdraws := Query.draws_drive hinit (Probe.askAll ps)
  refine ⟨Probe.drive_askAll hinit ps, hdraws, fun hend => ?_, fun p =>
    ⟨Query.cache_prefix_drive p.ask _, Probe.size_drive_ask hdraws p⟩⟩
  exact hsize _ (hdraws.ended hend ▸ hu)

/-- A feed that would go on after it has reported the end, asked past the end and then before it. -/
theorem LazySource.answers_of_supply_resuming :
    let feed : Nat → Option Nat := fun i => if i = 2 then none else some i
    let r := (Probe.askAll [.justPast 3, .get 1]).drive { feed }
    r.1 = [.justPast 3, .get 1].map (Supply.finite #[0, 1]).answer ∧
      r.2.Draws (.finite #[0, 1]) ∧ r.2.polls = 3 := by
  intro feed r
  have hsize (xs : Array Nat) (hxs : (Supply.finite xs).Of feed) : xs.size < maxSize := by
    have hend := hxs xs.size (Nat.le_refl _)
    have htwo : xs.size = 2 := by simpa [feed] using hend
    rw [htwo]
    decide
  obtain ⟨u, hu, hall⟩ := answers_of_supply feed hsize
  obtain ⟨hanswers, hdraws, -⟩ := hall [.justPast 3, .get 1]
  obtain rfl : u = .finite #[0, 1] := hdraws.ended rfl
  exact ⟨hanswers, hdraws, rfl⟩

end SeqPattern
