import SeqPattern.Source.Lazy

namespace SeqPattern

variable {α β : Type}

namespace LazySource

variable {s : LazySource α} {xs : Array α}

theorem pollTimes_of_exhausted (h : s.exhausted = true) (n : Nat) : pollTimes n s = s := by
  cases n with
  | zero => rfl
  | succ n => rw [pollTimes, if_pos h]

theorem cache_prefix_poll (s : LazySource α) : s.cache.toList <+: s.poll.cache.toList := by
  cases h : s.feed s.polls with
  | none => simp [poll, h]
  | some a => simp [poll, h]

theorem cache_prefix_pollTimes (n : Nat) (s : LazySource α) :
    s.cache.toList <+: (pollTimes n s).cache.toList := by
  induction n generalizing s with
  | zero => exact List.prefix_refl _
  | succ n ih =>
    by_cases h : s.exhausted = true
    · simp only [pollTimes_of_exhausted h, List.prefix_refl]
    · rw [pollTimes, if_neg h]
      exact (cache_prefix_poll s).trans (ih s.poll)

theorem reached_or_exhausted (n : Nat) (s : LazySource α) :
    s.cache.size + n ≤ (pollTimes n s).cache.size ∨ (pollTimes n s).exhausted = true := by
  induction n generalizing s with
  | zero => exact Or.inl (Nat.le_refl _)
  | succ n ih =>
    by_cases h : s.exhausted = true
    · rw [pollTimes_of_exhausted h]
      exact Or.inr h
    · rw [pollTimes, if_neg h]
      cases hf : s.feed s.polls with
      | none =>
        have hex : s.poll.exhausted = true := by simp [poll, hf]
        rw [pollTimes_of_exhausted hex]
        exact Or.inr hex
      | some a =>
        have hsize : s.poll.cache.size = s.cache.size + 1 := by simp [poll, hf]
        exact (ih s.poll).imp_left fun hn => by omega

theorem known_or_exhausted (s : LazySource α) (i : Nat) :
    i < (s.ensure i).cache.size ∨ (s.ensure i).exhausted = true :=
  (reached_or_exhausted (i + 1 - s.cache.size) s).imp_left fun h => by
    rw [ensure]
    omega

theorem ensure_of_lt {i : Nat} (h : i < s.cache.size) : s.ensure i = s := by
  rw [ensure, Nat.sub_eq_zero_of_le (Nat.succ_le_of_lt h)]
  rfl

@[simp]
theorem read_snd (s : LazySource α) (i : Nat) : (s.read i).2 = s.ensure i := by
  simp only [read]
  split <;> rfl

theorem justPast_of_le {i : Nat} (h : i ≤ s.cache.size) : s.justPast i = (false, s) := if_pos h

theorem justPast_of_lt {i : Nat} (h : s.cache.size < i) :
    s.justPast i = (i == (s.ensure i).cache.size + 1, s.ensure i) :=
  if_neg (Nat.not_le_of_lt h)

/-- As far as the elements drawn tell, the whole sequence could be this one. -/
structure AgreesWith (s : LazySource α) (xs : Array α) : Prop where
  cached : s.cache.toList <+: xs.toList
  whole : s.exhausted = true → s.cache = xs

theorem agreesWith_cache (s : LazySource α) : s.AgreesWith s.cache :=
  ⟨List.prefix_refl _, fun _ => rfl⟩

theorem AgreesWith.of_pollTimes {n : Nat} (h : (pollTimes n s).AgreesWith xs) :
    s.AgreesWith xs := by
  refine ⟨(cache_prefix_pollTimes n s).trans h.cached, fun hex => ?_⟩
  rw [pollTimes_of_exhausted hex] at h
  exact h.whole hex

theorem AgreesWith.size_le (h : s.AgreesWith xs) : s.cache.size ≤ xs.size := by
  simpa using h.cached.length_le

theorem AgreesWith.getElem?_eq (h : s.AgreesWith xs) {i : Nat} (hi : i < s.cache.size) :
    xs[i]? = s.cache[i]? := by
  have hget := List.prefix_iff_getElem?.mp h.cached i (by simpa using hi)
  simpa [hi] using hget

theorem AgreesWith.answer_read {i : Nat} (h : (s.ensure i).AgreesWith xs) :
    (Query.readAt i).eval xs = (s.read i).1 := by
  rcases known_or_exhausted s i with hi | hex
  · have hget : (s.ensure i).cache[i]? = some (s.ensure i).cache[i] := Array.getElem?_eq_getElem hi
    have hxs : xs[i]? = some (s.ensure i).cache[i] := (h.getElem?_eq hi).trans hget
    simp [read, Query.readAt, Query.eval, hget, hxs]
  · rw [read, h.whole hex]
    cases hi : xs[i]? <;> simp [Query.readAt, Query.eval, hi]

theorem AgreesWith.answer_justPast {i : Nat} (h : (s.justPast i).2.AgreesWith xs) :
    s.AgreesWith xs ∧ (Query.isJustPast i).eval xs = (s.justPast i).1 := by
  have hpast : (Query.isJustPast i).eval xs = (i == xs.size + 1) := rfl
  rcases Nat.lt_or_ge s.cache.size i with hi | hi
  · rw [justPast_of_lt hi] at h ⊢
    refine ⟨h.of_pollTimes, ?_⟩
    rcases known_or_exhausted s i with hk | hex
    · have hle : (s.ensure i).cache.size ≤ xs.size := h.size_le
      rw [hpast, Bool.eq_iff_iff, beq_iff_eq, beq_iff_eq]
      omega
    · rw [hpast, h.whole hex]
  · rw [justPast_of_le hi] at h ⊢
    have hle : s.cache.size ≤ xs.size := h.size_le
    refine ⟨h, ?_⟩
    rw [hpast, beq_eq_false_iff_ne]
    omega

end LazySource

/-- A sequence that agrees with all that has been drawn in the end would have given the same
answers. -/
theorem Query.eval_eq_of_agreesWith {xs : Array α} (q : Query α β) {s : LazySource α}
    (h : (q.drive s).2.AgreesWith xs) : s.AgreesWith xs ∧ q.eval xs = (q.drive s).1 := by
  induction q generalizing s with
  | answer b => exact ⟨h, rfl⟩
  | read i next ih =>
    obtain ⟨hread, hnext⟩ := ih (s.read i).1 (s := (s.read i).2) h
    rw [LazySource.read_snd] at hread
    have hanswer : (readAt i).eval xs = (s.read i).1 := hread.answer_read
    exact ⟨hread.of_pollTimes, (congrArg (fun r => (next r).eval xs) hanswer).trans hnext⟩
  | justPast i next ih =>
    obtain ⟨hpast, hnext⟩ := ih (s.justPast i).1 (s := (s.justPast i).2) h
    obtain ⟨hs, hanswer⟩ := hpast.answer_justPast
    exact ⟨hs, (congrArg (fun b => (next b).eval xs) hanswer).trans hnext⟩

end SeqPattern
