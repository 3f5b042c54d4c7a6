import SeqPattern.Proofs.Caching

namespace SeqPattern

variable {α β γ : Type} {limit : Nat}

namespace LazySource

theorem size_pollTimes_le (n : Nat) (s : LazySource α) :
    (pollTimes n s).cache.size ≤ s.cache.size + n := by
  induction n generalizing s with
  | zero => exact Nat.le_refl _
  | succ n ih =>
    have hpoll : s.poll.cache.size ≤ s.cache.size + 1 := by
      cases h : s.feed s.polls <;> simp [poll, h]
    have hrest := ih s.poll
    rw [pollTimes]
    split <;> omega

theorem size_ensure_le (s : LazySource α) (i : Nat) :
    (s.ensure i).cache.size ≤ max s.cache.size (i + 1) := by
  have h := size_pollTimes_le (i + 1 - s.cache.size) s
  rw [ensure]
  omega

end LazySource

namespace Query

/-- Whatever is answered, elements are drawn up to the given number at most, and the result is as
said. -/
def DrawsWithin (limit : Nat) (post : β → Prop) (q : Query α β) : Prop :=
  ∀ s : LazySource α, (q.drive s).2.cache.size ≤ max s.cache.size limit ∧ post (q.drive s).1

variable {post : β → Prop} {post' : γ → Prop} {q : Query α β} {i : Nat}

theorem drawsWithin_pure {b : β} (h : post b) : (pure b : Query α β).DrawsWithin limit post :=
  fun _ => ⟨Nat.le_max_left _ _, h⟩

theorem DrawsWithin.bind {f : β → Query α γ} (hq : q.DrawsWithin limit post)
    (hf : ∀ b, post b → (f b).DrawsWithin limit post') : (q >>= f).DrawsWithin limit post' := by
  intro s
  obtain ⟨hsize, hpost⟩ := hq s
  obtain ⟨hsize', hpost'⟩ := hf _ hpost (q.drive s).2
  rw [drive_bind]
  exact ⟨by omega, hpost'⟩

theorem DrawsWithin.imp {post' : β → Prop} (hq : q.DrawsWithin limit post)
    (h : ∀ b, post b → post' b) : q.DrawsWithin limit post' :=
  fun s => (hq s).imp_right (h _)

theorem drawsWithin_of_ensure (hq : ∀ s, (q.drive s).2 = s.ensure i) (hi : i < limit) :
    q.DrawsWithin limit fun _ => True := by
  intro s
  have h := s.size_ensure_le i
  rw [hq s]
  exact ⟨by omega, trivial⟩

theorem drawsWithin_inRange (hi : i < limit) :
    (inRange i : Query α Bool).DrawsWithin limit fun _ => True :=
  drawsWithin_of_ensure (drive_inRange_snd i) hi

theorem drawsWithin_checkRange {extent : Extent} {index size : Nat} (h : index + size < limit) :
    (checkRange extent index size : Query α (Except Failure Unit)).DrawsWithin limit
      fun _ => True := by
  refine (drawsWithin_inRange (by omega)).bind fun first _ => ?_
  split
  · exact drawsWithin_pure trivial
  split
  · exact drawsWithin_pure trivial
  refine (drawsWithin_inRange h).bind fun last _ => ?_
  split <;> exact drawsWithin_pure trivial

theorem drawsWithin_make {index length : Nat} {success : Bool} (h : index + length < limit) :
    (Match.make index length success : Query α (Except Failure Match)).DrawsWithin limit
      fun r => ∀ m ∈ r.toOption, m = ⟨index, length, success⟩ := by
  refine (drawsWithin_checkRange h).bind fun checked _ => ?_
  cases checked with
  | error f => exact drawsWithin_pure (by simp [Except.toOption])
  | ok =>
    dsimp only
    split
    · exact drawsWithin_pure (by simp [Except.toOption])
    · exact drawsWithin_pure (by simp [Except.toOption])

theorem drawsWithin_ofOutcomeChecked {r : Outcome} (h : i + r.length < limit) :
    (Match.ofOutcomeChecked i r : Query α (Option Match)).DrawsWithin limit
      fun m => ∀ m' ∈ m, m' = ⟨i, r.length, true⟩ := by
  rw [Match.ofOutcomeChecked]
  split
  · exact (drawsWithin_make h).bind fun _ hm => drawsWithin_pure hm
  · exact drawsWithin_pure (by simp)

theorem drawsWithin_matchAt [BEq α] {c : ElementClass α} (hc : c.isProbing = false)
    (hi : i < limit) : (c.matchAt i).DrawsWithin limit fun r => r.length ≤ 1 := by
  cases c with
  | probing name holds probe => cases hc
  | any | value b | predicate label holds | oneOf cs | noneOf cs | not c =>
    refine (drawsWithin_of_ensure (drive_get?_snd i) hi).bind fun a _ => ?_
    cases a with
    | none => exact drawsWithin_pure (Nat.zero_le 1)
    | some a =>
      refine drawsWithin_pure ?_
      simp only [Outcome.oneElement]
      split <;> simp

end Query

namespace Search

/-- The same of a computation that may run out of the work it is allowed. -/
def DrawsWithin (limit : Nat) (post : β → Prop) (s : Search α β) : Prop :=
  Query.DrawsWithin limit (fun r => ∀ b ∈ r, post b) s.run

variable {post : β → Prop} {post' : γ → Prop}

theorem drawsWithin_pure {b : β} (h : post b) : DrawsWithin limit post (pure b : Search α β) :=
  Query.drawsWithin_pure (by simpa using h)

theorem drawsWithin_failure : DrawsWithin limit post (failure : Search α β) :=
  Query.drawsWithin_pure (by simp)

theorem drawsWithin_ask {q : Query α β} (h : q.DrawsWithin limit post) :
    DrawsWithin limit post (ask q) :=
  Query.DrawsWithin.bind h fun _ hb => Query.drawsWithin_pure (by simpa using hb)

theorem DrawsWithin.bind {s : Search α β} {f : β → Search α γ} (hs : DrawsWithin limit post s)
    (hf : ∀ b, post b → DrawsWithin limit post' (f b)) : DrawsWithin limit post' (s >>= f) := by
  rw [DrawsWithin, OptionT.run_bind]
  refine Query.DrawsWithin.bind hs fun r hr => ?_
  cases r with
  | none => exact Query.drawsWithin_pure (by simp)
  | some b => exact hf b (hr b rfl)

theorem DrawsWithin.of_drive {s : Search α β} {b : β} {source later : LazySource α}
    (hs : DrawsWithin limit post s) (h : s.run.drive source = (some b, later)) :
    later.cache.size ≤ max source.cache.size limit ∧ post b := by
  obtain ⟨hsize, hpost⟩ := hs source
  rw [h] at hsize hpost
  exact ⟨hsize, hpost b rfl⟩

theorem drive_ask (q : Query α β) (source : LazySource α) :
    (ask q).run.drive source = (some (q.drive source).1, (q.drive source).2) :=
  Query.drive_bind q _ source

theorem drive_bind_eq_some_iff {s : Search α β} {f : β → Search α γ} {c : γ}
    {source later : LazySource α} :
    (s >>= f).run.drive source = (some c, later) ↔
      ∃ b mid, s.run.drive source = (some b, mid) ∧ (f b).run.drive mid = (some c, later) := by
  rw [OptionT.run_bind, Option.elimM, Query.drive_bind]
  generalize s.run.drive source = r
  obtain ⟨b, mid⟩ := r
  cases b with
  | none => simp
  | some b => simp [and_assoc]

end Search

end SeqPattern
