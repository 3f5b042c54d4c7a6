import SeqPattern.Query

namespace SeqPattern.Search

variable {α β γ : Type} {xs : Array α}

/-- A computation that is given for every amount of work allowed comes to the result as soon as
enough work is allowed, and to the same result with any more of it. -/
def Settles (xs : Array α) (f : Nat → Search α β) (b : β) : Prop :=
  ∃ enough, ∀ fuel, enough ≤ fuel → (f fuel).eval xs = some b

theorem settles_pure (b : β) : Settles xs (fun _ => pure b) b := ⟨0, fun _ _ => rfl⟩

theorem settles_ask (xs : Array α) (q : Query α β) : Settles xs (fun _ => ask q) (q.eval xs) :=
  ⟨0, fun _ _ => eval_ask xs q⟩

theorem Settles.bind {f : Nat → Search α β} {g : Nat → β → Search α γ} {b : β} {c : γ}
    (hf : Settles xs f b) (hg : Settles xs (fun fuel => g fuel b) c) :
    Settles xs (fun fuel => f fuel >>= g fuel) c := by
  obtain ⟨m, hm⟩ := hf
  obtain ⟨n, hn⟩ := hg
  refine ⟨max m n, fun fuel h => ?_⟩
  rw [eval_bind, hm fuel (by omega), Option.bind_some]
  exact hn fuel (by omega)

theorem Settles.map {f : Nat → Search α β} {b : β} (hf : Settles xs f b) (g : β → γ) :
    Settles xs (fun fuel => g <$> f fuel) (g b) :=
  hf.bind (settles_pure (g b))

theorem Settles.succ {f g : Nat → Search α β} {b : β} (hf : Settles xs f b)
    (h : ∀ fuel, g (fuel + 1) = f fuel) : Settles xs g b := by
  obtain ⟨n, hn⟩ := hf
  refine ⟨n + 1, fun fuel hle => ?_⟩
  obtain ⟨k, rfl⟩ : ∃ k, fuel = k + 1 := ⟨fuel - 1, by omega⟩
  rw [h]
  exact hn k (by omega)

theorem Settles.of_succ {f g : Nat → Search α β} {b : β} (hg : Settles xs g b)
    (h : ∀ fuel, g (fuel + 1) = f fuel) : Settles xs f b := by
  obtain ⟨n, hn⟩ := hg
  exact ⟨n, fun fuel hle => h fuel ▸ hn (fuel + 1) (by omega)⟩

theorem Settles.of_bind {f : Nat → Search α β} {g : Nat → β → Search α γ} {b : β} {c : γ}
    (hf : Settles xs f b) (h : Settles xs (fun fuel => f fuel >>= g fuel) c) :
    Settles xs (fun fuel => g fuel b) c := by
  obtain ⟨m, hm⟩ := hf
  obtain ⟨n, hn⟩ := h
  refine ⟨max m n, fun fuel hle => ?_⟩
  have hboth := hn fuel (by omega)
  rwa [eval_bind, hm fuel (by omega), Option.bind_some] at hboth

theorem Settles.unique {f : Nat → Search α β} {b c : β} (hb : Settles xs f b)
    (hc : Settles xs f c) : b = c := by
  obtain ⟨m, hm⟩ := hb
  obtain ⟨n, hn⟩ := hc
  have h := (hm (max m n) (by omega)).symm.trans (hn (max m n) (by omega))
  exact Option.some.inj h

section Results

variable {post : β → Prop}

theorem forall_eval_bind {f : Search α γ} {g : γ → Search α β}
    (h : ∀ c, f.eval xs = some c → ∀ b, (g c).eval xs = some b → post b) :
    ∀ b, (f >>= g).eval xs = some b → post b := by
  intro b hb
  rw [eval_bind, Option.bind_eq_some_iff] at hb
  obtain ⟨c, hc, hb⟩ := hb
  exact h c hc b hb

theorem forall_eval_pure {b : β} (h : post b) :
    ∀ c, (pure b : Search α β).eval xs = some c → post c := by
  intro c hc
  cases hc
  exact h

theorem forall_eval_ask_bind {q : Query α γ} {g : γ → Search α β}
    (h : ∀ b, (g (q.eval xs)).eval xs = some b → post b) :
    ∀ b, (ask q >>= g).eval xs = some b → post b := by
  refine forall_eval_bind fun c hc => ?_
  rw [eval_ask] at hc
  cases hc
  exact h

end Results

end SeqPattern.Search
