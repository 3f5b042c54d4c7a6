import SeqPattern.Cursor.Next
import SeqPattern.Proofs.Settling

namespace SeqPattern

open Search

variable {α : Type} [BEq α] {xs : Array α}

namespace Cursor

/-- Drawing gives the matches one after the other, then the end, and from there on always the
end. -/
inductive Yields (xs : Array α) : Cursor α → List Match → Prop
  | stop {c d : Cursor α} (first : Settles xs (fun fuel => next fuel c) (none, d))
      (again : Settles xs (fun fuel => next fuel d) (none, d)) : Yields xs c []
  | give {c d : Cursor α} {m : Match} {ms : List Match}
      (first : Settles xs (fun fuel => next fuel c) (some m, d)) (rest : Yields xs d ms) :
      Yields xs c (m :: ms)

theorem Yields.unique {c : Cursor α} {ms ns : List Match} (hm : c.Yields xs ms)
    (hn : c.Yields xs ns) : ms = ns := by
  induction hm generalizing ns with
  | stop first again =>
    cases hn with
    | stop first' again' => rfl
    | give first' rest' =>
      have h := first.unique first'
      cases h
  | give first rest ih =>
    cases hn with
    | stop first' again' =>
      have h := first.unique first'
      cases h
    | give first' rest' =>
      have h := first.unique first'
      cases h
      rw [ih rest']

theorem Yields.settles_next {c : Cursor α} {ms : List Match} (h : c.Yields xs ms) :
    ∃ d, Settles xs (fun fuel => next fuel c) (ms.head?, d) := by
  cases h with
  | stop first again => exact ⟨_, first⟩
  | give first rest => exact ⟨_, first⟩

/-- Drawing a number of matches meets the end exactly when there are fewer, and the cursor left
behind then reports the end and stays as it is. -/
theorem Yields.eval_takeAfter {c : Cursor α} {ms : List Match} (h : c.Yields xs ms) :
    ∃ enough, ∀ fuel, enough ≤ fuel → ∀ k before, ∃ d,
      (takeAfter fuel k before c).eval xs =
        some (before.reverse ++ ms.take k, decide (ms.length < k), d) ∧
      (ms.length < k → (next fuel d).eval xs = some (none, d)) := by
  induction h with
  | @stop c d first again =>
    obtain ⟨p, hp⟩ := first
    obtain ⟨q, hq⟩ := again
    refine ⟨max p q, fun fuel hle k before => ?_⟩
    cases k with
    | zero => exact ⟨c, by simp [takeAfter], fun h => by simp at h⟩
    | succ k =>
      refine ⟨d, ?_, fun _ => hq fuel (by omega)⟩
      simp [takeAfter, hp fuel (by omega)]
  | @give c d m ms first rest ih =>
    obtain ⟨p, hp⟩ := first
    obtain ⟨q, hq⟩ := ih
    refine ⟨max p q, fun fuel hle k before => ?_⟩
    cases k with
    | zero => exact ⟨c, by simp [takeAfter], fun h => by simp at h⟩
    | succ k =>
      obtain ⟨d', hd, hstop⟩ := hq fuel (by omega) k (m :: before)
      refine ⟨d', ?_, fun hlt => hstop (by simpa using hlt)⟩
      simp [takeAfter, hp fuel (by omega), hd]

theorem Yields.settles_holds {c : Cursor α} {ms : List Match} (h : c.Yields xs ms)
    (p : Match → Bool) : Settles xs (fun fuel => holds fuel p c) (ms.any p) := by
  induction h with
  | stop first again => exact (first.bind (settles_pure false)).succ fun fuel => rfl
  | @give c d m ms first rest ih =>
    by_cases hm : p m = true
    · have hany : (m :: ms).any p = true := by simp [hm]
      rw [hany]
      refine (first.bind (g := fun fuel r => _) ?_).succ fun fuel => rfl
      have htrue : Settles xs (fun _ => pure true) true := settles_pure true
      simpa [hm] using! htrue
    · have hany : (m :: ms).any p = ms.any p := by simp [hm]
      rw [hany]
      refine (first.bind (g := fun fuel r => _) ?_).succ fun fuel => rfl
      simpa [hm] using! ih

/-- A kind of cursor that is drawn from by taking turns. -/
def TakesTurns {σ : Type} (wrap : σ → Cursor α)
    (turn : Children α (Cursor α) → σ → Search α (Turn σ)) : Prop :=
  ∀ fuel s, next (fuel + 1) (wrap s) = turn (children fuel) s >>= afterTurn (children fuel) wrap

theorem takesTurns_sequence : TakesTurns (α := α) sequence SequenceCursor.turn :=
  fun _ _ => rfl

theorem takesTurns_alternation : TakesTurns (α := α) alternation AlternationCursor.turn :=
  fun _ _ => rfl

theorem takesTurns_lazy : TakesTurns (α := α) lazy LazyCursor.turn := fun _ _ => rfl

theorem takesTurns_greedy : TakesTurns (α := α) greedy GreedyCursor.turn := fun _ _ => rfl

section Turns

variable {σ : Type} {wrap : σ → Cursor α}
  {turn : Children α (Cursor α) → σ → Search α (Turn σ)} {s t : σ} {m : Match} {ms : List Match}

abbrev Turns (xs : Array α) (turn : Children α (Cursor α) → σ → Search α (Turn σ)) (s : σ)
    (t : Turn σ) : Prop :=
  Settles xs (fun fuel => turn (children fuel) s) t

theorem TakesTurns.give (h : TakesTurns wrap turn) (ht : Turns xs turn s (.give m t))
    (hr : (wrap t).Yields xs ms) : (wrap s).Yields xs (m :: ms) :=
  .give ((ht.bind (settles_pure (some m, wrap t))).succ fun fuel => h fuel s) hr

theorem TakesTurns.again (h : TakesTurns wrap turn) (ht : Turns xs turn s (.again t))
    (hr : (wrap t).Yields xs ms) : (wrap s).Yields xs ms := by
  cases hr with
  | stop first again => exact .stop ((ht.bind first).succ fun fuel => h fuel s) again
  | give first rest => exact .give ((ht.bind first).succ fun fuel => h fuel s) rest

theorem TakesTurns.give_if {p : Prop} [Decidable p] (h : TakesTurns wrap turn)
    (ht : Turns xs turn s (if p then .give m t else .again t)) (hr : (wrap t).Yields xs ms) :
    (wrap s).Yields xs ((if p then [m] else []) ++ ms) := by
  by_cases hp : p
  · rw [if_pos hp] at ht ⊢
    exact h.give ht hr
  · rw [if_neg hp] at ht ⊢
    exact h.again ht hr

theorem TakesTurns.stop (h : TakesTurns wrap turn) (ht : Turns xs turn s (.stop s)) :
    (wrap s).Yields xs [] := by
  have hs : Settles xs (fun fuel => next fuel (wrap s)) (none, wrap s) :=
    (ht.bind (settles_pure (none, wrap s))).succ fun fuel => h fuel s
  exact .stop hs hs

end Turns

theorem yields_ready (m : Option Match) : (ready m : Cursor α).Yields xs m.toList := by
  have hnone : Settles xs (fun fuel => next fuel (ready none)) (none, ready none) :=
    (settles_pure _).succ fun _ => rfl
  cases m with
  | none => exact .stop hnone hnone
  | some m => exact .give ((settles_pure _).succ fun _ => rfl) (.stop hnone hnone)

end Cursor

namespace Expression

/-- Opening the pattern at the position gives a cursor that yields the matches. -/
def Enumerates (xs : Array α) (e : Expression α) (i : Nat) (ms : List Match) : Prop :=
  ∃ c, Settles xs (fun fuel => Cursor.start fuel e i) c ∧ c.Yields xs ms

theorem Enumerates.unique {e : Expression α} {i : Nat} {ms ns : List Match}
    (hm : e.Enumerates xs i ms) (hn : e.Enumerates xs i ns) : ms = ns := by
  obtain ⟨c, hc, hm⟩ := hm
  obtain ⟨d, hd, hn⟩ := hn
  cases hc.unique hd
  exact hm.unique hn

end Expression

end SeqPattern
