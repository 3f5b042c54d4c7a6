import SeqPattern.Proofs.Enumeration
import SeqPattern.Proofs.Work

namespace SeqPattern

open Search

variable {α : Type}

def Turn.state {σ : Type} : Turn σ → σ
  | give _ s | again s | stop s => s

@[simp]
theorem Turn.state_ite {σ : Type} (p : Prop) [Decidable p] (m : Match) (s : σ) :
    (if p then Turn.give m s else .again s).state = s := by
  split <;> rfl

variable [BEq α] {xs : Array α}

namespace Cursor

/-- The position that the ranges of the matches are taken from, where it is kept. -/
def index? : Cursor α → Option Nat
  | ready _ | candidates _ => none
  | sequence s => some s.index
  | alternation s => some s.index
  | lazy s => some s.index
  | greedy s => some s.index

def opens : Cursor α → List (Cursor α)
  | ready _ | candidates _ => []
  | sequence s => s.stack.map (·.cursor)
  | alternation s => s.current.toList
  | lazy s => s.stack.map (·.cursor)
  | greedy s => s.stack.map (·.cursor)

/-- The cursor itself, what is open in it, and so on however deep. -/
inductive Nests (c : Cursor α) : Cursor α → Prop
  | self : Nests c c
  | child {d b : Cursor α} (h : Nests c d) (hb : b ∈ d.opens) : Nests c b

def repeated? : Cursor α → Option (Repeated α)
  | lazy s => some s.toRepeated
  | greedy s => some s.toRepeated
  | _ => none

def ends : Cursor α → List Nat
  | greedy s => s.ends
  | _ => []

inductive Proceeds (xs : Array α) : Cursor α → Cursor α → Prop
  | ready (m : Option Match) : Proceeds xs (ready m) (ready none)
  | candidates (cs : Candidates α) : Proceeds xs (candidates cs) (candidates (cs.next.eval xs).2)
  | sequence {s t} (h : Turns xs SequenceCursor.turn s t) :
    Proceeds xs (sequence s) (sequence t.state)
  | alternation {s t} (h : Turns xs AlternationCursor.turn s t) :
    Proceeds xs (alternation s) (alternation t.state)
  | lazy {s t} (h : Turns xs LazyCursor.turn s t) : Proceeds xs (lazy s) (lazy t.state)
  | greedy {s t} (h : Turns xs GreedyCursor.turn s t) : Proceeds xs (greedy s) (greedy t.state)

theorem TakesTurns.yields_state {σ : Type} {wrap : σ → Cursor α}
    {turn : Children α (Cursor α) → σ → Search α (Turn σ)} {s : σ} {t : Turn σ} {ms : List Match}
    (h : TakesTurns wrap turn) (ht : Turns xs turn s t) (hms : (wrap s).Yields xs ms) :
    ∃ rest, (wrap t.state).Yields xs rest ∧ rest <:+ ms := by
  have hafter {b} (hb : Settles xs (fun fuel => next fuel (wrap s)) b) :
      Settles xs (fun fuel => afterTurn (children fuel) wrap t) b :=
    ht.of_bind (hb.of_succ fun fuel => h fuel s)
  cases hms with
  | stop first again =>
    cases t with
    | give m s' => cases (hafter first).unique (settles_pure (some m, wrap s'))
    | again s' => exact ⟨[], .stop (hafter first) again, List.suffix_refl []⟩
    | stop s' =>
      cases (hafter first).unique (settles_pure (none, wrap s'))
      exact ⟨[], .stop again again, List.suffix_refl []⟩
  | @give _ d m ms first rest =>
    cases t with
    | give m' s' =>
      cases (hafter first).unique (settles_pure (some m', wrap s'))
      exact ⟨ms, rest, List.suffix_cons m ms⟩
    | again s' => exact ⟨m :: ms, .give (hafter first) rest, List.suffix_refl _⟩
    | stop s' => cases (hafter first).unique (settles_pure (none, wrap s'))

/-- Of what was to come, a turn leaves all or all but the first. -/
theorem Proceeds.yields {c d : Cursor α} {ms : List Match} (h : c.Proceeds xs d)
    (hms : c.Yields xs ms) : ∃ rest, d.Yields xs rest ∧ rest <:+ ms := by
  cases h with
  | ready m => exact ⟨[], yields_ready none, List.nil_suffix⟩
  | candidates cs =>
    have hdrawn : Settles xs (fun fuel => drawn (children fuel) (.candidates cs))
        ((cs.next.eval xs).1, .candidates (cs.next.eval xs).2) :=
      (settles_ask xs cs.next).bind (settles_pure _)
    have hnext : Settles xs (fun fuel => next fuel (.candidates cs))
        ((cs.next.eval xs).1, .candidates (cs.next.eval xs).2) := hdrawn.succ fun _ => rfl
    cases hms with
    | stop first again =>
      obtain ⟨_, rfl⟩ := Prod.mk.inj (first.unique hnext)
      exact ⟨[], .stop again again, List.suffix_refl []⟩
    | give first rest =>
      obtain ⟨_, rfl⟩ := Prod.mk.inj (first.unique hnext)
      exact ⟨_, rest, List.suffix_cons _ _⟩
  | sequence ht => exact takesTurns_sequence.yields_state ht hms
  | alternation ht => exact takesTurns_alternation.yields_state ht hms
  | lazy ht => exact takesTurns_lazy.yields_state ht hms
  | greedy ht => exact takesTurns_greedy.yields_state ht hms

end Cursor

namespace Expression

/-- The cursors that an enumeration of the pattern from the position passes through, turn by
turn. -/
inductive Passes (xs : Array α) (e : Expression α) (i : Nat) : Cursor α → Prop
  | opened {c : Cursor α} (h : Settles xs (fun fuel => Cursor.start fuel e i) c) : Passes xs e i c
  | turned {c d : Cursor α} (h : Passes xs e i c) (ht : c.Proceeds xs d) : Passes xs e i d

variable {e : Expression α} {i : Nat} {c d : Cursor α} {m : Option Match}

theorem Passes.yields {ms : List Match} (h : e.Passes xs i c) (hms : e.Enumerates xs i ms) :
    ∃ rest, c.Yields xs rest ∧ rest <:+ ms := by
  induction h with
  | opened h =>
    obtain ⟨c', hc', hms⟩ := hms
    cases h.unique hc'
    exact ⟨ms, hms, List.suffix_refl ms⟩
  | turned h ht ih =>
    obtain ⟨left, hleft, hsuffix⟩ := ih
    obtain ⟨rest, hrest, hshort⟩ := ht.yields hleft
    exact ⟨rest, hrest, hshort.trans hsuffix⟩

theorem Passes.afterTurn {σ : Type} {wrap : σ → Cursor α}
    {turn : Children α (Cursor α) → σ → Search α (Turn σ)} {s : σ} {fuel : Nat}
    (hmono : Monotone fun fuel => turn (Cursor.children fuel) s)
    (hturned : ∀ {t}, Cursor.Turns xs turn s t → e.Passes xs i (wrap t.state))
    (hrest : ∀ {c}, e.Passes xs i c → (Cursor.next fuel c).eval xs = some (m, d) →
      e.Passes xs i d)
    (h : (turn (Cursor.children fuel) s >>=
      Cursor.afterTurn (Cursor.children fuel) wrap).eval xs = some (m, d)) :
    e.Passes xs i d := by
  rw [eval_bind, Option.bind_eq_some_iff] at h
  obtain ⟨t, ht, hafter⟩ := h
  have hpass := hturned (.of_monotone hmono ht)
  cases t with
  | again s' => exact hrest hpass hafter
  | give m' s' | stop s' =>
    cases hafter
    exact hpass

theorem Passes.next {fuel : Nat} (h : e.Passes xs i c)
    (hnext : (Cursor.next fuel c).eval xs = some (m, d)) : e.Passes xs i d := by
  -- Each unit of work is a turn, or what is tested at once.
  induction fuel generalizing c with
  | zero => cases hnext
  | succ fuel ih =>
    rw [Cursor.next_succ] at hnext
    cases c with
    | ready m' =>
      cases hnext
      exact h.turned (.ready _)
    | candidates cs =>
      simp only [Cursor.drawn, eval_bind, eval_ask, Option.bind_some, eval_pure] at hnext
      cases hnext
      exact h.turned (.candidates cs)
    | sequence s =>
      exact .afterTurn (fun _ _ hle => s.turn_mono (Cursor.children_below hle))
        (fun ht => h.turned (.sequence ht)) ih hnext
    | alternation s =>
      exact .afterTurn (fun _ _ hle => s.turn_mono (Cursor.children_below hle))
        (fun ht => h.turned (.alternation ht)) ih hnext
    | lazy s =>
      exact .afterTurn (fun _ _ hle => s.turn_mono (Cursor.children_below hle))
        (fun ht => h.turned (.lazy ht)) ih hnext
    | greedy s =>
      exact .afterTurn (fun _ _ hle => s.turn_mono (Cursor.children_below hle))
        (fun ht => h.turned (.greedy ht)) ih hnext

theorem Passes.takeAfter {fuel k : Nat} {before ms : List Match} {complete : Bool}
    (h : e.Passes xs i c)
    (htake : (Cursor.takeAfter fuel k before c).eval xs = some (ms, complete, d)) :
    e.Passes xs i d := by
  induction k generalizing before c with
  | zero =>
    cases htake
    exact h
  | succ k ih =>
    rw [Cursor.takeAfter, eval_bind, Option.bind_eq_some_iff] at htake
    obtain ⟨⟨m, c'⟩, hnext, hrest⟩ := htake
    have hpass := h.next hnext
    cases m with
    | none =>
      cases hrest
      exact hpass
    | some m => exact ih hpass hrest

end Expression

end SeqPattern
