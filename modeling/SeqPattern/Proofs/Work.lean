import Mathlib.Order.Monotone.Basic
import SeqPattern.Proofs.Settling
import SeqPattern.Session

namespace SeqPattern

variable {α β γ : Type}

/-- Both ask the same questions and come to the same result, except that the second may go on where
the first has used up the work it is allowed. -/
inductive Query.GoesOn : Query α (Option β) → Query α (Option β) → Prop
  | spent (q : Query α (Option β)) : GoesOn (.answer none) q
  | result (b : β) : GoesOn (.answer (some b)) (.answer (some b))
  | read (i : Nat) {k l : Except Nat α → Query α (Option β)} (h : ∀ r, GoesOn (k r) (l r)) :
    GoesOn (.read i k) (.read i l)
  | justPast (i : Nat) {k l : Bool → Query α (Option β)} (h : ∀ b, GoesOn (k b) (l b)) :
    GoesOn (.justPast i k) (.justPast i l)

namespace Query.GoesOn

theorem refl (q : Query α (Option β)) : q.GoesOn q := by
  induction q with
  | answer b =>
    cases b with
    | none => exact .spent _
    | some b => exact .result b
  | read i next ih => exact .read i ih
  | justPast i next ih => exact .justPast i ih

theorem trans {p q r : Query α (Option β)} (hpq : p.GoesOn q) (hqr : q.GoesOn r) :
    p.GoesOn r := by
  induction hpq generalizing r with
  | spent q => exact .spent r
  | result b => exact hqr
  | read i h ih =>
    cases hqr with
    | read i h' => exact .read i fun a => ih a (h' a)
  | justPast i h ih =>
    cases hqr with
    | justPast i h' => exact .justPast i fun b => ih b (h' b)

theorem bind {p q : Query α (Option β)} {f g : β → Search α γ} (h : p.GoesOn q)
    (hf : ∀ b, (f b).run.GoesOn (g b).run) :
    (OptionT.mk p >>= f).run.GoesOn (OptionT.mk q >>= g).run := by
  induction h with
  | spent q => exact .spent _
  | result b => exact hf b
  | read i h ih => exact .read i ih
  | justPast i h ih => exact .justPast i ih

theorem eval {p q : Query α (Option β)} (h : p.GoesOn q) {xs : Array α} {b : β}
    (hp : p.eval xs = some b) : q.eval xs = some b := by
  induction h with
  | spent q => cases hp
  | result b => exact hp
  | read i h ih => exact ih _ hp
  | justPast i h ih => exact ih _ hp

end Query.GoesOn

namespace Search

instance : Preorder (Search α β) where
  le s t := s.run.GoesOn t.run
  le_refl s := .refl s.run
  le_trans _ _ _ := .trans

theorem failure_le (s : Search α β) : failure ≤ s := Query.GoesOn.spent s.run

theorem bind_mono {s t : Search α β} {f g : β → Search α γ} (h : s ≤ t) (hf : ∀ b, f b ≤ g b) :
    s >>= f ≤ t >>= g :=
  Query.GoesOn.bind h hf

theorem bind_mono_left {s t : Search α β} (h : s ≤ t) {g : β → Search α γ} : s >>= g ≤ t >>= g :=
  bind_mono h fun _ => le_refl _

theorem bind_mono_right {s : Search α β} {f g : β → Search α γ} (h : ∀ b, f b ≤ g b) :
    s >>= f ≤ s >>= g :=
  bind_mono (le_refl s) h

theorem Settles.of_monotone {f : Nat → Search α β} (hf : Monotone f) {xs : Array α} {fuel : Nat}
    {b : β} (h : (f fuel).eval xs = some b) : Settles xs f b :=
  ⟨fuel, fun _ hle => (hf hle).eval h⟩

theorem Settles.exists_of_bind {f : Nat → Search α β} {g : Nat → β → Search α γ} {xs : Array α}
    {c : γ} (h : Settles xs (fun fuel => f fuel >>= g fuel) c) (hf : Monotone f) :
    ∃ b, Settles xs f b ∧ Settles xs (fun fuel => g fuel b) c := by
  obtain ⟨enough, heval⟩ := id h
  have hboth := heval enough (Nat.le_refl enough)
  rw [eval_bind, Option.bind_eq_some_iff] at hboth
  obtain ⟨b, hb, -⟩ := hboth
  have hfirst := Settles.of_monotone hf hb
  exact ⟨b, hfirst, hfirst.of_bind h⟩

end Search

open Search

/-- What the first opens, draws and tests the second does as well, perhaps with more work. -/
structure Children.Below (c d : Children α γ) : Prop where
  start : ∀ e i, c.start e i ≤ d.start e i
  next : ∀ s, c.next s ≤ d.next s
  holds : ∀ p s, c.holds p s ≤ d.holds p s

section Turns

variable {c d : Children α γ} (h : c.Below d)

include h

theorem SequenceCursor.turn_mono (s : SequenceCursor α γ) :
    SequenceCursor.turn c s ≤ SequenceCursor.turn d s := by
  obtain ⟨i, stack⟩ := s
  cases stack with
  | nil => exact le_refl _
  | cons top below =>
    refine bind_mono (h.next top.cursor) fun r => ?_
    obtain ⟨m, cursor⟩ := r
    cases m with
    | none => exact le_refl _
    | some m =>
      obtain ⟨_, after⟩ := top
      cases after with
      | nil => exact le_refl _
      | cons part after => exact bind_mono_left (h.start part m.stop)

theorem AlternationCursor.turn_mono (s : AlternationCursor α γ) :
    AlternationCursor.turn c s ≤ AlternationCursor.turn d s := by
  obtain ⟨i, current, rest⟩ := s
  cases current with
  | some child => exact bind_mono_left (h.next child)
  | none =>
    cases rest with
    | nil => exact le_refl _
    | cons e es => exact bind_mono_left (h.start e i)

theorem LazyCursor.deepen_mono (s : LazyCursor α γ) (position : Nat) :
    LazyCursor.deepen c s position ≤ LazyCursor.deepen d s position := by
  simp only [deepen]
  split
  · exact bind_mono_left (h.start s.child position)
  · exact le_refl _

theorem LazyCursor.turn_mono (s : LazyCursor α γ) :
    LazyCursor.turn c s ≤ LazyCursor.turn d s := by
  obtain ⟨r, started, stack⟩ := s
  cases started with
  | false => exact bind_mono_left (deepen_mono h _ _)
  | true =>
    cases stack with
    | nil => exact le_refl _
    | cons top below =>
      refine bind_mono (h.next top.cursor) fun r => ?_
      obtain ⟨m, cursor⟩ := r
      cases m with
      | none => exact le_refl _
      | some m =>
        dsimp only
        split
        · exact le_refl _
        · exact bind_mono_left (deepen_mono h _ _)

theorem GreedyCursor.turn_mono (s : GreedyCursor α γ) :
    GreedyCursor.turn c s ≤ GreedyCursor.turn d s := by
  obtain ⟨r, stack, ends, phase⟩ := s
  cases phase with
  | deepen =>
    simp only [turn]
    split
    · exact bind_mono_left (h.start _ _)
    · exact le_refl _
  | draw =>
    cases stack with
    | nil => exact le_refl _
    | cons top below => exact bind_mono_left (h.next top.cursor)
  | retreat | finish | «over» => exact le_refl _

end Turns

namespace Children

variable {c d : Children α γ} (h : c.Below d) (e : Expression α) (i : Nat)

include h

theorem hasMatch_mono : c.hasMatch e i ≤ d.hasMatch e i :=
  bind_mono (h.start e i) fun cursor => bind_mono_left (h.next cursor)

theorem hasMatchBehind_mono (ls : Lengths) :
    c.hasMatchBehind e i ls ≤ d.hasMatchBehind e i ls := by
  induction ls with
  | done => exact le_refl _
  | later ls ih => exact ih ()
  | more n rest ih =>
    simp only [hasMatchBehind]
    split
    · refine bind_mono (h.start e (i - n)) fun cursor => bind_mono (h.holds _ cursor) fun b => ?_
      cases b with
      | false => exact ih ()
      | true => exact le_refl _
    · exact ih ()

theorem assertAhead_mono (negative : Bool) :
    c.assertAhead negative e i ≤ d.assertAhead negative e i := by
  refine bind_mono_right fun b => ?_
  cases b with
  | false => exact le_refl _
  | true => exact bind_mono_left (hasMatch_mono h e i)

theorem assertBehind_mono (negative : Bool) :
    c.assertBehind negative e i ≤ d.assertBehind negative e i := by
  refine bind_mono_right fun b => ?_
  cases b with
  | false => exact le_refl _
  | true =>
    cases hp : e.isPlaceable with
    | false => exact le_refl (pure Outcome.miss)
    | true => exact bind_mono_left (hasMatchBehind_mono h e i _)

end Children

namespace Cursor

section Below

variable {c d : Children α (Cursor α)} (h : c.Below d)

include h

theorem afterTurn_mono {σ : Type} (wrap : σ → Cursor α) (t : Turn σ) :
    afterTurn c wrap t ≤ afterTurn d wrap t := by
  cases t with
  | again s => exact h.next (wrap s)
  | give m s | stop s => exact le_refl _

theorem held_mono (p : Match → Bool) (cursor : Cursor α) : held c p cursor ≤ held d p cursor := by
  refine bind_mono (h.next cursor) fun r => ?_
  obtain ⟨m, cursor⟩ := r
  cases m with
  | none => exact le_refl _
  | some m =>
    dsimp only
    split
    · exact le_refl _
    · exact h.holds p cursor

theorem drawn_mono (cursor : Cursor α) : drawn c cursor ≤ drawn d cursor := by
  cases cursor with
  | ready m | candidates cs => exact le_refl _
  | sequence s => exact bind_mono (s.turn_mono h) (afterTurn_mono h _)
  | alternation s => exact bind_mono (s.turn_mono h) (afterTurn_mono h _)
  | lazy s => exact bind_mono (s.turn_mono h) (afterTurn_mono h _)
  | greedy s => exact bind_mono (s.turn_mono h) (afterTurn_mono h _)

variable [BEq α]

theorem opened_mono (e : Expression α) (i : Nat) : opened c e i ≤ opened d e i := by
  cases e with
  | element e | repetition e bounds kind | anchor a | foreign e => exact le_refl _
  | sequence es =>
    refine bind_mono_right fun b => ?_
    cases b with
    | false => exact le_refl _
    | true =>
      cases es with
      | nil => exact le_refl _
      | cons e es => exact bind_mono_left (h.start e i)
  | alternation es => cases es <;> exact le_refl _
  | lookAhead negative e => exact bind_mono_left (Children.assertAhead_mono h e i negative)
  | lookBehind negative e => exact bind_mono_left (Children.assertBehind_mono h e i negative)

end Below

variable [BEq α]

theorem children_below {fuel more : Nat} (hle : fuel ≤ more) :
    (children (α := α) fuel).Below (children more) := by
  induction fuel generalizing more with
  | zero => exact ⟨fun _ _ => failure_le _, fun _ => failure_le _, fun _ _ => failure_le _⟩
  | succ fuel ih =>
    obtain ⟨more, rfl⟩ : ∃ k, more = k + 1 := ⟨more - 1, by omega⟩
    have h := ih (Nat.le_of_succ_le_succ hle)
    exact ⟨opened_mono h, drawn_mono h, held_mono h⟩

theorem monotone_start (e : Expression α) (i : Nat) : Monotone fun fuel => start fuel e i :=
  fun _ _ hle => (children_below hle).start e i

theorem monotone_next (cursor : Cursor α) : Monotone fun fuel => next fuel cursor :=
  fun _ _ hle => (children_below hle).next cursor

theorem monotone_takeAfter (k : Nat) (ms : List Match) (cursor : Cursor α) :
    Monotone fun fuel => takeAfter fuel k ms cursor := by
  intro fuel more hle
  dsimp only
  induction k generalizing ms cursor with
  | zero => exact le_refl _
  | succ k ih =>
    refine bind_mono (monotone_next cursor hle) fun r => ?_
    obtain ⟨m, cursor⟩ := r
    cases m with
    | none => exact le_refl _
    | some m => exact ih (m :: ms) cursor

end Cursor

variable [BEq α]

namespace Expression

theorem monotone_first? (e : Expression α) (i : Nat) : Monotone fun fuel => e.first? fuel i :=
  fun _ _ hle => bind_mono (Cursor.monotone_start e i hle) fun cursor =>
    bind_mono_left (Cursor.monotone_next cursor hle)

theorem monotone_matchAt? (e : Expression α) (i : Nat) :
    Monotone fun fuel => e.matchAt? fuel i := by
  intro fuel more hle
  have hbelow := Cursor.children_below (α := α) hle
  cases e with
  | lookAhead negative e =>
    exact bind_mono_left (Children.assertAhead_mono hbelow e i negative)
  | lookBehind negative e =>
    exact bind_mono_left (Children.assertBehind_mono hbelow e i negative)
  | element c | sequence es | alternation es | repetition e bounds kind | anchor a | foreign c =>
    exact le_refl _

end Expression

namespace Scan

theorem next_mono (s : Scan α) {fuel more : Nat} (hle : fuel ≤ more) :
    next fuel s ≤ next more s := by
  induction fuel generalizing more s with
  | zero => exact failure_le _
  | succ fuel ih =>
    obtain ⟨more, rfl⟩ : ∃ k, more = k + 1 := ⟨more - 1, by omega⟩
    have hle := Nat.le_of_succ_le_succ hle
    rw [next, next]
    split
    · exact le_refl _
    · refine bind_mono_right fun b => ?_
      split
      · refine bind_mono (s.pattern.monotone_first? s.position hle) fun m => ?_
        cases m with
        | some m => exact le_refl _
        | none => exact ih _ hle
      · exact le_refl _

theorem takeAfter_mono (k : Nat) (ms : List Match) (s : Scan α) {fuel more : Nat}
    (hle : fuel ≤ more) : takeAfter fuel k ms s ≤ takeAfter more k ms s := by
  induction k generalizing ms s with
  | zero => exact le_refl _
  | succ k ih =>
    refine bind_mono (s.next_mono hle) fun r => ?_
    obtain ⟨r, s⟩ := r
    rcases r with f | _ | m
    · exact le_refl _
    · exact le_refl _
    · exact ih (m :: ms) s

theorem restAfter_mono (ms : List Match) (s : Scan α) {fuel more : Nat} (hle : fuel ≤ more) :
    restAfter fuel ms s ≤ restAfter more ms s := by
  induction fuel generalizing more ms s with
  | zero => exact failure_le _
  | succ fuel ih =>
    obtain ⟨more, rfl⟩ : ∃ k, more = k + 1 := ⟨more - 1, by omega⟩
    have hle := Nat.le_of_succ_le_succ hle
    refine bind_mono (s.next_mono hle) fun r => ?_
    obtain ⟨r, s⟩ := r
    rcases r with f | _ | m
    · exact le_refl _
    · exact le_refl _
    · exact ih (m :: ms) s hle

end Scan

namespace Expression

theorem monotone_findAll (e : Expression α) (start : Nat) :
    Monotone fun fuel => e.findAll fuel start := by
  intro fuel more hle
  refine bind_mono_right fun s => ?_
  split
  · exact le_refl _
  · exact bind_mono_left (s.restAfter_mono [] hle)

theorem monotone_find (e : Expression α) (start : Nat) :
    Monotone fun fuel => e.find fuel start := by
  intro fuel more hle
  refine bind_mono_right fun s => ?_
  split
  · exact le_refl _
  · exact bind_mono_left (s.next_mono hle)

theorem monotone_occurs (e : Expression α) : Monotone fun fuel => e.occurs fuel :=
  fun _ _ hle => bind_mono_right fun s => bind_mono_left (s.next_mono hle)

theorem monotone_occursAt (e : Expression α) (i : Nat) : Monotone fun fuel => e.occursAt fuel i :=
  fun _ _ hle => bind_mono_left (e.monotone_first? i hle)

end Expression

namespace Session

theorem monotone_serve (e : Expression α) (s : Session α) (request : Request) :
    Monotone fun fuel => s.serve fuel e request := by
  intro fuel more hle
  cases request with
  | findAll start => exact bind_mono_left (e.monotone_findAll start hle)
  | find start => exact bind_mono_left (e.monotone_find start hle)
  | scan start limit =>
    exact bind_mono_right fun s => bind_mono_left (s.takeAfter_mono limit [] hle)
  | openScan start => exact le_refl _
  | nextMatch handle =>
    simp only [serve]
    split
    · exact le_refl _
    · exact bind_mono_left (Scan.next_mono _ hle)
  | occurs => exact bind_mono_left (e.monotone_occurs hle)
  | occursAt index => exact bind_mono_left (e.monotone_occursAt index hle)
  | candidates index limit =>
    exact bind_mono (Cursor.monotone_start e index hle) fun cursor =>
      bind_mono_left (Cursor.monotone_takeAfter limit [] cursor hle)
  | openCandidates index =>
    exact bind_mono_left (Cursor.monotone_start e index hle)
  | nextCandidate handle =>
    simp only [serve]
    split
    · exact le_refl _
    · exact bind_mono_left (Cursor.monotone_next _ hle)
  | matchAt index => exact bind_mono_left (e.monotone_matchAt? index hle)

theorem monotone_serveAll (read : Reply α → Query α β) (s : Session α)
    (steps : List (Expression α × Request)) : Monotone fun fuel => serveAll read fuel s steps := by
  intro fuel more hle
  dsimp only
  induction steps generalizing s with
  | nil => exact le_refl _
  | cons step steps ih =>
    exact bind_mono (s.monotone_serve step.1 step.2 hle) fun r =>
      bind_mono_right fun shown => bind_mono_left (ih r.2)

end Session

end SeqPattern
