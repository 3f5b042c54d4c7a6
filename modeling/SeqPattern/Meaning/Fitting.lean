import SeqPattern.Meaning.Room
import SeqPattern.Proofs.Iterated
import SeqPattern.Proofs.Patterns

namespace SeqPattern.Expression

variable {α : Type} {room n : Nat}

abbrev Adds (e : Expression α) (room i j : Nat) : Prop := ∃ l, e.Fits (room - i) l ∧ j = i + l

theorem adds_iff {e : Expression α} {i j : Nat} :
    e.Adds room i j ↔ i ≤ j ∧ e.Fits (room - i) (j - i) := by
  constructor
  · rintro ⟨l, hl, rfl⟩
    exact ⟨Nat.le_add_right i l, by rwa [Nat.add_sub_cancel_left]⟩
  · rintro ⟨hle, hl⟩
    exact ⟨j - i, hl, (Nat.add_sub_cancel' hle).symm⟩

theorem le_room_of_fits {e : Expression α} (h : e.Fits room n) : n ≤ room := by
  induction e generalizing room n with
  | element c =>
    obtain ⟨rfl, hroom⟩ := h
    exact hroom
  | sequence es ih =>
    rw [Fits] at h
    induction es generalizing room n with
    | nil =>
      have hn : n = 0 := h
      omega
    | cons e es iht =>
      obtain ⟨l, m, hl, hm, rfl⟩ := h
      have hle := ih e (by simp) hl
      have hrest := iht (fun e' h' => ih e' (by simp [h'])) hm
      omega
  | alternation es ih =>
    rw [fits_alternation] at h
    rcases h with ⟨_, rfl⟩ | ⟨e, he, h⟩
    · exact Nat.zero_le room
    · exact ih e he h
  | repetition e bounds kind ih =>
    obtain ⟨k, _, _, h⟩ := h
    refine le_of_iterated_of_le (fun i j hi hadd => ?_) (Nat.zero_le room) h
    obtain ⟨l, hl, rfl⟩ := hadd
    have hle := ih hl
    omega
  | lookAhead negative e ih | lookBehind negative e ih =>
    obtain ⟨rfl, _⟩ := h
    exact Nat.zero_le room
  | anchor a =>
    have hn : n = 0 := h
    omega
  | foreign c => exact h.elim

theorem fitTogether_cons_iff {e : Expression α} {es : List (Expression α)} :
    FitTogether (e :: es) room n ↔
      ∃ l, l ≤ n ∧ e.Fits room l ∧ FitTogether es (room - l) (n - l) := by
  constructor
  · rintro ⟨l, m, hl, hm, rfl⟩
    exact ⟨l, Nat.le_add_right l m, hl, by rwa [Nat.add_sub_cancel_left]⟩
  · rintro ⟨l, hle, hl, hm⟩
    exact ⟨l, n - l, hl, hm, (Nat.add_sub_cancel' hle).symm⟩

theorem exists_fits_iff {e : Expression α} :
    (∃ l, e.Fits room l) ↔ ∃ l, l ≤ room ∧ e.Fits room l :=
  exists_congr fun _ => ⟨fun h => ⟨le_room_of_fits h, h⟩, And.right⟩

theorem fits_repetition_iff {e : Expression α} {bounds : Bounds} {kind : RepetitionKind} :
    (repetition e bounds kind).Fits room n ↔ ∃ k, k ≤ bounds.min + n ∧
      bounds.min ≤ k ∧ k ≤ bounds.max ∧ Iterated (e.Adds room) k 0 n :=
  exists_iterated_iff_bounded fun _ _ h => (adds_iff.mp h).1

mutual

def decideFits : (e : Expression α) → (room n : Nat) → Decidable (e.Fits room n)
  | element _, room, n => inferInstanceAs (Decidable (n = 1 ∧ 1 ≤ room))
  | sequence es, room, n => decideFitTogether es room n
  | alternation es, room, n =>
    have := decideSomeFits es room n
    decidable_of_iff ((es.isEmpty = true ∧ n = 0) ∨ SomeFits es room n)
      (by rw [Fits, List.isEmpty_iff])
  | repetition e bounds _, room, n =>
    have hadds i j : Decidable (e.Adds room i j) :=
      have := decideFits e (room - i) (j - i)
      decidable_of_iff _ adds_iff.symm
    have := decideIterated (fun _ _ h => (adds_iff.mp h).1) hadds
    decidable_of_iff _ fits_repetition_iff.symm
  | lookAhead _ e, room, n | lookBehind _ e, room, n =>
    have := decideFits e room
    decidable_of_iff (n = 0 ∧ ∃ l, l ≤ room ∧ e.Fits room l)
      (and_congr_right fun _ => exists_fits_iff.symm)
  | anchor _, _, n => inferInstanceAs (Decidable (n = 0))
  | foreign _, _, _ => inferInstanceAs (Decidable False)

def decideFitTogether : (es : List (Expression α)) → (room n : Nat) →
    Decidable (FitTogether es room n)
  | [], _, n => inferInstanceAs (Decidable (n = 0))
  | e :: es, room, n =>
    have := decideFits e room
    have := fun l => decideFitTogether es (room - l) (n - l)
    decidable_of_iff _ fitTogether_cons_iff.symm

def decideSomeFits : (es : List (Expression α)) → (room n : Nat) → Decidable (SomeFits es room n)
  | [], _, _ => inferInstanceAs (Decidable False)
  | e :: es, room, n =>
    have := decideFits e room n
    have := decideSomeFits es room n
    inferInstanceAs (Decidable (e.Fits room n ∨ SomeFits es room n))

end

instance (e : Expression α) (room n : Nat) : Decidable (e.Fits room n) := decideFits e room n

end SeqPattern.Expression
