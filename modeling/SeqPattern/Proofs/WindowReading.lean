import SeqPattern.Proofs.Known

namespace SeqPattern

variable {α : Type}

def WindowIter.nextTimes : Nat → WindowIter → Query α (List (Option α) × WindowIter)
  | 0, it => pure ([], it)
  | n + 1, it => do
    let (a, it) ← it.next
    let (as, it) ← nextTimes n it
    return (a :: as, it)

namespace Window

structure Shows (w : Window) (as : List α) (src : Source α) : Prop where
  length_eq : as.length = w.count
  run_get? : ∀ k, src.run (w.get? k) = (as[k]?, src)

section Shows

variable {w : Window} {as : List α} {src : Source α} (h : w.Shows as src)

include h

theorem Shows.run_readFrom {n i : Nat} (hn : i + n = w.count) (before : List α) :
    src.run (w.readFrom n i before) = (before.reverse ++ as.drop i, src) := by
  induction n generalizing i before with
  | zero =>
    rw [List.drop_eq_nil_of_le (by rw [h.length_eq]; omega), List.append_nil]
    exact Source.run_pure _ src
  | succ n ih =>
    have hi : i < as.length := by
      rw [h.length_eq]
      omega
    rw [readFrom, Source.run_bind, h.run_get?, List.getElem?_eq_getElem hi]
    dsimp only
    rw [ih (by omega), List.drop_eq_getElem_cons hi, List.reverse_cons, List.append_assoc,
      List.singleton_append]

theorem Shows.run_toList : src.run w.toList = (as, src) := by
  simp [toList, h.run_readFrom (Nat.zero_add w.count)]

theorem Shows.run_indexOfFrom [BEq α] (a : α) {n i : Nat} (hn : i + n = w.count) :
    src.run (w.indexOfFrom a n i) = (((as.drop i).findIdx? (· == a)).map (· + i), src) := by
  induction n generalizing i with
  | zero =>
    rw [List.drop_eq_nil_of_le (by rw [h.length_eq]; omega)]
    exact Source.run_pure _ src
  | succ n ih =>
    have hi : i < as.length := by
      rw [h.length_eq]
      omega
    rw [indexOfFrom, Source.run_bind, h.run_get?, List.getElem?_eq_getElem hi,
      List.drop_eq_getElem_cons hi, List.findIdx?_cons]
    dsimp only
    cases as[i] == a with
    | true => simp
    | false =>
      rw [if_neg Bool.false_ne_true, if_neg Bool.false_ne_true, ih (by omega), Option.map_map]
      congr 2
      funext j
      exact (Nat.add_right_comm j 1 i).symm

theorem Shows.run_indexOf? [BEq α] (a : α) :
    src.run (w.indexOf? a) = (as.findIdx? (· == a), src) := by
  simp [indexOf?, h.run_indexOfFrom a (Nat.zero_add w.count)]

theorem Shows.run_contains [BEq α] (a : α) :
    src.run (w.contains a) = (as.any (· == a), src) := by
  rw [contains, Source.run_bind, h.run_indexOf?, Source.run_pure, List.findIdx?_isSome]

theorem Shows.run_next (p : Nat) :
    src.run (WindowIter.next ⟨w, p⟩) =
      ((as[p]?, ⟨w, if p < w.count then p + 1 else p⟩), src) := by
  rw [WindowIter.next, Source.run_bind, h.run_get?, ← h.length_eq]
  by_cases hp : p < as.length
  · simp [hp]
  · simp [hp]

theorem Shows.run_nextTimes (n : Nat) {p : Nat} (hp : p ≤ w.count) :
    src.run (WindowIter.nextTimes n ⟨w, p⟩) =
      (((List.range n).map fun k => as[p + k]?, ⟨w, min (p + n) w.count⟩), src) := by
  induction n generalizing p with
  | zero => simp [WindowIter.nextTimes, Nat.min_eq_left hp]
  | succ n ih =>
    have hcons : (List.range (n + 1)).map (fun k => as[p + k]?) =
        as[p]? :: (List.range n).map fun k => as[p + 1 + k]? := by
      simp [List.range_succ_eq_map, Nat.add_assoc, Nat.add_comm 1]
    rw [WindowIter.nextTimes, Source.run_bind, h.run_next, hcons]
    by_cases hlt : p < w.count
    · simp [hlt, ih (p := p + 1) hlt, Nat.add_assoc, Nat.add_comm 1]
    · have hnone (k : Nat) : as[p + k]? = none :=
        List.getElem?_eq_none (by rw [h.length_eq]; omega)
      have hend : min (p + n) w.count = min (p + (n + 1)) w.count := by omega
      simp [hlt, ih hp, hnone, hend, Nat.add_assoc p 1]

end Shows

def slice (xs : Array α) (w : Window) : List α := (xs.toList.drop w.index).take w.count

section Known

variable {w : Window} {xs : Array α} {src : Source α}

theorem shows_slice (h : src.Holds xs) (hw : w.index + w.count ≤ src.known.size) :
    w.Shows (w.slice xs) src := by
  have hsize := h.size_known_le
  refine ⟨by simp [slice]; omega, fun k => ?_⟩
  rw [get?]
  by_cases hk : k < w.count
  · rw [if_pos hk, h.run_get? (by omega), slice, List.getElem?_take_of_lt hk, List.getElem?_drop,
      Array.getElem?_toList]
  · rw [if_neg hk, Source.run_pure, slice, List.getElem?_take_eq_none (Nat.le_of_not_lt hk)]

end Known

variable [BEq α]

/-- However the window is read, it gives its slice of the sequence, and nothing is drawn. -/
structure Reads (xs : Array α) (w : Window) (src : Source α) : Prop where
  toList : src.run w.toList = (w.slice xs, src)
  length_eq : (w.slice xs).length = w.count
  get? : ∀ k, src.run (w.get? k) = ((w.slice xs)[k]?, src)
  indexOf? : ∀ a, src.run (w.indexOf? a) = ((w.slice xs).findIdx? (· == a), src)
  contains : ∀ a, src.run (w.contains a) = ((w.slice xs).any (· == a), src)
  next : ∀ n, ∃ it,
    src.run (w.iter.nextTimes n) = (((List.range n).map fun k => (w.slice xs)[k]?, it), src) ∧
      it.remaining = w.count - min n w.count

/-- Whatever is asked from now on, the window can be read afterwards. -/
def KeepsReading (xs : Array α) (w : Window) (src : Source α) : Prop :=
  ∀ (β : Type) (q : Query α β), w.Reads xs (src.run q).2

section Keeps

variable {w : Window} {xs : Array α} {src : Source α}

theorem reads_of_known (h : src.Holds xs) (hw : w.index + w.count ≤ src.known.size) :
    w.Reads xs src := by
  have hshows := shows_slice h hw
  refine ⟨hshows.run_toList, hshows.length_eq, hshows.run_get?, hshows.run_indexOf?,
    hshows.run_contains, fun n => ⟨⟨w, min n w.count⟩, ?_, ?_⟩⟩
  · simpa using! hshows.run_nextTimes n (Nat.zero_le w.count)
  · simp [WindowIter.remaining]

theorem keepsReading_of_known (h : src.Holds xs) (hw : w.index + w.count ≤ src.known.size) :
    w.KeepsReading xs src :=
  fun _ q => reads_of_known (h.run_snd q) (Nat.le_trans hw (Source.size_known_le_run q src))

end Keeps

end Window

end SeqPattern
