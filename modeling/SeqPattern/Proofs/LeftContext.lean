import SeqPattern.Proofs.Searching

namespace SeqPattern

open Search

def Match.moved (k : Nat) (m : Match) : Match := { m with index := k + m.index }

theorem Match.moved_span (k i j : Nat) : (span i j).moved k = span (k + i) (k + j) := by
  simp only [moved, span, Nat.add_sub_add_left]

/-- From positions that are so many further on, the second leads to the stops of the first, as many
positions further on. -/
def Moved (k : Nat) (stops stops' : Nat → List Nat) : Prop :=
  ∀ p, stops' (k + p) = (stops p).map (k + ·)

section Moved

variable {k : Nat} {child child' : Nat → List Nat}

theorem Moved.flatMap {next next' : Nat → List Nat} (h : Moved k next next') (qs : List Nat) :
    (qs.map (k + ·)).flatMap next' = (qs.flatMap next).map (k + ·) := by
  rw [List.flatMap_map, List.map_flatMap]
  exact List.flatMap_congr fun q _ => h q

/-- Whether a round stays where it is does not depend on where that is. -/
theorem Moved.deeperEnds {ends ends' : Nat → Nat → Nat → List Nat} (h : Moved k child child')
    {bound : Nat} (hends : ∀ need, Moved k (ends bound need) (ends' bound need)) (need : Nat) :
    Moved k (deeperEnds ends child (bound + 1) need)
      (deeperEnds ends' child' (bound + 1) need) := by
  intro p
  have hround : ((child' (k + p)).filter fun q => q ≠ k + p || need ≠ 0) =
      ((child p).filter fun q => q ≠ p || need ≠ 0).map (k + ·) := by
    rw [h p, List.filter_map]
    congr 1
    exact List.filter_congr fun q _ => by simp
  rw [SeqPattern.deeperEnds, SeqPattern.deeperEnds, hround, (hends (need - 1)).flatMap]

theorem moved_ite (k : Nat) (b : Prop) [Decidable b] :
    Moved k (fun p => if b then [p] else []) (fun p => if b then [p] else []) := by
  intro p
  split <;> rfl

theorem Moved.greedyEnds (h : Moved k child child') (bound need : Nat) :
    Moved k (greedyEnds child bound need) (greedyEnds child' bound need) := by
  induction bound generalizing need with
  | zero => exact moved_ite k (need = 0)
  | succ bound ih =>
    intro p
    rw [greedyEnds_eq, greedyEnds_eq, List.map_append, h.deeperEnds ih need p]
    exact congrArg _ (moved_ite k (need = 0) p)

theorem Moved.lazyEnds (h : Moved k child child') (bound need : Nat) :
    Moved k (lazyEnds child bound need) (lazyEnds child' bound need) := by
  induction bound generalizing need with
  | zero => exact moved_ite k (need = 0)
  | succ bound ih =>
    intro p
    rw [lazyEnds_eq, lazyEnds_eq, List.map_append, h.deeperEnds ih need p]
    exact congrArg (· ++ _) (moved_ite k (need = 0) p)

theorem Moved.repeatedStops (h : Moved k child child') (kind : RepetitionKind) (bounds : Bounds) :
    Moved k (repeatedStops kind child bounds) (repeatedStops kind child' bounds) := by
  cases kind with
  | lazy => exact h.lazyEnds bounds.max bounds.min
  | greedy => exact h.greedyEnds bounds.max bounds.min

theorem moved_chainStops {α : Type} {stops stops' : Expression α → Nat → List Nat}
    {es : List (Expression α)} (hes : ∀ e ∈ es, Moved k (stops e) (stops' e)) :
    Moved k (chainStops stops es) (chainStops stops' es) := by
  induction es with
  | nil => exact fun p => rfl
  | cons e es ih =>
    intro p
    rw [chainStops, chainStops, hes e (by simp) p]
    exact (ih fun e' h' => hes e' (by simp [h'])).flatMap (stops e p)

theorem leftmost_moved {first first' : Nat → Option Nat}
    (h : ∀ p, first' (k + p) = (first p).map (k + ·)) (size p : Nat) :
    leftmost first' (k + size) (k + p) = (leftmost first size p).map (Match.moved k) := by
  induction p using leftmost.induct first size with
  | case1 p hp => rw [leftmost_of_lt hp, leftmost_of_lt (by omega), List.map_nil]
  | case2 p hp hnone ih =>
    rw [leftmost_of_none hnone, leftmost_of_none (by rw [h, hnone, Option.map_none])]
    exact ih
  | case3 p hp q hsome ih =>
    have hfirst : first' (k + p) = some (k + q) := by rw [h, hsome, Option.map_some]
    rw [leftmost_of_some (Nat.le_of_not_lt hp) hsome, leftmost_of_some (by omega) hfirst,
      List.map_cons, Match.moved_span, ← ih, Nat.add_sub_add_left, Nat.add_assoc]

end Moved

namespace Expression

variable {α : Type} [BEq α] {e : Expression α}

theorem moved_ends (xs ys : Array α) (he : e.isPlain = true) (hfree : e.isLookBehindFree = true)
    (hstart : e.isStartFree = true) : Moved xs.size (e.ends ys) (e.ends (xs ++ ys)) := by
  have hsize (p : Nat) : xs.size + p ≤ (xs ++ ys).size ↔ p ≤ ys.size := by simp
  induction e with
  | element c =>
    intro p
    -- the one place where the elements are read
    have hget : (xs ++ ys)[xs.size + p]? = ys[p]? := by
      rw [Array.getElem?_append_right (Nat.le_add_right _ p), Nat.add_sub_cancel_left]
    simp only [ends, hget]
    split <;> rfl
  | sequence es ih =>
    intro p
    have hes : ∀ e ∈ es, Moved xs.size (e.ends ys) (e.ends (xs ++ ys)) := fun e h =>
      ih e h (everyNode_of_mem_inside he h) (everyNode_of_mem_inside hfree h)
        (everyNode_of_mem_inside hstart h)
    rw [ends_sequence, ends_sequence, moved_chainStops hes p]
    simp only [hsize]
    split <;> rfl
  | alternation es ih =>
    intro p
    have hes : ∀ e ∈ es, Moved xs.size (e.ends ys) (e.ends (xs ++ ys)) := fun e h =>
      ih e h (everyNode_of_mem_inside he h) (everyNode_of_mem_inside hfree h)
        (everyNode_of_mem_inside hstart h)
    rw [ends_alternation, ends_alternation]
    simp only [hsize]
    split
    · split <;> rfl
    · rw [List.map_flatMap]
      exact List.flatMap_congr fun e h => hes e h p
  | repetition e bounds kind ih =>
    intro p
    have he := ih he hfree hstart
    rw [ends_repetition, ends_repetition, he.repeatedStops kind bounds p]
    simp only [hsize]
    split <;> rfl
  | lookAhead negative e ih =>
    intro p
    have he := ih he hfree hstart
    rw [ends, ends, he p, List.isEmpty_map]
    simp only [hsize]
    split <;> rfl
  | lookBehind negative e ih => simp at hfree
  | anchor a =>
    intro p
    cases a with
    | start => cases hstart
    | stop =>
      simp only [ends, Array.size_append, Nat.add_left_cancel_iff]
      split <;> rfl
  | foreign c => simp at he

theorem scanned_append (xs ys : Array α) (he : e.isPlain = true)
    (hfree : e.isLookBehindFree = true) (hstart : e.isStartFree = true) (p : Nat) :
    e.scanned (xs ++ ys) (xs.size + p) = (e.scanned ys p).map (Match.moved xs.size) := by
  rw [scanned, scanned, Array.size_append]
  refine leftmost_moved (fun q => ?_) ys.size p
  rw [moved_ends xs ys he hfree hstart q, List.head?_map]

/-- A pattern that neither looks behind nor asks for the start of the sequence does not notice what
comes before the position where it is tried: whatever that is, it has the same matches in the same
order there, and a search from there finds the same. -/
theorem matches_unmoved_by_left_context (he : e.isPlain = true) (hfree : e.isLookBehindFree = true)
    (hstart : e.isStartFree = true) (xs ys : Array α) (hxs : (xs ++ ys).size < maxSize) (i : Nat) :
    (∃ ms, e.Enumerates ys i ms ∧
      e.Enumerates (xs ++ ys) (xs.size + i) (ms.map (Match.moved xs.size))) ∧
    ∃ s t ms, Settles ys (fun _ => ask (Scan.start e i)) s ∧ s.Yields ys ms ∧
      Settles (xs ++ ys) (fun _ => ask (Scan.start e (xs.size + i))) t ∧
      t.Yields (xs ++ ys) (ms.map (Match.moved xs.size)) := by
  have hle := Nat.le_of_lt hxs
  have hys : ys.size ≤ maxSize := by
    rw [Array.size_append] at hle
    omega
  refine ⟨⟨_, enumerates_ends hys he i, ?_⟩,
    ⟨_, _, _, settles_start e i, yields_scanned hys he i, settles_start e (xs.size + i), ?_⟩⟩
  · have h := enumerates_ends hle he (xs.size + i)
    rw [moved_ends xs ys he hfree hstart i, List.map_map] at h
    have hmoved : Match.moved xs.size ∘ Match.span i = Match.span (xs.size + i) ∘ (xs.size + ·) :=
      funext fun q => Match.moved_span xs.size i q
    rwa [List.map_map, hmoved]
  · have h := yields_scanned hle he (xs.size + i)
    rwa [scanned_append xs ys he hfree hstart i] at h

/-- Where the sequence is split within a run of what is repeated. -/
theorem matches_unmoved_by_left_context_split_run :
    let e : Expression Nat :=
      sequence [oneOrMore (value 1), alternation [lookAhead true (value 2), stop]]
    (e.Enumerates #[1, 1, 3, 1] 0 [⟨0, 2, true⟩, ⟨0, 1, true⟩] ∧
      e.Enumerates #[2, 1, 1, 1, 3, 1] 2 [⟨2, 2, true⟩, ⟨2, 1, true⟩]) ∧
    ∃ s t, Settles #[1, 1, 3, 1] (fun _ => ask (Scan.start e 0)) s ∧
      s.Yields #[1, 1, 3, 1] [⟨0, 2, true⟩, ⟨3, 1, true⟩] ∧
      Settles #[2, 1, 1, 1, 3, 1] (fun _ => ask (Scan.start e 2)) t ∧
      t.Yields #[2, 1, 1, 1, 3, 1] [⟨2, 2, true⟩, ⟨5, 1, true⟩] := by
  intro e
  obtain ⟨⟨ms, hms, hmoved⟩, s, t, ns, hs, hns, ht, hlater⟩ :=
    matches_unmoved_by_left_context (e := e) (by decide) (by decide) (by decide)
      #[2, 1] #[1, 1, 3, 1] (by decide) 0
  obtain rfl : ms = [⟨0, 2, true⟩, ⟨0, 1, true⟩] :=
    hms.unique (enumerates_ends (by decide) (by decide) 0)
  obtain rfl : ns = [⟨0, 2, true⟩, ⟨3, 1, true⟩] := by
    obtain rfl := hs.unique (settles_start e 0)
    have hscan : e.scanned #[1, 1, 3, 1] 0 = [⟨0, 2, true⟩, ⟨3, 1, true⟩] := by cbv
    exact hscan ▸ hns.unique (yields_scanned (by decide) (by decide) 0)
  exact ⟨⟨hms, hmoved⟩, s, t, hs, hns, ht, hlater⟩

end Expression

end SeqPattern
