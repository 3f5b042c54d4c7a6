import SeqPattern.Proofs.RoundOrder
import SeqPattern.Proofs.Searching

namespace SeqPattern

open Search

variable {α : Type} [BEq α] {xs : Array α} {c : ElementClass α}

namespace ElementClass

def acceptsAt (c : ElementClass α) (xs : Array α) (i : Nat) : Bool := xs[i]?.any c.accepts

/-- At least so many elements in a row that the class accepts, and that do not continue on either
side, where nothing before the start counts. -/
structure MaximalRun (c : ElementClass α) (xs : Array α) (start least a b : Nat) : Prop where
  start_le : start ≤ a
  long : a + least ≤ b
  inside : b ≤ xs.size
  accepted : ∀ i, a ≤ i → i < b → c.acceptsAt xs i = true
  left : start < a → c.acceptsAt xs (a - 1) = false
  right : c.acceptsAt xs b = false

section Run

variable {p i : Nat}

theorem runFrom_of_acceptsAt (h : c.acceptsAt xs p = true) :
    c.runFrom xs p = c.runFrom xs (p + 1) + 1 := by
  rw [runFrom_eq]
  exact if_pos h

theorem runFrom_of_not_acceptsAt (h : c.acceptsAt xs p = false) : c.runFrom xs p = 0 := by
  rw [runFrom_eq]
  exact if_neg (Bool.eq_false_iff.mp h)

theorem runFrom_le (hp : p ≤ xs.size) : p + c.runFrom xs p ≤ xs.size := by
  have h : c.runFrom xs p ≤ (xs.toList.drop p).length := (List.takeWhile_sublist _).length_le
  rw [List.length_drop, Array.length_toList] at h
  omega

theorem acceptsAt_of_lt_runFrom (hp : p ≤ i) (hi : i < p + c.runFrom xs p) :
    c.acceptsAt xs i = true := by
  obtain ⟨d, rfl⟩ : ∃ d, i = p + d := ⟨i - p, by omega⟩
  induction d generalizing p with
  | zero =>
    by_contra h
    rw [runFrom_of_not_acceptsAt (by simpa using h)] at hi
    omega
  | succ d ih =>
    cases h : c.acceptsAt xs p with
    | false =>
      rw [runFrom_of_not_acceptsAt h] at hi
      omega
    | true =>
      rw [runFrom_of_acceptsAt h] at hi
      have hd : p + (d + 1) = p + 1 + d := by omega
      rw [hd]
      exact ih (by omega) (by omega)

theorem not_acceptsAt_runFrom (c : ElementClass α) (xs : Array α) (p : Nat) :
    c.acceptsAt xs (p + c.runFrom xs p) = false := by
  generalize hn : c.runFrom xs p = n
  induction n generalizing p with
  | zero =>
    by_contra h
    rw [runFrom_of_acceptsAt (by simpa using h)] at hn
    omega
  | succ n ih =>
    cases h : c.acceptsAt xs p with
    | false =>
      rw [runFrom_of_not_acceptsAt h] at hn
      omega
    | true =>
      rw [runFrom_of_acceptsAt h] at hn
      have hd : p + (n + 1) = p + 1 + n := by omega
      rw [hd]
      exact ih (p + 1) (by omega)

end Run

section MaximalRun

variable {p least a b : Nat}

theorem MaximalRun.stop_eq (h : c.MaximalRun xs p least a b) : b = a + c.runFrom xs a := by
  have hlong := h.long
  rcases Nat.lt_trichotomy b (a + c.runFrom xs a) with hlt | heq | hgt
  · have hb := acceptsAt_of_lt_runFrom (by omega) hlt
    rw [h.right] at hb
    cases hb
  · exact heq
  · have hend := h.accepted _ (Nat.le_add_right a _) hgt
    rw [not_acceptsAt_runFrom] at hend
    cases hend

/-- Where a run that is too short begins, no maximal run does, nor is one cut off there. -/
theorem maximalRun_succ_iff (h : c.runFrom xs p < least) :
    c.MaximalRun xs p least a b ↔ c.MaximalRun xs (p + 1) least a b := by
  constructor
  · intro hrun
    have hstop := hrun.stop_eq
    have hlong := hrun.long
    have hne : a ≠ p := by
      rintro rfl
      omega
    have hle := hrun.start_le
    exact { hrun with start_le := by omega, left := fun hlt => hrun.left (by omega) }
  · intro hrun
    have hstop := hrun.stop_eq
    have hlong := hrun.long
    have hle := hrun.start_le
    refine { hrun with start_le := by omega, left := fun hlt => ?_ }
    rcases Nat.lt_or_eq_of_le hle with hlt | rfl
    · exact hrun.left hlt
    · rw [Nat.add_sub_cancel]
      by_contra hacc
      rw [runFrom_of_acceptsAt (by simpa using hacc)] at h
      omega

theorem maximalRun_iff_of_le (hleast : 1 ≤ least) (hp : p ≤ xs.size) (h : least ≤ c.runFrom xs p) :
    c.MaximalRun xs p least a b ↔
      (a = p ∧ b = p + c.runFrom xs p) ∨ c.MaximalRun xs (p + c.runFrom xs p) least a b := by
  constructor
  · intro hrun
    rcases Nat.eq_or_lt_of_le hrun.start_le with rfl | hlt
    · exact Or.inl ⟨rfl, hrun.stop_eq⟩
    · have hpast : p + c.runFrom xs p ≤ a - 1 := by
        by_contra hin
        have hacc : c.acceptsAt xs (a - 1) = true :=
          acceptsAt_of_lt_runFrom (p := p) (by omega) (by omega)
        rw [hrun.left hlt] at hacc
        cases hacc
      exact Or.inr { hrun with start_le := by omega, left := fun _ => hrun.left hlt }
  · rintro (⟨rfl, rfl⟩ | hrun)
    · exact ⟨Nat.le_refl a, Nat.add_le_add_left h a, runFrom_le hp,
        fun i => acceptsAt_of_lt_runFrom, fun hlt => absurd hlt (Nat.lt_irrefl a),
        not_acceptsAt_runFrom c xs a⟩
    · have hle := hrun.start_le
      have hlong := hrun.long
      have hne : a ≠ p + c.runFrom xs p := by
        rintro rfl
        have hacc := hrun.accepted _ (Nat.le_refl _) (by omega)
        rw [not_acceptsAt_runFrom] at hacc
        cases hacc
      exact { hrun with start_le := by omega, left := fun _ => hrun.left (by omega) }

end MaximalRun

end ElementClass

namespace Expression

open ElementClass

theorem head_ends_atLeast (hxs : xs.size ≤ maxSize) (c : ElementClass α) (least : Nat) {p : Nat}
    (hp : p ≤ xs.size) :
    (((element c).atLeast least).ends xs p).head? =
      if least ≤ c.runFrom xs p then some (p + c.runFrom xs p) else none := by
  have hchild : (element c).ends xs = fun p => if xs[p]?.any c.accepts then [p + 1] else [] := by
    funext p
    rw [ends]
  have hone (p : Nat) : (if xs[p]?.any c.accepts then [p + 1] else []).length ≤ 1 := by
    split <;> simp
  have hrun : c.runFrom xs p ≤ max least maxSize := by
    have hle := runFrom_le (c := c) hp
    omega
  have hlast : (List.range' (p + least) (c.runFrom xs p + 1 - least)).getLast? =
      if least ≤ c.runFrom xs p then some (p + c.runFrom xs p) else none := by
    rw [List.getLast?_range']
    by_cases h : least ≤ c.runFrom xs p
    · rw [if_neg (by omega), if_pos h]
      congr 1
      omega
    · rw [if_pos (by omega), if_neg h]
  rw [atLeast, ends_repetition, if_pos hp, repeatedStops, hchild,
    greedyEnds_eq_reverse_lazyEnds hone, lazyEnds_element, Nat.min_eq_right hrun,
    List.head?_reverse]
  exact hlast

theorem mem_scanned_atLeast_iff (hxs : xs.size ≤ maxSize) (c : ElementClass α) {least : Nat}
    (hleast : 1 ≤ least) (p : Nat) (m : Match) :
    m ∈ ((element c).atLeast least).scanned xs p ↔
      ∃ a b, c.MaximalRun xs p least a b ∧ m = .span a b := by
  rw [scanned]
  -- a run that is too short is left element by element, so that each rest of it is met again as one
  -- that the start cuts off, while a run that is long enough is left at once
  induction p using leftmost.induct
    (fun i => (((element c).atLeast least).ends xs i).head?) xs.size with
  | case1 p hlt =>
    rw [leftmost_of_lt hlt]
    refine iff_of_false List.not_mem_nil ?_
    rintro ⟨a, b, hrun, -⟩
    have hle := hrun.start_le
    have hlong := hrun.long
    have hin := hrun.inside
    omega
  | case2 p hlt hnone ih =>
    have hhead := head_ends_atLeast hxs c least (Nat.le_of_not_lt hlt)
    have hshort : c.runFrom xs p < least := by
      by_contra hge
      rw [if_pos (Nat.le_of_not_lt hge), hnone] at hhead
      cases hhead
    rw [leftmost_of_none hnone, ih]
    simp only [maximalRun_succ_iff hshort]
  | case3 p hlt q hsome ih =>
    have hp := Nat.le_of_not_lt hlt
    have hhead := head_ends_atLeast hxs c least hp
    rw [hsome] at hhead
    obtain ⟨hlong, hq⟩ : least ≤ c.runFrom xs p ∧ p + c.runFrom xs p = q := by
      simpa [eq_comm] using hhead
    have hnext : p + max 1 (q - p) = p + c.runFrom xs p := by omega
    rw [leftmost_of_some hp hsome, List.mem_cons, ih, hnext]
    simp only [maximalRun_iff_of_le hleast hp hlong, or_and_right, exists_or, hq]
    simp

/-- A search for at least so many elements of a class, greedily, goes through the maximal runs that
are that long, in ascending order. -/
theorem search_finds_maximal_runs (hc : c.isProbing = false) {least : Nat} (hleast : 1 ≤ least)
    (xs : Array α) (hxs : xs.size < maxSize) (start : Nat) :
    ∃ s ms, Settles xs (fun _ => ask (Scan.start ((element c).atLeast least) start)) s ∧
      s.Yields xs ms ∧ (ms.Pairwise fun m n => m.stop ≤ n.index) ∧
      ∀ m, m ∈ ms ↔ ∃ a b, c.MaximalRun xs start least a b ∧ m = .span a b := by
  have hplain : ((element c).atLeast least).isPlain = true := by
    rw [atLeast, isPlain_repetition, isPlain_element, hc]
  have hle := Nat.le_of_lt hxs
  refine ⟨_, _, settles_start _ start, yields_scanned hle hplain start, ?_,
    mem_scanned_atLeast_iff hle c hleast start⟩
  refine pairwise_leftmost.imp fun {m n} h => ?_
  rw [Match.stop]
  omega

/-- The search starts within a run, and passes over one that is too short. -/
theorem search_finds_maximal_runs_within_run :
    ∃ s ms, Settles #[1, 1, 1, 2, 1, 2] (fun _ => ask (Scan.start ((value 1).atLeast 2) 1)) s ∧
      s.Yields #[1, 1, 1, 2, 1, 2] ms ∧ ⟨1, 2, true⟩ ∈ ms ∧ ⟨4, 1, true⟩ ∉ ms := by
  obtain ⟨s, ms, hs, hms, -, hmem⟩ := search_finds_maximal_runs (c := .value 1) rfl
    (Nat.le_succ 1) #[1, 1, 1, 2, 1, 2] (by decide) 1
  refine ⟨s, ms, hs, hms, (hmem _).mpr ⟨1, 3, ?_, rfl⟩, fun h => ?_⟩
  · have haccepted (i : Nat) (hi : 1 ≤ i) (hi' : i < 3) :
        (ElementClass.value 1).acceptsAt #[1, 1, 1, 2, 1, 2] i = true := by
      obtain rfl | rfl : i = 1 ∨ i = 2 := by omega
      all_goals rfl
    exact ⟨Nat.le_refl 1, Nat.le_refl 3, by decide, haccepted, fun h => absurd h (by decide), rfl⟩
  · obtain ⟨a, b, hrun, hspan⟩ := (hmem _).mp h
    have hlong := hrun.long
    simp only [Match.span, Match.mk.injEq] at hspan
    omega

end Expression

end SeqPattern
