import SeqPattern.Foreign.Standard
import SeqPattern.Proofs.Searching

namespace SeqPattern

open Search

section Taken

variable {first : Nat → Option Match} {size p : Nat}

theorem visits_of_lt (h : size < p) : visits first size p = [] := by
  rw [visits, if_pos h]

theorem visits_of_le (h : p ≤ size) :
    visits first size p = p :: visits first size (following first p) := by
  rw [visits, if_neg (Nat.not_lt_of_le h)]

theorem taken_of_lt (h : size < p) : taken first size p = [] := by
  rw [taken, visits_of_lt h, List.filterMap_nil]

theorem taken_of_none (hp : p ≤ size) (h : first p = none) :
    taken first size p = taken first size (p + 1) := by
  rw [taken, visits_of_le hp, List.filterMap_cons_none (by rw [h, Option.map_none]), following, h,
    taken]

theorem taken_of_some {m : Match} (hp : p ≤ size) (h : first p = some m) :
    taken first size p = (p, m) :: taken first size (p + max 1 m.length) := by
  rw [taken, visits_of_le hp, List.filterMap_cons_some (by rw [h, Option.map_some]), following, h,
    taken]

theorem length_visits_le : (visits first size p).length ≤ size + 1 - p := by
  induction p using visits.induct first size with
  | case1 p hp =>
    rw [visits_of_lt hp]
    exact Nat.zero_le _
  | case2 p hp ih =>
    have hlt := lt_following first p
    rw [visits_of_le (Nat.le_of_not_lt hp), List.length_cons]
    omega

theorem length_taken_le : (taken first size p).length ≤ size + 1 - p :=
  Nat.le_trans (List.length_filterMap_le _ _) length_visits_le

end Taken

namespace Scan

/-- How a search over `size` elements ends after the last match it has taken: it has strayed if that
match leads further than one position past the end. -/
def verdict (size : Nat) : Option (Nat × Match) → Except Failure (Option Match)
  | none => .ok none
  | some (p, m) => if size + 1 < p + m.length then .error (.strayed (p + m.length)) else .ok none

theorem verdict_eq_end_iff {size : Nat} {last : Option (Nat × Match)} :
    verdict size last = .ok none ↔ ∀ p m, last = some (p, m) → p + m.length ≤ size + 1 := by
  rcases last with - | ⟨p, m⟩
  · simp [verdict]
  · simp [verdict]

theorem verdict_eq_error_iff {size : Nat} {last : Option (Nat × Match)} {f : Failure} :
    verdict size last = .error f ↔
      ∃ p m, last = some (p, m) ∧ size + 1 < p + m.length ∧ f = .strayed (p + m.length) := by
  rcases last with - | ⟨p, m⟩
  · simp [verdict]
  · by_cases h : size + 1 < p + m.length
    · simp [verdict, h, eq_comm]
    · simp [verdict, h]

theorem verdict_cons {size p : Nat} {m : Match} (h : p + max 1 m.length ≤ size + 1)
    (taken : List (Nat × Match)) :
    verdict size ((p, m) :: taken).getLast? = verdict size taken.getLast? := by
  cases taken with
  | nil => exact if_neg (by omega)
  | cons c taken => rw [List.getLast?_cons_cons]

variable {α : Type} [BEq α] {xs : Array α}

/-- A search that gives these matches, each with the position where it is taken, and then comes to
this end, from where on it gives nothing and asks nothing. A match is the first candidate where it
is taken, there is none at the positions passed over, and the search goes on past it by its length,
or by one element. -/
inductive Runs (xs : Array α) :
    Scan α → List (Nat × Match) → Except Failure (Option Match) → Prop
  | finish {s t : Scan α} {r : Except Failure (Option Match)}
      (last : Settles xs (fun fuel => next fuel s) (r, t))
      (again : ∀ fuel, next (fuel + 1) t = pure (.ok none, t)) : Runs xs s [] r
  | give {s : Scan α} {p : Nat} {m : Match} {rest : List (Nat × Match)}
      {r : Except Failure (Option Match)} (ahead : s.position ≤ p) (inside : p ≤ xs.size)
      (passed : ∀ q, s.position ≤ q → q < p →
        Settles xs (fun fuel => s.pattern.first? fuel q) none)
      (here : Settles xs (fun fuel => s.pattern.first? fuel p) (some m))
      (first : Settles xs (fun fuel => next fuel s)
        (.ok (some m), ⟨s.pattern, p + max 1 m.length, false⟩))
      (more : Runs xs ⟨s.pattern, p + max 1 m.length, false⟩ rest r) :
      Runs xs s ((p, m) :: rest) r

section Step

variable {e : Expression α} {p : Nat} {r : Except Failure (Option Match)}

theorem Runs.passed_over {ms : List (Nat × Match)} (hp : p ≤ xs.size)
    (hm : Settles xs (fun fuel => e.first? fuel p) none) (h : Runs xs ⟨e, p + 1, false⟩ ms r) :
    Runs xs ⟨e, p, false⟩ ms r := by
  cases h with
  | finish last again => exact .finish (settles_next_passed_over hp hm last) again
  | give ahead inside passed here first more =>
    refine .give (Nat.le_of_succ_le ahead) inside (fun q hle hlt => ?_) here
      (settles_next_passed_over hp hm first) more
    rcases Nat.lt_or_eq_of_le hle with hpq | rfl
    · exact passed q hpq hlt
    · exact hm

theorem runs_strayed (hp : xs.size + 1 < p) : Runs xs ⟨e, p, false⟩ [] (.error (.strayed p)) := by
  have hout := settles_next_out_of_range (e := e) (Nat.lt_of_succ_lt hp)
  rw [if_neg (Nat.ne_of_gt hp)] at hout
  exact .finish hout fun _ => rfl

end Step

theorem runs_taken {e : Expression α} {first : Nat → Option Match} {p : Nat} (hp : p ≤ xs.size + 1)
    (hfirst : ∀ q ∈ visits first xs.size p, Settles xs (fun fuel => e.first? fuel q) (first q)) :
    Runs xs ⟨e, p, false⟩ (taken first xs.size p)
      (verdict xs.size (taken first xs.size p).getLast?) := by
  induction p using visits.induct first xs.size with
  | case1 p hlt =>
    obtain rfl : p = xs.size + 1 := by omega
    rw [taken_of_lt hlt]
    exact .finish settles_next_over fun _ => rfl
  | case2 p hlt ih =>
    have hle := Nat.le_of_not_lt hlt
    rw [visits_of_le hle, List.forall_mem_cons] at hfirst
    obtain ⟨hm, hrest⟩ := hfirst
    cases hf : first p with
    | none =>
      rw [following, hf] at ih hrest
      rw [hf] at hm
      rw [taken_of_none hle hf]
      exact (ih (Nat.succ_le_succ hle) hrest).passed_over hle hm
    | some m =>
      rw [following, hf] at ih hrest
      rw [hf] at hm
      rw [taken_of_some hle hf]
      have hnone : ∀ q, p ≤ q → q < p → Settles xs (fun fuel => e.first? fuel q) none :=
        fun q hpq hqp => absurd hqp (Nat.not_lt_of_le hpq)
      refine .give (Nat.le_refl p) hle hnone hm (settles_next_found hle hm) ?_
      by_cases hin : p + max 1 m.length ≤ xs.size + 1
      · rw [verdict_cons hin]
        exact ih hin hrest
      · -- past the end a match leads by its length only
        have hlen : max 1 m.length = m.length := by omega
        rw [taken_of_lt (by omega), List.getLast?_singleton, verdict, if_pos (by omega), hlen]
        exact runs_strayed (by omega)

end Scan

namespace Expression

variable {α : Type} [BEq α]

/-- A search outlives whatever candidates the pattern comes up with, its foreign parts included:
they may lie anywhere, and need not be successes, if only they lead to positions that are sizes. It
passes each by its length, or by one element, takes no more of them than there are positions, and
strays exactly when the last one it has taken leads further than one position past the end. -/
theorem search_survives_any_candidate (e : Expression α) (xs : Array α) (start : Nat)
    (hstart : start ≤ xs.size) (first : Nat → Option Match)
    (hfirst : ∀ p ∈ visits first xs.size start,
      Settles xs (fun fuel => e.first? fuel p) (first p) ∧ following first p ≤ maxSize) :
    ∃ s r, Settles xs (fun _ => ask (Scan.start e start)) s ∧ s.position = start ∧
      s.Runs xs (taken first xs.size start) r ∧
      (taken first xs.size start).length ≤ xs.size - start + 1 ∧
      (r = .ok none ↔ ∀ p m, (taken first xs.size start).getLast? = some (p, m) →
        p + m.length ≤ xs.size + 1) ∧
      (∀ f, r = .error f ↔ ∃ p m, (taken first xs.size start).getLast? = some (p, m) ∧
        xs.size + 1 < p + m.length ∧ f = .strayed (p + m.length)) := by
  have hopen : Settles xs (fun _ => ask (Scan.start e start)) _ := settles_start e start
  rw [decide_eq_false (Nat.not_lt_of_le hstart)] at hopen
  have hlen : (taken first xs.size start).length ≤ xs.size + 1 - start := length_taken_le
  have hruns := Scan.runs_taken (Nat.le_succ_of_le hstart) fun p hp => (hfirst p hp).1
  exact ⟨_, _, hopen, rfl, hruns, by omega, Scan.verdict_eq_end_iff,
    fun f => Scan.verdict_eq_error_iff⟩

/-- A foreign expression that offers the first three elements wherever it is asked: the search takes
them twice and then strays. -/
theorem search_survives_any_candidate_straying :
    ∃ s : Scan Nat, s.Runs #[1, 2, 3] [(0, ⟨0, 3, true⟩), (3, ⟨0, 3, true⟩)]
      (.error (.strayed 6)) := by
  let offer : Expression Nat := foreign
    { matchAt := Foreign.never, candidates := some (Foreign.offered [⟨0, 3, true⟩] true) }
  have hfirst : ∀ p, Settles #[1, 2, 3] (fun fuel => offer.first? fuel p) (some ⟨0, 3, true⟩) := by
    intro p
    refine ⟨1, fun fuel h => ?_⟩
    obtain ⟨k, rfl⟩ : ∃ k, fuel = k + 1 := ⟨fuel - 1, by omega⟩
    rfl
  have hvisits : visits (fun _ => some ⟨0, 3, true⟩) (#[1, 2, 3] : Array Nat).size 0 = [0, 3] := by
    cbv
  have hsize : ∀ p ∈ visits (fun _ => some ⟨0, 3, true⟩) (#[1, 2, 3] : Array Nat).size 0,
      following (fun _ => some ⟨0, 3, true⟩) p ≤ maxSize := by
    rw [hvisits]
    decide
  obtain ⟨s, r, -, -, hruns, -, -, herror⟩ := search_survives_any_candidate offer #[1, 2, 3] 0
    (by decide) (fun _ => some ⟨0, 3, true⟩) fun p hp => ⟨hfirst p, hsize p hp⟩
  have htaken : taken (fun _ => some ⟨0, 3, true⟩) (#[1, 2, 3] : Array Nat).size 0 =
      [(0, ⟨0, 3, true⟩), (3, ⟨0, 3, true⟩)] := by
    rw [taken, hvisits]
    rfl
  rw [htaken] at hruns herror
  obtain rfl := (herror (.strayed 6)).mpr ⟨3, ⟨0, 3, true⟩, rfl, by decide, rfl⟩
  exact ⟨s, hruns⟩

end Expression

end SeqPattern
