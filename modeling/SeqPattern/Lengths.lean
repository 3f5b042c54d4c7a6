import Std.Data.TreeSet

namespace SeqPattern

/-- Lengths that are computed one at a time, none before it is asked for. -/
inductive Lengths where
  | done
  | more (n : Nat) (rest : Unit → Lengths)
  | later (lengths : Unit → Lengths)

namespace Lengths

def run : Nat → Nat → Lengths
  | _, 0 => done
  | n, k + 1 => more n fun _ => run (n + 1) k

def upTo (max : Nat) : Lengths := run 0 (max + 1)

def ofList : List Nat → Lengths
  | [] => done
  | n :: ns => more n fun _ => ofList ns

def toList : Lengths → List Nat
  | done => []
  | more n rest => n :: (rest ()).toList
  | later ls => (ls ()).toList

def isEmpty : Lengths → Bool
  | done => true
  | more .. => false
  | later ls => (ls ()).isEmpty

def append : Lengths → (Unit → Lengths) → Lengths
  | done, next => next ()
  | more n rest, next => more n fun _ => (rest ()).append next
  | later ls, next => later fun _ => (ls ()).append next

/-- The lengths up to the largest that are not among those seen, each once. -/
def fresh (max : Nat) : Lengths → Std.TreeSet Nat → Lengths
  | done, _ => done
  | more n rest, seen =>
    if n ≤ max && !seen.contains n then more n fun _ => (rest ()).fresh max (seen.insert n)
    else (rest ()).fresh max seen
  | later ls, seen => later fun _ => (ls ()).fresh max seen

/-- At most the given number of lengths, and whether the end was met. Nothing is computed after
the last one taken. -/
def take : Lengths → Nat → List Nat × Bool
  | _, 0 => ([], false)
  | done, _ + 1 => ([], true)
  | more n _, 1 => ([n], false)
  | more n rest, k + 2 => let (ns, complete) := (rest ()).take (k + 1); (n :: ns, complete)
  | later ls, k + 1 => (ls ()).take (k + 1)

@[simp]
theorem toList_ofList (ns : List Nat) : (ofList ns).toList = ns := by
  induction ns with
  | nil => rfl
  | cons n ns ih => simp only [ofList, toList, ih]

@[simp]
theorem toList_append (ls : Lengths) (next : Unit → Lengths) :
    (ls.append next).toList = ls.toList ++ (next ()).toList := by
  induction ls with
  | done => rfl
  | more n rest ih => simp only [append, toList, ih, List.cons_append]
  | later ls ih => simp only [append, toList, ih]

theorem toList_run (n k : Nat) : (run n k).toList = List.range' n k := by
  induction k generalizing n with
  | zero => rfl
  | succ k ih => simp only [run, toList, ih, List.range'_succ]

theorem toList_upTo (max : Nat) : (upTo max).toList = List.range (max + 1) := by
  rw [upTo, toList_run, List.range_eq_range']

end Lengths

def ascending (ns : List Nat) : List Nat := (Std.TreeSet.ofList ns).toList

@[simp]
theorem mem_ascending {ns : List Nat} {n : Nat} : n ∈ ascending ns ↔ n ∈ ns := by
  simp [ascending, Std.TreeSet.mem_ofList]

theorem pairwise_ascending (ns : List Nat) : (ascending ns).Pairwise (· < ·) :=
  Std.TreeSet.ordered_toList.imp Nat.compare_eq_lt.mp

/-- The sums of a length so far and one more length, where `step` tells the lengths possible
within what is left. -/
def extendSums (step : Nat → List Nat) (max : Nat) (sums : List Nat) : List Nat :=
  ascending (sums.flatMap fun s => ((step (max - s)).filter (· ≤ max - s)).map (s + ·))

/-- How far the sums of a repetition have been followed: those of exactly `count` rounds that
are still worth extending, and those seen from the least number of rounds on. -/
structure Rounds where
  frontier : List Nat := [0]
  count : Nat := 0
  seen : Std.TreeSet Nat := ∅

namespace Rounds

/-- One more round. When the sums below the least number of rounds have become stable, the
rounds up to that number are skipped, and from there on only unseen sums are extended. -/
def advance (step : Nat → List Nat) (min max : Nat) (r : Rounds) : Rounds :=
  let next := extendSums step max r.frontier
  let count := r.count + 1
  let count := if count < min && next == r.frontier then min else count
  if min ≤ count then
    ⟨next.filter fun s => !r.seen.contains s, count, r.seen.insertMany next⟩
  else ⟨next, count, r.seen⟩

def isOver (bound : Nat) (r : Rounds) : Bool := r.frontier.isEmpty || bound ≤ r.count

def follow (step : Nat → List Nat) (min bound max : Nat) : Nat → Rounds → Rounds
  | 0, r => r
  | fuel + 1, r =>
    if r.isOver bound then r else follow step min bound max fuel (r.advance step min max)

end Rounds

/-- The sums, up to the largest, of between `min` and `bound` lengths. The frontier settles
within `max + 2` rounds below the minimum, and at most `max + 2` rounds follow. -/
def repeatedSums (step : Nat → List Nat) (min bound max : Nat) : List Nat :=
  let r := Rounds.follow step min bound max (2 * max + 4) {}
  ascending (if min = 0 then 0 :: r.seen.toList else r.seen.toList)

end SeqPattern
