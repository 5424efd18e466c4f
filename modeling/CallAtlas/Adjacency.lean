/-!
# Adjacency of numbered points

A binary relation on the numbers below `n`, with one bit vector of successors for each number.
`closure` relates the points that one or more steps lead between. `distances` counts the fewest
steps from a starting point, by a search that expands points in the order it finds them.
-/

namespace CallAtlas

/-- A relation on the numbers below `n`: row `i` holds the successors of `i`. -/
abbrev Adjacency (n : Nat) := Vector (BitVec n) n

namespace Adjacency

variable {n : Nat}

/-- Whether `j` is a successor of `i`. -/
def has (r : Adjacency n) (i j : Nat) : Bool :=
  if h : i < n then r[i].getLsbD j else false

/-- The relation that holds of the pairs in a list. -/
def ofPairs (n : Nat) (pairs : List (Nat × Nat)) : Adjacency n :=
  Vector.ofFn fun i => pairs.foldl
    (fun row (a, b) => if a = i.val then row ||| BitVec.twoPow n b else row) 0

/-- Adds the steps that two steps through `k` make. -/
def through (r : Adjacency n) (k : Fin n) : Adjacency n :=
  let via := r[k]
  r.map fun row => if row.getLsbD k then row ||| via else row

/-- The points that one or more steps lead between. -/
def closure (r : Adjacency n) : Adjacency n :=
  (List.finRange n).foldl through r

/-- The successors of a point, in order. -/
def successors (r : Adjacency n) (i : Fin n) : List (Fin n) :=
  (List.finRange n).filter fun j => r.has i j

/-- A search for the points that steps from a starting point lead to. -/
structure Search (n : Nat) where
  /-- The number of steps to each point that is found. -/
  steps : Vector (Option Nat) n
  /-- The points that are found but not expanded, in the order they were found. -/
  queue : List (Fin n)

namespace Search

/-- The search that has found its starting point alone. -/
def start (i : Fin n) : Search n :=
  ⟨(Vector.replicate n none).set i (some 0), [i]⟩

/-- The number of steps to a point, if it is found. -/
def stepsTo? (s : Search n) (i : Fin n) : Option Nat :=
  s.steps[i]

/-- Finds a point after a number of steps, unless it was found before. -/
def visit (s : Search n) (count : Nat) (j : Fin n) : Search n :=
  if (s.stepsTo? j).isSome then s else ⟨s.steps.set j (some count), s.queue ++ [j]⟩

/-- Expands a point: finds its successors, one step further away than itself. -/
def expand (r : Adjacency n) (s : Search n) (i : Fin n) : Search n :=
  (r.successors i).foldl (fun t j => t.visit ((s.stepsTo? i).getD 0 + 1) j) s

/-- The number of points that are not expanded: those not found, and those in the queue. -/
def pending (s : Search n) : Nat :=
  s.steps.countP Option.isNone + s.queue.length

/-- A point that is found moves from the points not found to the queue. -/
theorem pending_visit (s : Search n) (count : Nat) (j : Fin n) :
    (s.visit count j).pending = s.pending := by
  unfold visit pending
  split
  · rfl
  · next h =>
    have hnone : s.steps[j.val].isNone = true := by simpa [stepsTo?] using h
    have hpos : 0 < s.steps.countP Option.isNone :=
      Vector.countP_pos_iff.mpr ⟨s.steps[j.val], Vector.getElem_mem j.isLt, hnone⟩
    rw [Vector.countP_set, if_pos hnone, List.length_append, List.length_singleton,
      Option.isNone_some, if_neg Bool.false_ne_true]
    omega

theorem pending_expand (r : Adjacency n) (s : Search n) (i : Fin n) :
    (s.expand r i).pending = s.pending := by
  unfold expand
  generalize (s.stepsTo? i).getD 0 + 1 = count
  induction r.successors i generalizing s with
  | nil => rfl
  | cons j js ih => rw [List.foldl_cons, ih, pending_visit]

/-- Expands the points in the order they are found, until the queue is empty. -/
def run (r : Adjacency n) (s : Search n) : Search n :=
  match _h : s.queue with
  | [] => s
  | i :: rest => run r (expand r { s with queue := rest } i)
termination_by s.pending
decreasing_by
  rw [pending_expand]
  simp [pending, *]

end Search

/-- The search for all points that can be reached from a starting point. -/
def search (r : Adjacency n) (start : Nat) : Search n :=
  if h : start < n then (Search.start ⟨start, h⟩).run r else ⟨Vector.replicate n none, []⟩

/-- The fewest steps from a point to each point they can reach. -/
def distances (r : Adjacency n) (start : Nat) : Vector (Option Nat) n :=
  (r.search start).steps

end Adjacency

end CallAtlas
