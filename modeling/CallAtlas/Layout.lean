import CallAtlas.Adjacency
import CallAtlas.CallGraph

/-!
# Layout of a call graph

The layout describes every function of a call graph by its place in the whole. The center is
the function with the most calls from and to it. Distances are counted from the center with
the directions of the calls ignored. A cycle is a set of functions each of which calls each
other one, directly or not.

The layout reads a graph through its `Outline`, which forgets the order in which nodes and
edges were added. Functions appear in the order of their names.
-/

namespace CallAtlas

/-- What a call graph says, whatever the order it was built in. -/
structure Outline where
  /-- The functions, and whether their definitions are known. -/
  functions : Std.ExtTreeMap String Bool
  calls : Dependencies

/-- The names at the ends of an edge. -/
def CallGraph.ends? (g : CallGraph) (edge : Nat × Nat) : Option (String × String) := do
  return (← g.nameAt? edge.1, ← g.nameAt? edge.2)

/-- What the graph says. -/
def CallGraph.outline (g : CallGraph) : Outline where
  functions := .ofList (g.nodes.map fun node => (node.name, node.isDefined))
  calls := (g.edges.filterMap g.ends?).foldl
    (fun m (caller, callee) => m.addCall caller callee) ⟨∅⟩

namespace Outline

/-- The names of the functions, in order. -/
def names (o : Outline) : List String :=
  o.functions.keys

/-- The number of functions. -/
def size (o : Outline) : Nat :=
  o.names.length

/-- The place of a name among the names. -/
def rank (o : Outline) (name : String) : Nat :=
  o.names.idxOf name

/-- The number of calls of a function. -/
def inDegree (o : Outline) (name : String) : Nat :=
  o.calls.pairs.countP (fun call => call.2 = name)

/-- The number of calls a function makes. -/
def outDegree (o : Outline) (name : String) : Nat :=
  o.calls.pairs.countP (fun call => call.1 = name)

/-- The number of calls from and to a function; a call of itself counts twice. -/
def degree (o : Outline) (name : String) : Nat :=
  o.inDegree name + o.outDegree name

/-- The first element of a list that a measure is greatest at. -/
def firstGreatest (measure : String → Nat) : List String → Option String
  | [] => none
  | x :: xs =>
    match firstGreatest measure xs with
    | none => some x
    | some y => some (if measure x < measure y then y else x)

/-- The function with the highest degree, and of several such the first. -/
def center? (o : Outline) : Option String :=
  let degrees := Std.ExtTreeMap.ofList (o.names.map fun name => (name, o.degree name))
  firstGreatest (fun name => degrees.getD name 0) o.names

/-- The calls as pairs of ranks. -/
def rankedCalls (o : Outline) : List (Nat × Nat) :=
  o.calls.pairs.map fun (caller, callee) => (o.rank caller, o.rank callee)

/-- The calls as a relation on ranks. -/
def directed (o : Outline) : Adjacency o.size :=
  .ofPairs o.size o.rankedCalls

/-- The calls in both directions, as a relation on ranks. -/
def undirected (o : Outline) : Adjacency o.size :=
  .ofPairs o.size (o.rankedCalls ++ o.rankedCalls.map Prod.swap)

end Outline

/-- How far a function is from the center. -/
inductive Distance where
  | hops (count : Nat)
  | unreachable
deriving DecidableEq, Repr

namespace Distance

/-- The distance given by a number of steps, if there is one. -/
def ofSteps : Option Nat → Distance
  | some k => hops k
  | none => unreachable

/-- The number of steps, if the function is reachable. -/
def hops? : Distance → Option Nat
  | hops k => some k
  | unreachable => none

/-- The distance as a text. -/
def text : Distance → String
  | hops k => toString k
  | unreachable => "unreachable"

end Distance

/-- The part a function plays in a layout. -/
inductive Role where
  | center
  | cycle
  | defined
  | undefined
deriving DecidableEq, Repr

namespace Role

/-- The name of a role. -/
def label : Role → String
  | center => "center"
  | cycle => "cycle"
  | defined => "defined"
  | undefined => "undefined"

/-- The color that a function with this role is drawn in. -/
def color : Role → String
  | center => "#e41a1c"
  | cycle => "#ff7f00"
  | defined => "#377eb8"
  | undefined => "#999999"

end Role

/-- A function in a layout. -/
structure NodeRow where
  id : String
  isDefined : Bool
  distance : Distance
  inCycle : Bool
  inDegree : Nat
  outDegree : Nat
  role : Role
deriving DecidableEq, Repr

/-- The number of calls from and to the function. -/
def NodeRow.totalDegree (row : NodeRow) : Nat :=
  row.inDegree + row.outDegree

/-- A call in a layout. -/
structure EdgeRow where
  caller : String
  callee : String
  inCycle : Bool
deriving DecidableEq, Repr

/-- A call graph seen from its center. -/
structure Layout where
  center : Option String
  nodes : Array NodeRow
  edges : List EdgeRow
  cycles : List (List String)
deriving DecidableEq, Repr

namespace Layout

/-- The layout of a graph without nodes. -/
def empty : Layout := ⟨none, #[], [], []⟩

/-- The role of a function, the first that applies. -/
def roleOf (isCenter inCycle isDefined : Bool) : Role :=
  if isCenter then .center
  else if inCycle then .cycle
  else if isDefined then .defined
  else .undefined

/-- Whether two points of a relation lead to each other. -/
def mutually {n : Nat} (reach : Adjacency n) (i j : Nat) : Bool :=
  reach.has i j && reach.has j i

/-- The cycles of a list of names, where `reach` relates the ranks of those that lead to each
other. A cycle is listed at its first member. -/
def cyclesOf {n : Nat} (names : List String) (reach : Adjacency n) : List (List String) :=
  (List.range n).filterMap fun i =>
    if mutually reach i i && (List.range i).all (fun j => !mutually reach i j) then
      some ((names.zipIdx.filter fun (_, j) => mutually reach i j).map Prod.fst)
    else none

end Layout

/-- What is measured in an outline before it is laid out around a center. -/
structure Survey (o : Outline) where
  center : String
  /-- The ranks that one or more calls lead between. -/
  reach : Adjacency o.size
  /-- The fewest steps from the center to each rank, with directions ignored. -/
  steps : Vector (Option Nat) o.size

/-- The measures of an outline around a center. -/
def Outline.survey (o : Outline) (center : String) : Survey o where
  center := center
  reach := o.directed.closure
  steps := o.undirected.distances (o.rank center)

namespace Survey

variable {o : Outline}

/-- How far the function of a rank is from the center. -/
def distance (s : Survey o) (i : Nat) : Distance :=
  .ofSteps s.steps[i]?.join

/-- Whether a function is shown. Unless `all` is set, what the center is not connected with is
left out. -/
def shows (s : Survey o) (all : Bool) (name : String) : Bool :=
  all || (s.distance (o.rank name)).hops?.isSome

/-- The row of the function with rank `i`. -/
def nodeRow (s : Survey o) (name : String) (isDefined : Bool) (i : Nat) : NodeRow where
  id := name
  isDefined := isDefined
  distance := s.distance i
  inCycle := s.reach.has i i
  inDegree := o.inDegree name
  outDegree := o.outDegree name
  role := Layout.roleOf (name == s.center) (s.reach.has i i) isDefined

/-- The row of a call. -/
def edgeRow (s : Survey o) (caller callee : String) : EdgeRow where
  caller := caller
  callee := callee
  inCycle := s.reach.has (o.rank callee) (o.rank caller)

/-- The rows of the functions that are shown. -/
def nodeRows (s : Survey o) (all : Bool) : List NodeRow :=
  (o.functions.toList.zipIdx.filter fun row => s.shows all row.1.1).map
    fun ((name, isDefined), i) => s.nodeRow name isDefined i

/-- The rows of the calls between functions that are shown. -/
def edgeRows (s : Survey o) (all : Bool) : List EdgeRow :=
  (o.calls.pairs.filter fun call => s.shows all call.1 && s.shows all call.2).map
    fun (caller, callee) => s.edgeRow caller callee

/-- The layout that shows what was measured. -/
def layout (s : Survey o) (all : Bool) : Layout where
  center := some s.center
  nodes := (s.nodeRows all).toArray
  edges := s.edgeRows all
  cycles := (Layout.cyclesOf o.names s.reach).filter fun cycle => cycle.all (s.shows all)

end Survey

namespace Layout

/-- The layout of a call graph. Unless `all` is set, what the center is not connected with is
left out. -/
def compute (all : Bool) (g : CallGraph) : Layout :=
  let o := g.outline
  match o.center? with
  | none => empty
  | some center => (o.survey center).layout all

/-- Looks a row up by its name between two places, halving the range in each step. -/
def search (rows : Array NodeRow) (id : String) (low high : Nat) : Option NodeRow :=
  if _h : low < high then
    let middle := (low + high) / 2
    match rows[middle]? with
    | none => none
    | some row =>
      match compare id row.id with
      | .eq => some row
      | .lt => search rows id low middle
      | .gt => search rows id (middle + 1) high
  else none
termination_by high - low

/-- The row of a function. -/
def node? (l : Layout) (id : String) : Option NodeRow :=
  search l.nodes id 0 l.nodes.size

/-- The largest distance from the center. -/
def maxDistance (l : Layout) : Option Nat :=
  (l.nodes.toList.filterMap fun row => row.distance.hops?).max?

end Layout

end CallAtlas
