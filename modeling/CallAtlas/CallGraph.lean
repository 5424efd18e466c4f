import CallAtlas.Dependencies

/-!
# Call graphs

A call graph lists its nodes and edges in the order they were added. Nodes are found by name,
in a map from names to places, and edges by the places of their two ends. Adding what is there
already changes nothing, except that a node may become defined.

The names, the places and the edges of a graph fit together by its type: the map finds exactly
the names of the nodes, each at its place, and edges lead between nodes and are different.
-/

namespace CallAtlas

/-- A function, and whether its definition is known. -/
structure CallNode where
  name : String
  isDefined : Bool
deriving DecidableEq, Repr

/-- Functions and the calls between them. An edge holds the places of its ends among the
nodes. -/
structure CallGraph where
  nodes : List CallNode
  edges : List (Nat × Nat)
  /-- The place of each name among the nodes. -/
  places : Std.ExtTreeMap String Nat
  /-- A name is found at the places where a node has it. -/
  places_iff : ∀ name i, places[name]? = some i ↔ nodes[i]?.map CallNode.name = some name
  /-- Every edge leads between two nodes. -/
  ends_lt : ∀ edge ∈ edges, edge.1 < nodes.length ∧ edge.2 < nodes.length
  /-- No two edges have the same ends. -/
  nodup_edges : edges.Nodup
deriving DecidableEq

namespace CallGraph

/-- The map of places is determined by the nodes. -/
@[ext]
theorem ext {g h : CallGraph} (hnodes : g.nodes = h.nodes) (hedges : g.edges = h.edges) :
    g = h := by
  have hplaces : g.places = h.places := by
    refine Std.ExtTreeMap.ext_getElem? fun name => Option.ext fun i => ?_
    rw [g.places_iff, h.places_iff, hnodes]
  cases g
  cases h
  simp_all

/-- The graph without nodes. -/
def empty : CallGraph where
  nodes := []
  edges := []
  places := ∅
  places_iff := by simp
  ends_lt := by simp
  nodup_edges := List.nodup_nil

/-- The place of the node with a name. -/
def index? (g : CallGraph) (name : String) : Option Nat :=
  g.places[name]?

/-- The name of the node at a place. -/
def nameAt? (g : CallGraph) (i : Nat) : Option String :=
  g.nodes[i]?.map CallNode.name

theorem index?_eq_some_iff {g : CallGraph} {name : String} {i : Nat} :
    g.index? name = some i ↔ g.nameAt? i = some name :=
  g.places_iff name i

theorem lt_of_index? {g : CallGraph} {name : String} {i : Nat} (h : g.index? name = some i) :
    i < g.nodes.length := by
  obtain ⟨node, hnode, -⟩ := Option.map_eq_some_iff.mp (index?_eq_some_iff.mp h)
  exact (List.getElem?_eq_some_iff.mp hnode).1

/-- Makes the node at a place defined, if it is to be. -/
def define (g : CallGraph) (i : Nat) (isDefined : Bool) : CallGraph where
  nodes := g.nodes.modify i fun node => { node with isDefined := node.isDefined || isDefined }
  edges := g.edges
  places := g.places
  places_iff name j := by
    rw [g.places_iff, List.getElem?_modify]
    cases g.nodes[j]? with
    | none => rfl
    | some node => by_cases hij : i = j <;> simp [hij]
  ends_lt := by
    rw [List.length_modify]
    exact g.ends_lt
  nodup_edges := g.nodup_edges

theorem nameAt?_concat_iff {nodes : List CallNode} {node : CallNode} {name : String} {i : Nat} :
    (nodes ++ [node])[i]?.map CallNode.name = some name ↔
      nodes[i]?.map CallNode.name = some name ∨ i = nodes.length ∧ node.name = name := by
  rcases Nat.lt_trichotomy i nodes.length with hlt | rfl | hgt
  · rw [List.getElem?_append_left hlt]
    simp [Nat.ne_of_lt hlt]
  · simp
  · have hlength : (nodes ++ [node]).length ≤ i := by
      rw [List.length_append]
      exact hgt
    rw [List.getElem?_eq_none hlength, List.getElem?_eq_none (Nat.le_of_lt hgt)]
    simp [Nat.ne_of_gt hgt]

/-- Puts a node with a new name at the end. -/
def pushNode (g : CallGraph) (node : CallNode) (h : g.index? node.name = none) : CallGraph where
  nodes := g.nodes ++ [node]
  edges := g.edges
  places := g.places.insert node.name g.nodes.length
  places_iff name i := by
    rw [Std.ExtTreeMap.getElem?_insert, nameAt?_concat_iff, ← g.places_iff]
    by_cases hname : node.name = name
    · subst hname
      have hnew : g.places[node.name]? = none := h
      simp [hnew, eq_comm]
    · simp [hname]
  ends_lt edge hedge := by
    obtain ⟨hcaller, hcallee⟩ := g.ends_lt edge hedge
    rw [List.length_append]
    exact ⟨Nat.lt_add_right _ hcaller, Nat.lt_add_right _ hcallee⟩
  nodup_edges := g.nodup_edges

/-- Adds a node, or makes the one with this name defined, and gives its place. -/
def addNode (g : CallGraph) (name : String) (isDefined : Bool) : Nat × CallGraph :=
  match h : g.index? name with
  | some i => (i, g.define i isDefined)
  | none => (g.nodes.length, g.pushNode ⟨name, isDefined⟩ h)

section

variable {g : CallGraph} {name : String} {i : Nat} {isDefined : Bool}

theorem addNode_of_index? (h : g.index? name = some i) :
    g.addNode name isDefined = (i, g.define i isDefined) := by
  unfold addNode
  split
  · next j hj =>
    cases h.symm.trans hj
    rfl
  · next hnone => cases h.symm.trans hnone

theorem addNode_of_index?_eq_none (h : g.index? name = none) :
    g.addNode name isDefined = (g.nodes.length, g.pushNode ⟨name, isDefined⟩ h) := by
  unfold addNode
  split
  · next j hj => cases h.symm.trans hj
  · rfl

/-- The place that adding a node answers with is that of a node. -/
theorem lt_length_addNode :
    (g.addNode name isDefined).1 < (g.addNode name isDefined).2.nodes.length := by
  cases h : g.index? name with
  | some i =>
    rw [addNode_of_index? h]
    simpa [define] using lt_of_index? h
  | none =>
    rw [addNode_of_index?_eq_none h]
    simp [pushNode]

/-- Adding a node takes none away. -/
theorem length_le_length_addNode :
    g.nodes.length ≤ (g.addNode name isDefined).2.nodes.length := by
  cases h : g.index? name with
  | some i =>
    rw [addNode_of_index? h]
    simp [define]
  | none =>
    rw [addNode_of_index?_eq_none h]
    simp [pushNode]

end

/-- Puts a new edge between two nodes at the end. -/
def pushEdge (g : CallGraph) (edge : Nat × Nat)
    (hends : edge.1 < g.nodes.length ∧ edge.2 < g.nodes.length) (h : edge ∉ g.edges) :
    CallGraph where
  nodes := g.nodes
  edges := g.edges ++ [edge]
  places := g.places
  places_iff := g.places_iff
  ends_lt other hother := by
    rcases List.mem_append.mp hother with hother | hother
    · exact g.ends_lt other hother
    · rwa [List.mem_singleton.mp hother]
  nodup_edges := by
    refine List.nodup_append.mpr ⟨g.nodup_edges, List.pairwise_singleton _ _, ?_⟩
    rintro other hother _ hedge rfl
    exact h (List.mem_singleton.mp hedge ▸ hother)

theorem not_mem_of_findIdx? {edges : List (Nat × Nat)} {edge : Nat × Nat}
    (h : edges.findIdx? (fun other => other = edge) = none) : edge ∉ edges := fun hmem => by
  simpa using List.findIdx?_eq_none_iff.mp h edge hmem

/-- Adds an edge between the nodes at two places, unless it is there, and gives its place. -/
def connect (g : CallGraph) (caller callee : Nat) (hcaller : caller < g.nodes.length)
    (hcallee : callee < g.nodes.length) : Nat × CallGraph :=
  match h : g.edges.findIdx? (fun edge => edge = (caller, callee)) with
  | some i => (i, g)
  | none => (g.edges.length,
      g.pushEdge (caller, callee) ⟨hcaller, hcallee⟩ (not_mem_of_findIdx? h))

/-- Adds an edge between two nodes that are there, and gives its place. -/
def addEdge (g : CallGraph) (caller callee : String) : Option Nat × CallGraph :=
  match hi : g.index? caller, hj : g.index? callee with
  | some i, some j =>
    let (e, g) := g.connect i j (lt_of_index? hi) (lt_of_index? hj)
    (some e, g)
  | _, _ => (none, g)

/-- Adds an edge, and its ends as undefined nodes if they are not there. -/
def addCall (g : CallGraph) (caller callee : String) : Nat × CallGraph :=
  let first := g.addNode caller false
  let second := first.2.addNode callee false
  second.2.connect first.1 second.1
    (Nat.lt_of_lt_of_le lt_length_addNode length_le_length_addNode) lt_length_addNode

/-- One step of building a graph. -/
inductive Step where
  | node (name : String) (isDefined : Bool)
  | edge (caller callee : String)
  | call (caller callee : String)
  | index (name : String)
deriving DecidableEq, Repr

/-- Takes a step and gives the place it answers with. -/
def step (g : CallGraph) : Step → Option Nat × CallGraph
  | .node name isDefined =>
    let (i, g) := g.addNode name isDefined
    (some i, g)
  | .edge caller callee => g.addEdge caller callee
  | .call caller callee =>
    let (e, g) := g.addCall caller callee
    (some e, g)
  | .index name => (g.index? name, g)

/-- The graph after some steps. -/
def run (g : CallGraph) (steps : List Step) : CallGraph :=
  steps.foldl (fun g s => (g.step s).2) g

/-- The answers to some steps, and the graph after them. -/
def answers (g : CallGraph) : List Step → List (Option Nat) × CallGraph
  | [] => ([], g)
  | s :: steps =>
    let (answer, g) := g.step s
    let (rest, g) := g.answers steps
    (answer :: rest, g)

/-- The graph of a map of dependencies: all names in order, then all calls in order. -/
def ofDependencies (m : Dependencies) (isDefined : String → Bool) : CallGraph :=
  let nodes := m.names.toList.map fun name => Step.node name (isDefined name)
  let edges := m.pairs.map fun (caller, callee) => Step.edge caller callee
  empty.run (nodes ++ edges)

end CallGraph

end CallAtlas
