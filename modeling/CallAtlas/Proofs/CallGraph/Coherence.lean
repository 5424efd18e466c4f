import CallAtlas.Proofs.CallGraph.Growth

/-!
# Coherence of a call graph and its growth

The names, places and edges of a graph fit together (`Coherent`): looking a name up in the map
gives the place of its node, and no edge is there twice. Each way of building a graph comes with
the proof that it keeps this, so it holds of every graph (`coherent`).

A step takes nothing back. Nodes and edges stay where they are, and a defined node stays defined
(`Extends`, `extends_step`). An edge that is there already is answered with its place
(`step_edge_of_edgeAt`), and an edge that lacks an end with nothing (`step_edge_of_not_mem`);
neither changes the graph. `coherent_and_extends_of_run` puts this together for the graphs that
steps lead to from any graph, such as the empty one and that of a map of dependencies.
-/

namespace CallAtlas

namespace CallGraph

variable {g h : CallGraph} {name x y : String} {i j k : ℕ}

/-- No two nodes have one name, and each edge leads between two nodes. -/
structure WellFormed (g : CallGraph) : Prop where
  nodup : g.names.Nodup
  bounded : ∀ edge ∈ g.edges, edge.1 < g.names.length ∧ edge.2 < g.names.length

/-- No two nodes have one name and each edge leads between two nodes. A name is found at the
places where a node has it, and no two edges have the same ends. -/
structure Coherent (g : CallGraph) : Prop extends g.WellFormed where
  index?_iff : ∀ name i, g.index? name = some i ↔ g.nameAt? i = some name
  nodup_edges : g.edges.Nodup

/-- What is in the first graph is at the same place in the second. Nodes keep their names, and
those that are defined stay so; edges keep their ends. -/
structure Extends (g h : CallGraph) : Prop where
  nodes : ∀ (i : ℕ) (node : CallNode), g.nodes[i]? = some node →
    ∃ node' : CallNode, h.nodes[i]? = some node' ∧ node'.name = node.name ∧
      (node.isDefined → node'.isDefined)
  edges : ∀ (k : ℕ) (edge : ℕ × ℕ), g.edges[k]? = some edge → h.edges[k]? = some edge

/-- The edge at a place leads from the node with the first name to the one with the second. -/
def EdgeAt (g : CallGraph) (k : ℕ) (caller callee : String) : Prop :=
  ∃ edge, g.edges[k]? = some edge ∧ g.nameAt? edge.1 = some caller ∧
    g.nameAt? edge.2 = some callee

theorem coherent (g : CallGraph) : g.Coherent where
  nodup := g.nodup_names
  bounded := by
    rw [names, List.length_map]
    exact g.ends_lt
  index?_iff _ _ := index?_eq_some_iff
  nodup_edges := g.nodup_edges

/-! ## Growth -/

theorem Extends.refl (g : CallGraph) : g.Extends g :=
  ⟨fun _ node hnode => ⟨node, hnode, rfl, id⟩, fun _ _ hedge => hedge⟩

theorem Extends.trans {k : CallGraph} (hgh : g.Extends h) (hhk : h.Extends k) : g.Extends k where
  nodes i node hnode := by
    obtain ⟨node', hnode', hname, hdefined⟩ := hgh.nodes i node hnode
    obtain ⟨node'', hnode'', hname', hdefined'⟩ := hhk.nodes i node' hnode'
    exact ⟨node'', hnode'', hname'.trans hname, fun hd => hdefined' (hdefined hd)⟩
  edges k edge hedge := hhk.edges k edge (hgh.edges k edge hedge)

theorem extends_addNode (g : CallGraph) (name : String) (isDefined : Bool) :
    g.Extends (g.addNode name isDefined).2 where
  nodes k node hnode := by
    cases hi : g.index? name with
    | none =>
      have hk := (List.getElem?_eq_some_iff.mp hnode).1
      rw [addNode_of_index?_eq_none hi]
      exact ⟨node, by rw [pushNode, List.getElem?_append_left hk, hnode], rfl, id⟩
    | some i =>
      rw [addNode_of_index? hi]
      by_cases hik : i = k
      · refine ⟨{ node with isDefined := node.isDefined || isDefined }, ?_, rfl, fun hd => ?_⟩
        · simp [define, hik, hnode]
        · simp [hd]
      · exact ⟨node, by simp [define, hik, hnode], rfl, id⟩
  edges k edge hedge := by rwa [edges_addNode]

theorem extends_connect (g : CallGraph) (hi : i < g.nodes.length) (hj : j < g.nodes.length) :
    g.Extends (g.connect i j hi hj).2 where
  nodes k node hnode := ⟨node, by rwa [nodes_connect], rfl, id⟩
  edges k edge hedge := by
    rcases connect_cases g hi hj with ⟨l, -, heq⟩ | ⟨hnew, heq⟩
    · rwa [heq]
    · have hk := (List.getElem?_eq_some_iff.mp hedge).1
      rw [heq, pushEdge, List.getElem?_append_left hk, hedge]

theorem extends_step (g : CallGraph) : ∀ s : Step, g.Extends (g.step s).2
  | .node name isDefined => extends_addNode g name isDefined
  | .edge caller callee => by
    show g.Extends (g.addEdge caller callee).2
    rcases addEdge_cases g caller callee with ⟨i, j, hi, hj, heq⟩ | heq
    · rw [heq]
      exact extends_connect g (lt_of_index? hi) (lt_of_index? hj)
    · rw [heq]
      exact .refl g
  | .call caller callee => by
    obtain ⟨i, j, hi, hj, -, -, heq⟩ := addCall_eq_connect g caller callee
    show g.Extends (g.addCall caller callee).2
    rw [heq]
    exact ((extends_addNode g caller false).trans (extends_addNode _ callee false)).trans
      (extends_connect _ hi hj)
  | .index _ => .refl g

theorem extends_run : ∀ (steps : List Step) (g : CallGraph), g.Extends (g.run steps)
  | [], g => .refl g
  | s :: steps, g => (extends_step g s).trans (extends_run steps _)

/-- Only a step that says so makes a function defined. -/
theorem defines_step_iff : ∀ {s : Step}, (g.step s).2.Defines x ↔ g.Defines x ∨ s = .node x true
  | .node _ _ => defines_step trivial
  | .call _ _ => defines_step trivial
  | .edge caller callee => by
    show (g.addEdge caller callee).2.Defines x ↔ _
    rw [Defines, nodes_addEdge]
    simp [Defines]
  | .index _ => by simp [step]

/-! ## Steps that change nothing -/

/-- A node that is there is not changed by adding it as undefined. -/
theorem addNode_false_of_index? (hi : g.index? name = some i) :
    g.addNode name false = (i, g) := by
  have hsame :
      (fun node : CallNode => { node with isDefined := node.isDefined || false }) = id := by
    ext node
    simp
  have hnodes : (g.define i false).nodes = g.nodes := by
    show g.nodes.modify i _ = g.nodes
    rw [hsame, List.modify_id]
  rw [addNode_of_index? hi, CallGraph.ext hnodes rfl]

theorem step_edge_of_not_mem (hxy : x ∉ g.names ∨ y ∉ g.names) :
    g.step (.edge x y) = (none, g) :=
  addEdge_of_not_mem hxy

/-- Between nodes that are there, an edge and a call are the same step. -/
theorem step_edge_eq_step_call (hx : x ∈ g.names) (hy : y ∈ g.names) :
    g.step (.edge x y) = g.step (.call x y) := by
  obtain ⟨i, hi⟩ := exists_index? hx
  obtain ⟨j, hj⟩ := exists_index? hy
  show g.addEdge x y = (some (g.addCall x y).1, (g.addCall x y).2)
  simp only [addEdge_of_index? hi hj, addCall, addNode_false_of_index? hi,
    addNode_false_of_index? hj]

/-- No other edge has the ends of an edge, so connecting these finds it. -/
theorem connect_of_getElem? (hi : i < g.nodes.length) (hj : j < g.nodes.length)
    (hk : g.edges[k]? = some (i, j)) : g.connect i j hi hj = (k, g) := by
  rcases connect_cases g hi hj with ⟨l, hl, heq⟩ | ⟨hnew, -⟩
  · have hlt := (List.getElem?_eq_some_iff.mp hl).1
    rw [heq, (List.getElem?_inj hlt g.nodup_edges).mp (hl.trans hk.symm)]
  · exact absurd (List.mem_of_getElem? hk) hnew

theorem EdgeAt.mem_names (hk : g.EdgeAt k x y) : x ∈ g.names ∧ y ∈ g.names := by
  obtain ⟨edge, -, hx, hy⟩ := hk
  exact ⟨mem_names_of_nameAt? hx, mem_names_of_nameAt? hy⟩

/-- An edge that is there is found at its place. -/
theorem step_edge_of_edgeAt (hk : g.EdgeAt k x y) : g.step (.edge x y) = (some k, g) := by
  obtain ⟨⟨i, j⟩, hedge, hx, hy⟩ := hk
  show g.addEdge x y = (some k, g)
  rw [addEdge_of_index? (index?_eq_some_iff.mpr hx) (index?_eq_some_iff.mpr hy),
    connect_of_getElem? _ _ hedge]

/-! ## Answers -/

theorem getElem?_connect (g : CallGraph) (hi : i < g.nodes.length) (hj : j < g.nodes.length) :
    (g.connect i j hi hj).2.edges[(g.connect i j hi hj).1]? = some (i, j) := by
  rcases connect_cases g hi hj with ⟨k, hk, heq⟩ | ⟨hnew, heq⟩
  · rw [heq, hk]
  · rw [heq]
    simp [pushEdge]

/-- A call is answered with the place of its edge. -/
theorem edgeAt_addCall (g : CallGraph) (caller callee : String) :
    (g.addCall caller callee).2.EdgeAt (g.addCall caller callee).1 caller callee := by
  obtain ⟨i, j, hi, hj, hcaller, hcallee, heq⟩ := addCall_eq_connect g caller callee
  rw [heq]
  refine ⟨(i, j), getElem?_connect _ hi hj, ?_, ?_⟩
  · rw [nameAt?_congr (nodes_connect _ hi hj), hcaller]
  · rw [nameAt?_congr (nodes_connect _ hi hj), hcallee]

/-! ## Runs -/

/-- Let steps be taken from any graph, such as the empty one or that of a map of dependencies. The
graph they lead to is coherent: no two nodes have one name, the map finds a name at exactly the
place where a node has it, each edge leads between two nodes, and no two edges have the same ends.
Every further run leaves nodes and edges at their places, with their names and ends, and defined
nodes defined. A step makes a function defined only by adding a node of its name as defined. A node
step is answered with the place of the node, and a call with the place of its edge; an edge between
nodes that are there is the same step as a call. An edge or a call that has its edge already is
answered with the place of that edge, and changes nothing. An edge that lacks an end is answered
with nothing, and changes nothing. -/
theorem coherent_and_extends_of_run (start : CallGraph) (steps : List Step) :
    let g := start.run steps
    g.Coherent ∧
    (∀ s, g.Extends (g.step s).2) ∧ (∀ more, g.Extends (g.run more)) ∧
    (∀ s x, (g.step s).2.Defines x ↔ g.Defines x ∨ s = .node x true) ∧
    (∀ x isDefined, ∃ i, (g.step (.node x isDefined)).1 = some i ∧
      (g.step (.node x isDefined)).2.nameAt? i = some x) ∧
    (∀ x y, ∃ k, (g.step (.call x y)).1 = some k ∧ (g.step (.call x y)).2.EdgeAt k x y) ∧
    (∀ x ∈ g.names, ∀ y ∈ g.names, g.step (.edge x y) = g.step (.call x y)) ∧
    (∀ k x y, g.EdgeAt k x y →
      g.step (.edge x y) = (some k, g) ∧ g.step (.call x y) = (some k, g)) ∧
    ∀ x y, x ∉ g.names ∨ y ∉ g.names → g.step (.edge x y) = (none, g) := by
  intro g
  refine ⟨g.coherent, extends_step g, fun more => extends_run more g, fun s x => defines_step_iff,
    ?_, ?_, ?_, ?_, ?_⟩
  · exact fun x isDefined => ⟨_, rfl, nameAt?_addNode g x isDefined⟩
  · exact fun x y => ⟨_, rfl, edgeAt_addCall g x y⟩
  · exact fun x hx y hy => step_edge_eq_step_call hx hy
  · intro k x y hk
    have hedge := step_edge_of_edgeAt hk
    refine ⟨hedge, ?_⟩
    rw [← step_edge_eq_step_call hk.mem_names.1 hk.mem_names.2, hedge]
  · exact fun x y hxy => step_edge_of_not_mem hxy

/-- The theorem applies to a graph of dependencies to which a call of a new function by itself is
added, that is defined only later. Its edge is found again, and a third function is not there. -/
theorem coherent_and_extends_of_run_of_calls :
    let start := ofDependencies (.ofCalls [("f", ["g", "f"])]) (· == "f")
    let g := start.run [.call "h" "h", .node "h" true]
    start.nodes = [⟨"f", true⟩, ⟨"g", false⟩] ∧
      g.nodes = [⟨"f", true⟩, ⟨"g", false⟩, ⟨"h", true⟩] ∧ g.Coherent ∧
      g.step (.edge "h" "h") = (some 2, g) ∧ g.step (.call "h" "h") = (some 2, g) ∧
      g.step (.edge "h" "k") = (none, g) := by
  intro start g
  obtain ⟨hg, -, -, -, -, -, -, hagain, hmissing⟩ :=
    coherent_and_extends_of_run start [.call "h" "h", .node "h" true]
  have hedge : g.EdgeAt 2 "h" "h" :=
    ⟨(2, 2), by decide +kernel, by decide +kernel, by decide +kernel⟩
  obtain ⟨hfirst, hsecond⟩ := hagain 2 "h" "h" hedge
  exact ⟨by decide +kernel, by decide +kernel, hg, hfirst, hsecond,
    hmissing "h" "k" (Or.inr (by decide +kernel))⟩

end CallGraph

end CallAtlas
