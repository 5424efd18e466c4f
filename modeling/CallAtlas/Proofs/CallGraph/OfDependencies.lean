import CallAtlas.Proofs.CallGraph
import CallAtlas.Proofs.Dependencies.Canonical

/-!
# The graph of a map of dependencies

The graph that is built from a map of dependencies has a node for each caller and each callee,
in the order of their names, and its calls are those of the map (`nodes_and_calls_ofDependencies`).

An edge that lacks an end or is there already would leave no trace. While a graph is built this
does not happen: the nodes come first and are all the names of the map, and no two pairs of the map
are the same, so every step is answered with the next place (`answers_buildSteps`).
`nodes_and_edges_ofDependencies` reads nodes and edges off the list of calls that the map is made
of.
-/

namespace CallAtlas

namespace Dependencies

variable {m : Dependencies} {x y : String}

theorem mem_names_iff :
    x ∈ m.names ↔ (∃ names, m.get? x = some names) ∨ ∃ caller, m.Calls caller x := by
  have hmem : x ∈ m.names ↔ ∃ entry ∈ m.entries, x = entry.1 ∨ x ∈ entry.2 := by
    rw [names, NameSet.mem_ofList_iff, List.mem_flatMap]
    simp only [List.mem_cons]
  rw [hmem]
  constructor
  · rintro ⟨⟨caller, list⟩, hmem, hx⟩
    obtain ⟨names, hget, rfl⟩ := mem_entries_iff.mp hmem
    rcases hx with rfl | hx
    · exact Or.inl ⟨names, hget⟩
    · exact Or.inr ⟨caller, names, hget, Std.ExtTreeSet.mem_toList.mp hx⟩
  · rintro (⟨names, hget⟩ | ⟨caller, names, hget, hx⟩)
    · exact ⟨(x, names.toList), mem_entries_iff.mpr ⟨names, hget, rfl⟩, Or.inl rfl⟩
    · exact ⟨(caller, names.toList), mem_entries_iff.mpr ⟨names, hget, rfl⟩,
        Or.inr (Std.ExtTreeSet.mem_toList.mpr hx)⟩

theorem mem_names_of_calls (h : m.Calls x y) : x ∈ m.names ∧ y ∈ m.names := by
  have hcallee := mem_names_iff.mpr (Or.inr ⟨x, h⟩)
  obtain ⟨names, hget, -⟩ := h
  exact ⟨mem_names_iff.mpr (Or.inl ⟨names, hget⟩), hcallee⟩

theorem mem_names_ofCalls_iff {calls : List (String × List String)} : x ∈ (ofCalls calls).names ↔
    ∃ caller names, lastCallees? calls caller = some names ∧ (x = caller ∨ x ∈ names) := by
  rw [mem_names_iff]
  constructor
  · rintro (⟨set, hget⟩ | ⟨caller, hcalls⟩)
    · obtain ⟨names, hlast, -⟩ := Option.map_eq_some_iff.mp (get?_ofCalls calls x ▸ hget)
      exact ⟨x, names, hlast, Or.inl rfl⟩
    · obtain ⟨names, hlast, hx⟩ := calls_ofCalls_iff.mp hcalls
      exact ⟨caller, names, hlast, Or.inr hx⟩
  · rintro ⟨caller, names, hlast, rfl | hx⟩
    · exact Or.inl ⟨.ofList names, by rw [get?_ofCalls, hlast]; rfl⟩
    · exact Or.inr ⟨caller, calls_ofCalls_iff.mpr ⟨names, hlast, hx⟩⟩

theorem length_pairs (m : Dependencies) : m.pairs.length = m.callCount := by
  rw [pairs, callCount, List.length_flatMap]
  simp [List.sum_eq_foldr]

end Dependencies

namespace CallGraph

variable {m : Dependencies} {isDefined : String → Bool}

/-- The nodes of a map of dependencies. -/
def nodesOf (m : Dependencies) (isDefined : String → Bool) : List CallNode :=
  m.names.toList.map fun name => ⟨name, isDefined name⟩

theorem map_name_nodesOf (m : Dependencies) (isDefined : String → Bool) :
    (nodesOf m isDefined).map CallNode.name = m.names.toList := by
  simp [nodesOf, Function.comp_def]

theorem nodup_names_nodesOf (m : Dependencies) (isDefined : String → Bool) :
    ((nodesOf m isDefined).map CallNode.name).Nodup := by
  rw [map_name_nodesOf]
  exact (Dependencies.toList_ordered m.names).imp fun h => h.ne

/-- The steps that build the graph of a map of dependencies. -/
def buildSteps (m : Dependencies) (isDefined : String → Bool) : List Step :=
  (nodesOf m isDefined).map (fun node => .node node.name node.isDefined) ++
    m.pairs.map fun call => .edge call.1 call.2

theorem ofDependencies_eq_run (m : Dependencies) (isDefined : String → Bool) :
    ofDependencies m isDefined = empty.run (buildSteps m isDefined) := by
  rw [buildSteps, nodesOf, List.map_map]
  rfl

/-- The graph of the names of a map of dependencies, without calls. -/
def ofNames (m : Dependencies) (isDefined : String → Bool) : CallGraph :=
  empty.run ((nodesOf m isDefined).map fun node => .node node.name node.isDefined)

theorem ofDependencies_eq (m : Dependencies) (isDefined : String → Bool) :
    ofDependencies m isDefined =
      (ofNames m isDefined).run (m.pairs.map fun call => .edge call.1 call.2) := by
  rw [ofDependencies_eq_run, buildSteps, run_append, ofNames]

/-- The names of a map are new to the graph one after the other, and are answered with their
places. -/
theorem answers_nodesOf (m : Dependencies) (isDefined : String → Bool) :
    (empty.answers ((nodesOf m isDefined).map fun node => .node node.name node.isDefined)).1 =
        (List.range (nodesOf m isDefined).length).map some ∧
      (ofNames m isDefined).nodes = nodesOf m isDefined ∧ (ofNames m isDefined).edges = [] := by
  rw [List.range_eq_range']
  exact answers_nodes (g := empty) _ (nodup_names_nodesOf m isDefined)

theorem nodes_ofNames (m : Dependencies) (isDefined : String → Bool) :
    (ofNames m isDefined).nodes = nodesOf m isDefined :=
  (answers_nodesOf m isDefined).2.1

theorem edges_ofNames (m : Dependencies) (isDefined : String → Bool) :
    (ofNames m isDefined).edges = [] :=
  (answers_nodesOf m isDefined).2.2

theorem not_calls_ofNames {x y : String} : ¬(ofNames m isDefined).Calls x y := by
  rintro ⟨edge, hedge, -⟩
  rw [edges_ofNames] at hedge
  cases hedge

theorem mem_names_ofNames {call : String × String} (h : call ∈ m.pairs) :
    call.1 ∈ (ofNames m isDefined).names ∧ call.2 ∈ (ofNames m isDefined).names := by
  obtain ⟨hcaller, hcallee⟩ :=
    Dependencies.mem_names_of_calls (Dependencies.mem_pairs_iff.mp h)
  rw [names, nodes_ofNames, map_name_nodesOf]
  exact ⟨Std.ExtTreeSet.mem_toList.mpr hcaller, Std.ExtTreeSet.mem_toList.mpr hcallee⟩

/-- The graph of a map of dependencies has its names as nodes, in order, and its calls. -/
theorem nodes_and_calls_ofDependencies (m : Dependencies) (isDefined : String → Bool) :
    (ofDependencies m isDefined).nodes = nodesOf m isDefined ∧
      ∀ x y, (ofDependencies m isDefined).Calls x y ↔ m.Calls x y := by
  obtain ⟨hnodes, hcalls⟩ :=
    run_edges m.pairs (g := ofNames m isDefined) fun _ => mem_names_ofNames
  rw [ofDependencies_eq]
  refine ⟨hnodes.trans (nodes_ofNames m isDefined), fun x y => ?_⟩
  rw [hcalls, Dependencies.mem_pairs_iff, or_iff_right not_calls_ofNames]

/-- Every step of building the graph is answered with the next place. -/
theorem answers_buildSteps (m : Dependencies) (isDefined : String → Bool) :
    let g := ofDependencies m isDefined
    empty.answers (buildSteps m isDefined) =
        ((List.range g.nodes.length).map some ++ (List.range m.callCount).map some, g) ∧
      g.edges.map (fun edge => (g.nameAt? edge.1, g.nameAt? edge.2)) =
        m.pairs.map fun call => (some call.1, some call.2) := by
  intro g
  obtain ⟨hanswers, edges, hedges, hnames⟩ := answers_edges m.pairs (g := ofNames m isDefined)
    (fun _ => mem_names_ofNames) (fun _ _ => not_calls_ofNames) m.pairs_nodup
  have hnodes : g.nodes = nodesOf m isDefined := (nodes_and_calls_ofDependencies m isDefined).1
  rw [← ofDependencies_eq, edges_ofNames, List.nil_append] at hedges
  refine ⟨Prod.ext ?_ ?_, ?_⟩
  · rw [buildSteps, answers_append, (answers_nodesOf m isDefined).1, ← ofNames, hanswers, hnodes,
      edges_ofNames, Dependencies.length_pairs, List.range_eq_range' (n := m.callCount)]
    rfl
  · rw [answers_snd, ← ofDependencies_eq_run]
  · rw [hedges]
    simpa only [nameAt?_congr (hnodes.trans (nodes_ofNames m isDefined).symm)] using hnames

/-- Let a map be made of a list of calls. Its graph has exactly the callers and the callees in
their last entries as nodes, in strict order of their names, each defined as the predicate says.
Its edges are exactly the pairs of the map, one edge for each, in strict order. Every step of
building it is answered with the next place, so no pair is lost and no two are merged, and there
are as many edges as the map has calls. -/
theorem nodes_and_edges_ofDependencies (calls : List (String × List String))
    (isDefined : String → Bool) :
    let m : Dependencies := .ofCalls calls
    let g := ofDependencies m isDefined
    g.names.Pairwise (· < ·) ∧
    (∀ node, node ∈ g.nodes ↔ node.isDefined = isDefined node.name ∧
      ∃ caller names, Dependencies.lastCallees? calls caller = some names ∧
        (node.name = caller ∨ node.name ∈ names)) ∧
    m.pairs.Pairwise Dependencies.Before ∧
    (∀ x y, (x, y) ∈ m.pairs ↔
      ∃ names, Dependencies.lastCallees? calls x = some names ∧ y ∈ names) ∧
    g.edges.map (fun edge => (g.nameAt? edge.1, g.nameAt? edge.2)) =
      m.pairs.map (fun call => (some call.1, some call.2)) ∧
    empty.answers (buildSteps m isDefined) =
      ((List.range g.nodes.length).map some ++ (List.range m.callCount).map some, g) ∧
    g.edges.length = m.callCount := by
  intro m g
  obtain ⟨hanswers, hedges⟩ := answers_buildSteps m isDefined
  have hnodes : g.nodes = nodesOf m isDefined := (nodes_and_calls_ofDependencies m isDefined).1
  refine ⟨?_, fun node => ?_, m.pairs_ordered, fun x y => ?_, hedges, hanswers, ?_⟩
  · rw [names, hnodes, map_name_nodesOf]
    exact Dependencies.toList_ordered m.names
  · rw [hnodes, ← Dependencies.mem_names_ofCalls_iff, nodesOf, List.mem_map]
    constructor
    · rintro ⟨name, hname, rfl⟩
      exact ⟨rfl, Std.ExtTreeSet.mem_toList.mp hname⟩
    · rintro ⟨hdefined, hname⟩
      exact ⟨node.name, Std.ExtTreeSet.mem_toList.mpr hname, by rw [← hdefined]⟩
  · rw [Dependencies.mem_pairs_iff, Dependencies.calls_ofCalls_iff]
  · have hlength := congrArg List.length hedges
    rwa [List.length_map, List.length_map, Dependencies.length_pairs] at hlength

/-- A function calls itself and another one, which calls nothing since its entry is replaced. -/
example :
    let g := ofDependencies (.ofCalls [("g", ["x"]), ("f", ["g", "f", "g"]), ("g", [])]) (· != "g")
    g.nodes = [⟨"f", true⟩, ⟨"g", false⟩] ∧ g.edges = [(0, 0), (0, 1)] := by
  decide +kernel

end CallGraph

end CallAtlas
