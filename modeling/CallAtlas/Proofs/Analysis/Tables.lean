import CallAtlas.Proofs.Analysis
import CallAtlas.Proofs.CallGraph.OfDependencies
import CallAtlas.Proofs.Layout

/-!
# The tables of an analysis

What a run finds is shown as a map of dependencies, as a graph and as a layout. The callers of
the map are the registered functions (`callers_resolve`), and so are all its names
(`names_resolve`), because a call counts only if its target is registered. So the graph has the
registered functions as its nodes (`nodes_graph`), and the rows of the layout are the registered
functions and the calls of the map, in the same order (`rows_layout`). `tables_of_run` puts this
together.
-/

namespace CallAtlas

namespace Registry

variable {r : Registry}

theorem callers_resolve (r : Registry) (targets : FunctionLiteral → NameSet) :
    (r.resolve targets).entries.map Prod.fst = r.names := by
  rw [Dependencies.entries, List.map_map, resolve, names,
    ← Std.ExtTreeMap.keys_map (t := r.definitions)
      (f := fun _ d => (targets d.literal).filter r.contains),
    ← Std.ExtTreeMap.map_fst_toList_eq_keys]
  rfl

/-- A call leads to a registered function, so the callees are among the callers. -/
theorem names_resolve (r : Registry) (targets : FunctionLiteral → NameSet) :
    (r.resolve targets).names.toList = r.names := by
  have hordered := Dependencies.toList_ordered (r.resolve targets).names
  refine hordered.eq_of_mem_iff r.names_ordered fun x => ?_
  rw [Std.ExtTreeSet.mem_toList, Dependencies.mem_names_iff, get?_resolve,
    mem_names_iff_exists]
  simp only [Option.map_eq_some_iff, calls_resolve]
  constructor
  · rintro (⟨names, d, hd, -⟩ | ⟨caller, d, -, -, hx⟩)
    · exact ⟨d, hd⟩
    · exact mem_names_iff_exists.mp hx
  · rintro ⟨d, hd⟩
    exact Or.inl ⟨_, d, hd, rfl⟩

end Registry

namespace Analysis

variable {config : Config} {tree : FileTree} {paths : List Path} {a : Analysis}

theorem nodes_graph (h : run config tree paths = .ok a) :
    a.graph.nodes = a.registry.names.map (⟨·, true⟩) := by
  rw [graph, (CallGraph.nodes_and_calls_ofDependencies _ _).1, CallGraph.nodesOf,
    dependencies_run h, Registry.names_resolve]
  refine List.map_congr_left fun name hname => ?_
  rw [Registry.contains_iff.mpr hname]

theorem names_graph (h : run config tree paths = .ok a) : a.graph.names = a.registry.names := by
  rw [CallGraph.names, nodes_graph h, List.map_map]
  exact List.map_id _

/-- The layout of all functions has a row for each registered function and each call. -/
theorem rows_layout (h : run config tree paths = .ok a) :
    (a.layout true).nodes.toList.map NodeRow.id = a.registry.names ∧
      (a.layout true).edges.map (fun row => (row.caller, row.callee)) = a.dependencies.pairs := by
  obtain ⟨hids, hends⟩ := Layout.rows_compute_true a.graph
  rw [layout, hids, hends]
  constructor
  · refine a.graph.outline.names_ordered.eq_of_mem_iff a.registry.names_ordered fun x => ?_
    rw [CallGraph.mem_names_outline, names_graph h]
  · refine Dependencies.pairs_eq_of_mem_iff a.dependencies.pairs_ordered fun x y => ?_
    rw [Dependencies.mem_pairs_iff, CallGraph.calls_outline, graph,
      (CallGraph.nodes_and_calls_ofDependencies _ _).2]

theorem role_ne_undefined_layout (h : run config tree paths = .ok a) (all : Bool) :
    ∀ row ∈ (a.layout all).nodes, row.role ≠ .undefined := by
  refine Layout.role_ne_undefined_of_nodes (fun node hnode => ?_) all
  rw [nodes_graph h, List.mem_map] at hnode
  obtain ⟨name, -, rfl⟩ := hnode
  rfl

/-- What a run finds agrees in all its tables. The callers of the dependencies are the registered
functions. The callees of a function are, in strict order, the registered names among the targets
of the literal that its last definition in the files gives, the function itself included. The
nodes of the graph are the registered functions, all defined. The layout of all functions has one
row for each of them in the order of their names, none of them undefined, and its calls are the
pairs of the dependencies, in their order and each once. -/
theorem tables_of_run (h : run config tree paths = .ok a) :
    a.dependencies.entries.map Prod.fst = a.registry.names ∧
    (∀ f ∈ a.registry.names, ∃ d callees,
      a.registry.get? f = some d ∧
      (Definition.named f (a.files.flatMap SourceFile.found)).getLast? = some d ∧
      a.dependencies.get? f = some callees ∧ callees.toList.Pairwise (· < ·) ∧
      ∀ c, c ∈ callees.toList ↔
        c ∈ d.literal.targets (.ofList config.higherOrder) ∧ c ∈ a.registry.names) ∧
    a.graph.nodes = a.registry.names.map (⟨·, true⟩) ∧
    a.registry.names.Pairwise (· < ·) ∧
    (a.layout true).nodes.toList.map NodeRow.id = a.registry.names ∧
    (∀ row ∈ (a.layout true).nodes, row.role ≠ .undefined) ∧
    (a.layout true).edges.map (fun row => (row.caller, row.callee)) = a.dependencies.pairs ∧
    a.dependencies.pairs.Nodup ∧ (a.layout true).edges.length = a.dependencies.callCount := by
  obtain ⟨hids, hends⟩ := rows_layout h
  refine ⟨?_, fun f hf => ?_, nodes_graph h, a.registry.names_ordered, hids,
    role_ne_undefined_layout h true, hends, ?_, ?_⟩
  · rw [dependencies_run h, Registry.callers_resolve]
  · obtain ⟨d, hd⟩ := Registry.mem_names_iff_exists.mp hf
    have hlast := (records_run h).get?_eq f
    have hcallees := Registry.get?_resolve a.registry
      (FunctionLiteral.targets (.ofList config.higherOrder)) f
    rw [← dependencies_run h, hd, Option.map_some] at hcallees
    refine ⟨d, _, hd, hlast ▸ hd, hcallees, Dependencies.toList_ordered _, fun c => ?_⟩
    simp [Registry.contains_iff]
  · exact a.dependencies.pairs_nodup
  · rw [← Dependencies.length_pairs, ← hends, List.length_map]

/-- The theorem applies to a file with a function that calls itself and hands another one to
`lapply`, and with a call of a name that is not registered. -/
theorem tables_of_run_of_text :
    let tree := FileTree.ofTexts
      [("a.R", "f <- function(n) if (n > 0) f(n - 1) else lapply(n, g)\ng <- function(x) h(x)\n")]
    ∃ a, run {} tree [⟨"a.R"⟩] = .ok a ∧ a.registry.names = ["f", "g"] ∧
      a.graph.nodes = [⟨"f", true⟩, ⟨"g", true⟩] ∧ a.dependencies.pairs = [("f", "f"), ("f", "g")] ∧
      (a.layout true).edges.length = a.dependencies.callCount := by
  intro tree
  obtain ⟨a, hrun, hnames, hpairs⟩ : ∃ a, run {} tree [⟨"a.R"⟩] = .ok a ∧
      a.registry.names = ["f", "g"] ∧ a.dependencies.pairs = [("f", "f"), ("f", "g")] := by
    refine ⟨_, run_eq_ok_iff.mpr ⟨by decide, by decide +kernel, rfl⟩, ?_, ?_⟩ <;> decide +kernel
  obtain ⟨-, -, hnodes, -, -, -, -, -, hlength⟩ := tables_of_run hrun
  rw [hnames] at hnodes
  exact ⟨a, hrun, hnames, hnodes, hpairs, hlength⟩

end Analysis

end CallAtlas
