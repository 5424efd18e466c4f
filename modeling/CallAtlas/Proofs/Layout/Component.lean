import CallAtlas.Proofs.Layout.Cycles

/-!
# The component of the center

A component of an outline is a part of it that no call leads into or out of
(`Outline.IsComponent`). Links and calls that start at a function of the component stay in it,
so degrees, numbers of links, reachability and cycles in the component are those of the whole
(`inDegree_eq`, `steps_iff`, `transGen_iff`, `isCycle_iff`), and a center of the whole that lies
in the component is its center (`center?_eq`).

The functions that the center is connected with are a component, and what a layout leaves out
is the rest (`layout_eq`). `compute_eq_compute_isPart` states this for the layouts of graphs.
-/

namespace CallAtlas

open Relation

namespace Outline

variable {o p : Outline} {kept : String → Bool} {a b c : String}

/-- `p` is the part of an outline that holds what is kept, where no call leads between a function
that is kept and one that is not. -/
structure IsComponent (o : Outline) (kept : String → Bool) (p : Outline) : Prop where
  functions : p.functions = o.functions.filter fun name _ => kept name
  calls : ∀ a b, p.calls.Calls a b ↔ o.calls.Calls a b ∧ kept a ∧ kept b
  separate : ∀ a b, o.calls.Calls a b → kept a = kept b

theorem FirstGreatest.filter {measure : String → ℕ} {l : List String}
    (h : FirstGreatest measure l c) (hc : kept c) : FirstGreatest measure (l.filter kept) c := by
  obtain ⟨before, after, rfl, hbefore, hafter⟩ := h
  refine ⟨before.filter kept, after.filter kept, ?_, ?_, ?_⟩
  · rw [List.filter_append, List.filter_cons_of_pos hc]
  · exact fun x hx => hbefore x (List.mem_of_mem_filter hx)
  · exact fun x hx => hafter x (List.mem_of_mem_filter hx)

namespace IsComponent

variable (h : o.IsComponent kept p)

include h

/-! ## Functions and calls -/

theorem names_eq : p.names = o.names.filter kept := by
  rw [← Survey.map_fst_functions, ← Survey.map_fst_functions, h.functions,
    Std.ExtTreeMap.toList_filter, List.filter_map]
  rfl

theorem mem_names_iff : a ∈ p.names ↔ a ∈ o.names ∧ kept a := by
  rw [h.names_eq, List.mem_filter]

theorem closed (hclosed : o.Closed) : p.Closed := by
  intro a b hab
  obtain ⟨hab, ha, hb⟩ := (h.calls a b).mp hab
  obtain ⟨ha', hb'⟩ := hclosed a b hab
  exact ⟨h.mem_names_iff.mpr ⟨ha', ha⟩, h.mem_names_iff.mpr ⟨hb', hb⟩⟩

theorem pairs_eq :
    p.calls.pairs = o.calls.pairs.filter fun call => kept call.1 && kept call.2 := by
  refine Dependencies.pairs_eq_of_mem_iff (o.calls.pairs_ordered.filter _) fun x y => ?_
  rw [List.mem_filter, Dependencies.mem_pairs_iff, h.calls, Bool.and_eq_true]

/-- The calls that meet the functions of the component are all kept. -/
theorem countP_pairs_eq (q : String × String → Bool)
    (hq : ∀ call, q call → kept call.1 ∨ kept call.2) :
    p.calls.pairs.countP q = o.calls.pairs.countP q := by
  rw [h.pairs_eq, List.countP_filter]
  refine List.countP_congr fun call hcall => ?_
  have hsame := h.separate call.1 call.2 (Dependencies.mem_pairs_iff.mp hcall)
  rw [Bool.and_eq_true, and_iff_left_iff_imp, hsame, Bool.and_self]
  intro hcall
  simpa [hsame] using hq call hcall

theorem inDegree_eq (ha : kept a) : p.inDegree a = o.inDegree a := by
  refine h.countP_pairs_eq _ fun call hcall => Or.inr ?_
  rwa [of_decide_eq_true hcall]

theorem outDegree_eq (ha : kept a) : p.outDegree a = o.outDegree a := by
  refine h.countP_pairs_eq _ fun call hcall => Or.inl ?_
  rwa [of_decide_eq_true hcall]

theorem center?_eq (hc : o.center? = some c) (hkept : kept c) : p.center? = some c := by
  have hgreatest := (center?_eq_some_iff.mp hc).filter hkept
  rw [Outline.center?_eq, h.names_eq, ← hgreatest.eq_some]
  refine firstGreatest_congr fun x hx => ?_
  have hx := (List.mem_filter.mp hx).2
  rw [degree, degree, h.inDegree_eq hx, h.outDegree_eq hx]

/-! ## Walks -/

theorem calls_iff (ha : kept a) : p.calls.Calls a b ↔ o.calls.Calls a b := by
  rw [h.calls, and_iff_left_iff_imp]
  intro hab
  exact ⟨ha, h.separate a b hab ▸ ha⟩

theorem linked_iff (ha : kept a) : p.Linked a b ↔ o.Linked a b := by
  refine or_congr (h.calls_iff ha) ?_
  rw [h.calls, and_iff_left_iff_imp]
  intro hba
  exact ⟨(h.separate b a hba).trans ha, ha⟩

theorem kept_of_linked (ha : kept a) (hab : o.Linked a b) : kept b := by
  rcases hab with hab | hba
  · rwa [← h.separate a b hab]
  · rwa [h.separate b a hba]

theorem kept_of_steps {k : ℕ} (ha : kept a) (hab : Steps o.Linked k a b) : kept b := by
  induction hab with
  | zero => exact ha
  | succ _ hbc ih => exact h.kept_of_linked (ih ha) hbc

theorem kept_of_transGen (ha : kept a) (hab : TransGen o.calls.Calls a b) : kept b := by
  induction hab with
  | single hab => exact h.kept_of_linked ha (Or.inl hab)
  | tail _ hbc ih => exact h.kept_of_linked ih (Or.inl hbc)

/-- Links from a function of the component stay in it. -/
theorem steps_iff (ha : kept a) {k : ℕ} : Steps p.Linked k a b ↔ Steps o.Linked k a b := by
  constructor
  · refine Steps.map id fun x y hxy => hxy.imp ?_ ?_
    · exact fun hxy => ((h.calls x y).mp hxy).1
    · exact fun hyx => ((h.calls y x).mp hyx).1
  · intro hab
    induction hab with
    | zero => exact Steps.zero _
    | succ hab hbc ih => exact Steps.succ (ih ha) ((h.linked_iff (h.kept_of_steps ha hab)).mpr hbc)

/-- Calls from a function of the component stay in it. -/
theorem transGen_iff (ha : kept a) :
    TransGen p.calls.Calls a b ↔ TransGen o.calls.Calls a b := by
  constructor
  · exact fun hab => TransGen.mono (fun x y hxy => ((h.calls x y).mp hxy).1) a b hab
  · intro hab
    induction hab with
    | single hab => exact TransGen.single ((h.calls_iff ha).mpr hab)
    | tail hab hbc ih => exact ih.tail ((h.calls_iff (h.kept_of_transGen ha hab)).mpr hbc)

theorem mutual_iff (ha : kept a) : p.Mutual a b ↔ o.Mutual a b := by
  rw [Mutual, Mutual, h.transGen_iff ha]
  exact and_congr_right fun hab => h.transGen_iff (h.kept_of_transGen ha hab)

theorem kept_of_mutual (hab : p.Mutual a b) : kept a := by
  obtain ⟨x, hax, -⟩ := TransGen.head'_iff.mp hab.1
  exact ((h.calls a x).mp hax).2.1

/-- The cycles of the component are the cycles whose members are kept. -/
theorem isCycle_iff {cycle : List String} :
    p.IsCycle cycle ↔ o.IsCycle cycle ∧ ∀ a ∈ cycle, kept a := by
  constructor
  · intro hcycle
    have hkept : ∀ a ∈ cycle, kept a :=
      fun a ha => h.kept_of_mutual ((hcycle.mem_iff ha).mp ha)
    obtain ⟨hordered, a, ha, hmem⟩ := hcycle
    exact ⟨⟨hordered, a, ha, fun b => (hmem b).trans (h.mutual_iff (hkept a ha))⟩, hkept⟩
  · rintro ⟨⟨hordered, a, ha, hmem⟩, hkept⟩
    exact ⟨hordered, a, ha, fun b => (hmem b).trans (h.mutual_iff (hkept a ha)).symm⟩

/-! ## The survey of a component -/

theorem distance_eq (hclosed : o.Closed) (hc : c ∈ p.names) (ha : a ∈ p.names) :
    (p.survey c).distance (p.rank a) = (o.survey c).distance (o.rank a) := by
  obtain ⟨hc', hkept⟩ := h.mem_names_iff.mp hc
  obtain ⟨ha', -⟩ := h.mem_names_iff.mp ha
  cases hd : (o.survey c).distance (o.rank a) with
  | hops k =>
    rw [Survey.distance_eq_hops_iff hclosed hc' ha'] at hd
    rw [Survey.distance_eq_hops_iff (h.closed hclosed) hc ha]
    simpa only [h.steps_iff hkept] using hd
  | unreachable =>
    rw [Survey.distance_eq_unreachable_iff hclosed hc' ha'] at hd
    rw [Survey.distance_eq_unreachable_iff (h.closed hclosed) hc ha]
    simpa only [h.steps_iff hkept] using hd

theorem reach_eq (hclosed : o.Closed) (c : String) (ha : a ∈ p.names) (hb : b ∈ p.names) :
    (p.survey c).reach.has (p.rank a) (p.rank b) =
      (o.survey c).reach.has (o.rank a) (o.rank b) := by
  obtain ⟨ha', hkept⟩ := h.mem_names_iff.mp ha
  obtain ⟨hb', -⟩ := h.mem_names_iff.mp hb
  rw [Bool.eq_iff_iff, Survey.has_reach_iff (h.closed hclosed) c ha hb,
    Survey.has_reach_iff hclosed c ha' hb', h.transGen_iff hkept]

theorem nodeRow_eq (hclosed : o.Closed) (hc : c ∈ p.names) (ha : a ∈ p.names) (isDefined : Bool) :
    (p.survey c).nodeRow a isDefined (p.rank a) = (o.survey c).nodeRow a isDefined (o.rank a) := by
  have hkept := (h.mem_names_iff.mp ha).2
  rw [Survey.nodeRow, Survey.nodeRow, h.distance_eq hclosed hc ha, h.reach_eq hclosed c ha ha,
    h.inDegree_eq hkept, h.outDegree_eq hkept]
  rfl

theorem edgeRow_eq (hclosed : o.Closed) (c : String) (hab : p.calls.Calls a b) :
    (p.survey c).edgeRow a b = (o.survey c).edgeRow a b := by
  obtain ⟨ha, hb⟩ := h.closed hclosed a b hab
  rw [Survey.edgeRow, Survey.edgeRow, h.reach_eq hclosed c hb ha]

theorem nodeRows_eq (hclosed : o.Closed) (hc : c ∈ p.names)
    (hshows : ∀ a, (o.survey c).shows false a = kept a) :
    (p.survey c).nodeRows true = (o.survey c).nodeRows false := by
  have hall : p.functions.toList.filter (fun entry => (p.survey c).shows true entry.1) =
      o.functions.toList.filter fun entry => kept entry.1 := by
    rw [h.functions, Std.ExtTreeMap.toList_filter, List.filter_eq_self]
    simp [Survey.shows]
  rw [Survey.nodeRows_eq, Survey.nodeRows_eq, hall]
  simp only [hshows]
  refine List.map_congr_left fun entry hentry => h.nodeRow_eq hclosed hc ?_ _
  rw [← Survey.map_fst_functions, h.functions, Std.ExtTreeMap.toList_filter]
  exact List.mem_map_of_mem hentry

theorem edgeRows_eq (hclosed : o.Closed) (hshows : ∀ a, (o.survey c).shows false a = kept a) :
    (p.survey c).edgeRows true = (o.survey c).edgeRows false := by
  have hall : p.calls.pairs.filter (fun call =>
      (p.survey c).shows true call.1 && (p.survey c).shows true call.2) = p.calls.pairs := by
    rw [List.filter_eq_self]
    simp [Survey.shows]
  rw [Survey.edgeRows, Survey.edgeRows, hall]
  simp only [hshows, ← h.pairs_eq]
  exact List.map_congr_left fun call hcall =>
    h.edgeRow_eq hclosed c (Dependencies.mem_pairs_iff.mp hcall)

theorem cycles_eq (hclosed : o.Closed) (hshows : ∀ a, (o.survey c).shows false a = kept a) :
    ((p.survey c).layout true).cycles = ((o.survey c).layout false).cycles := by
  refine (Survey.cycles_ordered _ true).eq_of_mem_iff (Survey.cycles_ordered _ false) ?_
  intro cycle
  rw [Survey.mem_cycles_iff (h.closed hclosed), h.isCycle_iff, Survey.layout, List.mem_filter,
    Survey.mem_cyclesOf_iff hclosed]
  simp [hshows]

/-- Where what is shown of the whole is the component, it is shown as in a layout of its own. -/
theorem layout_eq (hclosed : o.Closed) (hc : c ∈ p.names)
    (hshows : ∀ a, (o.survey c).shows false a = kept a) :
    (p.survey c).layout true = (o.survey c).layout false := by
  rw [Survey.layout, Survey.layout, Layout.mk.injEq]
  exact ⟨rfl, congrArg List.toArray (h.nodeRows_eq hclosed hc hshows),
    h.edgeRows_eq hclosed hshows, h.cycles_eq hclosed hshows⟩

end IsComponent

end Outline

namespace Survey

variable {o : Outline} {a b c : String}

theorem distance_of_not_mem (s : Survey o) (h : a ∉ o.names) :
    s.distance (o.rank a) = .unreachable := by
  have hrank : o.rank a = o.size := List.idxOf_eq_length h
  rw [distance, hrank, Vector.getElem?_eq_none le_rfl]
  rfl

theorem mem_names_of_steps (hclosed : o.Closed) (hc : c ∈ o.names) {k : ℕ}
    (h : Steps o.Linked k c a) : a ∈ o.names := by
  cases h with
  | zero => exact hc
  | succ _ hba => exact ((Outline.represents_undirected hclosed).inside _ _ hba).2

/-- What is shown is what the center is connected with. -/
theorem shows_false_iff (hclosed : o.Closed) (hc : c ∈ o.names) :
    (o.survey c).shows false a ↔ ∃ k, Steps o.Linked k c a := by
  have hhops : (o.survey c).shows false a ↔ ¬(o.survey c).distance (o.rank a) = .unreachable := by
    rw [shows, Bool.false_or]
    cases (o.survey c).distance (o.rank a) <;> simp [Distance.hops?]
  rw [hhops]
  by_cases ha : a ∈ o.names
  · rw [distance_eq_unreachable_iff hclosed hc ha, not_forall_not]
  · rw [distance_of_not_mem _ ha]
    simp only [not_true_eq_false, false_iff, not_exists]
    exact fun k hk => ha (mem_names_of_steps hclosed hc hk)

/-- A call leads between functions that are shown, or between such that are not. -/
theorem shows_false_eq (hclosed : o.Closed) (hc : c ∈ o.names) (hab : o.calls.Calls a b) :
    (o.survey c).shows false a = (o.survey c).shows false b := by
  rw [Bool.eq_iff_iff, shows_false_iff hclosed hc, shows_false_iff hclosed hc]
  constructor
  · rintro ⟨k, hk⟩
    exact ⟨k + 1, hk.succ (Or.inl hab)⟩
  · rintro ⟨k, hk⟩
    exact ⟨k + 1, hk.succ (Or.inr hab)⟩

end Survey

namespace CallGraph

variable {g h : CallGraph} {kept : String → Bool}

/-- `h` has the nodes of a graph whose names are kept and the calls between them. -/
structure IsPart (g : CallGraph) (kept : String → Bool) (h : CallGraph) : Prop where
  nodes : ∀ node, node ∈ h.nodes ↔ node ∈ g.nodes ∧ kept node.name
  calls : ∀ a b, h.Calls a b ↔ g.Calls a b ∧ kept a ∧ kept b

theorem IsPart.isComponent (hpart : g.IsPart kept h)
    (hseparate : ∀ a b, g.outline.calls.Calls a b → kept a = kept b) :
    g.outline.IsComponent kept h.outline where
  functions := by
    refine Std.ExtTreeMap.ext_getElem? fun a => Option.ext fun isDefined => ?_
    rw [functions_outline_iff, hpart.nodes, Std.ExtTreeMap.getElem?_filter,
      Option.pfilter_eq_some_iff]
    simp [functions_outline_iff]
  calls a b := by rw [calls_outline, calls_outline, hpart.calls]
  separate := hseparate

/-- The nodes whose names are kept. -/
def keptNodes (g : CallGraph) (kept : String → Bool) : List CallNode :=
  g.nodes.filter fun node => kept node.name

/-- The calls between names that are kept. -/
def keptCalls (g : CallGraph) (kept : String → Bool) : List (String × String) :=
  (g.edges.filterMap g.ends?).filter fun call => kept call.1 && kept call.2

/-- Steps that build the part of a graph that holds what is kept. -/
def partSteps (g : CallGraph) (kept : String → Bool) : List Step :=
  (g.keptNodes kept).map (fun node => .node node.name node.isDefined) ++
    (g.keptCalls kept).map fun call => .edge call.1 call.2

theorem mem_keptCalls_iff {x y : String} :
    (x, y) ∈ g.keptCalls kept ↔ g.Calls x y ∧ kept x ∧ kept y := by
  rw [keptCalls, List.mem_filter, mem_ends_iff, Bool.and_eq_true]

theorem mem_names_keptNodes {x : String} (hx : x ∈ g.names) (hkept : kept x) :
    x ∈ (g.keptNodes kept).map CallNode.name := by
  obtain ⟨node, hnode, rfl⟩ := List.mem_map.mp hx
  exact List.mem_map_of_mem (List.mem_filter.mpr ⟨hnode, hkept⟩)

/-- The first steps put the nodes that are kept. -/
theorem run_keptNodes (g : CallGraph) (kept : String → Bool) :
    let part := empty.run ((g.keptNodes kept).map fun node => .node node.name node.isDefined)
    part.nodes = g.keptNodes kept ∧ part.edges = [] := by
  have hnodup : (empty.names ++ (g.keptNodes kept).map CallNode.name).Nodup :=
    g.nodup_names.sublist (List.filter_sublist.map _)
  exact (answers_nodes _ hnodup).2

theorem isPart_partSteps (g : CallGraph) (kept : String → Bool) :
    g.IsPart kept (empty.run (g.partSteps kept)) := by
  obtain ⟨hkept, hnone⟩ := g.run_keptNodes kept
  rw [partSteps, run_append]
  generalize empty.run ((g.keptNodes kept).map _) = part at hkept hnone ⊢
  have hends : ∀ call ∈ g.keptCalls kept, call.1 ∈ part.names ∧ call.2 ∈ part.names := by
    rintro ⟨x, y⟩ hxy
    obtain ⟨hxy, hx, hy⟩ := mem_keptCalls_iff.mp hxy
    obtain ⟨hx', hy'⟩ := mem_names_of_calls hxy
    rw [names, hkept]
    exact ⟨mem_names_keptNodes hx' hx, mem_names_keptNodes hy' hy⟩
  obtain ⟨hnodes, hcalls⟩ := run_edges (g.keptCalls kept) hends
  refine ⟨fun node => ?_, fun x y => ?_⟩
  · rw [hnodes, hkept, keptNodes, List.mem_filter]
  · rw [hcalls, mem_keptCalls_iff, or_iff_right]
    rintro ⟨edge, hedge, -⟩
    rw [hnone] at hedge
    cases hedge

end CallGraph

namespace Layout

variable {g : CallGraph}

/-- The layout gives the function a number of steps from the center. -/
def connected (l : Layout) (name : String) : Bool :=
  l.nodes.any fun row => row.id = name && row.distance.hops?.isSome

theorem connected_layout (o : Outline) (c : String) :
    ((o.survey c).layout true).connected = (o.survey c).shows false := by
  funext a
  have hrow : ∀ row ∈ ((o.survey c).layout true).nodes, row.id = a →
      row.distance.hops?.isSome = (o.survey c).shows false a := by
    rintro row hrow rfl
    rw [Survey.distance_of_mem_nodes hrow, Survey.shows, Bool.false_or]
  rw [Bool.eq_iff_iff, connected, Array.any_eq_true']
  simp only [Bool.and_eq_true, decide_eq_true_eq]
  constructor
  · rintro ⟨row, hmem, hid, hhops⟩
    rwa [← hrow row hmem hid]
  · intro hshows
    by_cases ha : a ∈ o.names
    · obtain ⟨row, ⟨hmem, hid⟩, -⟩ := Survey.existsUnique_row c ha
      exact ⟨row, hmem, hid, (hrow row hmem hid).trans hshows⟩
    · rw [Survey.shows, Survey.distance_of_not_mem _ ha] at hshows
      cases hshows

theorem compute_of_nodes_eq_nil (all : Bool) (h : g.nodes = []) : compute all g = empty := by
  rcases compute_cases all g with ⟨-, hempty⟩ | ⟨c, -, hc, -⟩
  · exact hempty
  · rw [CallGraph.mem_names_outline, CallGraph.names, h] at hc
    cases hc

/-- The layout of a graph that leaves out what the center is not connected with is the layout of
all functions of a part of the graph. That part holds the nodes that have a number of steps in
the layout of all functions, as they are in the graph, and the calls between them. There are
steps that build it, and all steps that do lead to the same layout. -/
theorem compute_eq_compute_isPart (steps : List CallGraph.Step) :
    let g := CallGraph.empty.run steps
    let kept := (compute true g).connected
    (∃ steps', g.IsPart kept (CallGraph.empty.run steps')) ∧
      ∀ steps', g.IsPart kept (CallGraph.empty.run steps') →
        compute false g = compute true (CallGraph.empty.run steps') := by
  intro g kept
  refine ⟨⟨_, CallGraph.isPart_partSteps g kept⟩, fun steps' hpart => ?_⟩
  rcases compute_cases true g with ⟨hnodes, -⟩ | ⟨c, hcenter, hc, hlayout⟩
  · have hnodes' : (CallGraph.empty.run steps').nodes = [] := by
      refine List.eq_nil_iff_forall_not_mem.mpr fun node hnode => ?_
      have hmem := ((hpart.nodes node).mp hnode).1
      rw [hnodes] at hmem
      cases hmem
    rw [compute_of_nodes_eq_nil false hnodes, compute_of_nodes_eq_nil true hnodes']
  · have hclosed := CallGraph.closed_outline g
    have hkept : kept = (g.outline.survey c).shows false := by
      show (compute true g).connected = _
      rw [hlayout, connected_layout]
    have hcomponent : g.outline.IsComponent kept (CallGraph.empty.run steps').outline := by
      refine hpart.isComponent fun a b hab => ?_
      rw [hkept]
      exact Survey.shows_false_eq hclosed hc hab
    have hkeptc : kept c := by
      rw [hkept, Survey.shows_false_iff hclosed hc]
      exact ⟨0, Steps.zero c⟩
    have hcenter' := hcomponent.center?_eq hcenter hkeptc
    rw [compute_of_center false hcenter, compute_of_center true hcenter']
    exact (hcomponent.layout_eq hclosed (hcomponent.mem_names_iff.mpr ⟨hc, hkeptc⟩)
      fun a => (congrFun hkept a).symm).symm

/-- The theorem applies to a graph with two functions apart from the rest. -/
theorem compute_eq_compute_isPart_of_calls :
    let g := CallGraph.empty.run
      [.call "f" "g", .call "h" "f", .call "g" "g", .node "k" true, .call "k" "l"]
    (compute true g).nodes.size = 5 ∧ (compute false g).nodes.size = 3 ∧
      ∃ steps', g.IsPart (compute true g).connected (CallGraph.empty.run steps') ∧
        compute false g = compute true (CallGraph.empty.run steps') := by
  intro g
  obtain ⟨⟨steps', hpart⟩, hlayout⟩ := compute_eq_compute_isPart
    [.call "f" "g", .call "h" "f", .call "g" "g", .node "k" true, .call "k" "l"]
  exact ⟨by decide +kernel, by decide +kernel, steps', hpart, hlayout steps' hpart⟩

end Layout

end CallAtlas
