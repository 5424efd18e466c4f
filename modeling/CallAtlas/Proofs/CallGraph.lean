import Mathlib.Data.List.Nodup
import CallAtlas.CallGraph

/-!
# Names and calls of a call graph

The names of a graph are those of its nodes, and its calls are the pairs of names at the ends
of its edges. No two nodes have one name (`nodup_names`), since the map of places finds each of
them at one place. Each way of building says what it does to names and calls (`names_addNode`,
`calls_connect`, ...). New nodes and new edges are put at the end and answered with their places
(`answers_nodes`, `answers_edges`).
-/

namespace CallAtlas

namespace CallGraph

variable {g : CallGraph} {name x y : String} {i j : ℕ}

/-- The names of the nodes, in the order they were added. -/
def names (g : CallGraph) : List String :=
  g.nodes.map CallNode.name

/-- An edge leads from the node with the first name to the one with the second. -/
def Calls (g : CallGraph) (caller callee : String) : Prop :=
  ∃ edge ∈ g.edges, g.nameAt? edge.1 = some caller ∧ g.nameAt? edge.2 = some callee

/-! ## Places and names -/

theorem nameAt?_eq (g : CallGraph) (i : ℕ) : g.nameAt? i = g.names[i]? := by
  rw [nameAt?, names, List.getElem?_map]

theorem mem_names_of_nameAt? (h : g.nameAt? i = some name) : name ∈ g.names := by
  rw [nameAt?_eq] at h
  exact List.mem_of_getElem? h

theorem nameAt?_of_index? (h : g.index? name = some i) : g.nameAt? i = some name :=
  index?_eq_some_iff.mp h

theorem exists_index? (h : name ∈ g.names) : ∃ i, g.index? name = some i := by
  obtain ⟨i, hi⟩ := List.mem_iff_getElem?.mp h
  exact ⟨i, index?_eq_some_iff.mpr (nameAt?_eq g i ▸ hi)⟩

theorem index?_eq_none_iff : g.index? name = none ↔ name ∉ g.names := by
  constructor
  · intro h hmem
    obtain ⟨i, hi⟩ := exists_index? hmem
    cases h.symm.trans hi
  · refine fun h => Option.eq_none_iff_forall_ne_some.mpr fun i hi => ?_
    exact h (mem_names_of_nameAt? (nameAt?_of_index? hi))

/-- A name is found at one place, so no two nodes have it. -/
theorem nodup_names (g : CallGraph) : g.names.Nodup := by
  refine List.nodup_iff_getElem?_ne_getElem?.mpr fun i j hij hj heq => ?_
  have hname : g.nameAt? j = some g.names[j] := by rw [nameAt?_eq, List.getElem?_eq_getElem hj]
  have hsame : g.nameAt? i = some g.names[j] := by rw [nameAt?_eq, heq, ← nameAt?_eq, hname]
  have hplace := (index?_eq_some_iff.mpr hsame).symm.trans (index?_eq_some_iff.mpr hname)
  exact Nat.ne_of_lt hij (Option.some.inj hplace)

theorem exists_nameAt? (h : i < g.nodes.length) : ∃ name, g.nameAt? i = some name :=
  ⟨g.nodes[i].name, by rw [nameAt?, List.getElem?_eq_getElem h, Option.map_some]⟩

theorem mem_names_of_calls (h : g.Calls x y) : x ∈ g.names ∧ y ∈ g.names := by
  obtain ⟨edge, -, hx, hy⟩ := h
  exact ⟨mem_names_of_nameAt? hx, mem_names_of_nameAt? hy⟩

/-! ## Adding nodes and edges -/

/-- Making a node defined keeps its name, and so the map of places. -/
theorem names_define (g : CallGraph) (i : ℕ) (isDefined : Bool) :
    (g.define i isDefined).names = g.names := by
  refine List.ext_getElem? fun k => Option.ext fun name => ?_
  rw [← nameAt?_eq, ← nameAt?_eq, ← index?_eq_some_iff, ← index?_eq_some_iff]
  rfl

/-- A name is added unless it is there already. -/
theorem names_addNode (g : CallGraph) (name : String) (isDefined : Bool) :
    (g.addNode name isDefined).2.names =
      if name ∈ g.names then g.names else g.names ++ [name] := by
  cases hi : g.index? name with
  | some i =>
    rw [addNode_of_index? hi, if_pos (mem_names_of_nameAt? (nameAt?_of_index? hi)), names_define]
  | none =>
    rw [addNode_of_index?_eq_none hi, if_neg (index?_eq_none_iff.mp hi)]
    simp [names, pushNode]

/-- Connecting two nodes finds the edge between them, or puts it at the end. -/
theorem connect_cases (g : CallGraph) (hi : i < g.nodes.length) (hj : j < g.nodes.length) :
    (∃ k, g.edges[k]? = some (i, j) ∧ g.connect i j hi hj = (k, g)) ∨
      ∃ hnew, g.connect i j hi hj = (g.edges.length, g.pushEdge (i, j) ⟨hi, hj⟩ hnew) := by
  unfold connect
  split
  · next k hk =>
    obtain ⟨hlt, hedge, -⟩ := List.findIdx?_eq_some_iff_getElem.mp hk
    exact Or.inl ⟨k, List.getElem?_eq_some_iff.mpr ⟨hlt, of_decide_eq_true hedge⟩, rfl⟩
  · next hnone => exact Or.inr ⟨not_mem_of_findIdx? hnone, rfl⟩

theorem nodes_connect (g : CallGraph) (hi : i < g.nodes.length) (hj : j < g.nodes.length) :
    (g.connect i j hi hj).2.nodes = g.nodes := by
  rcases connect_cases g hi hj with ⟨k, -, heq⟩ | ⟨hnew, heq⟩
  · rw [heq]
  · rw [heq]
    rfl

theorem mem_edges_connect (g : CallGraph) (hi : i < g.nodes.length) (hj : j < g.nodes.length)
    (edge : ℕ × ℕ) : edge ∈ (g.connect i j hi hj).2.edges ↔ edge ∈ g.edges ∨ edge = (i, j) := by
  rcases connect_cases g hi hj with ⟨k, hk, heq⟩ | ⟨hnew, heq⟩
  · rw [heq, or_iff_left_of_imp]
    rintro rfl
    exact List.mem_of_getElem? hk
  · rw [heq]
    simp [pushEdge]

theorem nameAt?_congr {h : CallGraph} (hn : h.nodes = g.nodes) (i : ℕ) :
    h.nameAt? i = g.nameAt? i := by
  rw [nameAt?, nameAt?, hn]

/-- Connecting two nodes adds the call between their names, and no other. -/
theorem calls_connect (g : CallGraph) (hi : i < g.nodes.length) (hj : j < g.nodes.length) :
    (g.connect i j hi hj).2.Calls x y ↔
      g.Calls x y ∨ g.nameAt? i = some x ∧ g.nameAt? j = some y := by
  simp only [Calls, mem_edges_connect, nameAt?_congr (nodes_connect g hi hj)]
  constructor
  · rintro ⟨edge, hmem | rfl, hx, hy⟩
    · exact Or.inl ⟨edge, hmem, hx, hy⟩
    · exact Or.inr ⟨hx, hy⟩
  · rintro (⟨edge, hmem, hx, hy⟩ | ⟨hx, hy⟩)
    · exact ⟨edge, Or.inl hmem, hx, hy⟩
    · exact ⟨(i, j), Or.inr rfl, hx, hy⟩

theorem addEdge_of_index? {caller callee : String} (hi : g.index? caller = some i)
    (hj : g.index? callee = some j) : g.addEdge caller callee =
      (some (g.connect i j (lt_of_index? hi) (lt_of_index? hj)).1,
        (g.connect i j (lt_of_index? hi) (lt_of_index? hj)).2) := by
  unfold addEdge
  split
  · next i' j' hi' hj' =>
    cases hi.symm.trans hi'
    cases hj.symm.trans hj'
    rfl
  · next hno => exact absurd hj (hno i j hi)

theorem addEdge_of_not_mem {caller callee : String}
    (h : caller ∉ g.names ∨ callee ∉ g.names) : g.addEdge caller callee = (none, g) := by
  unfold addEdge
  split
  · next i j hi hj =>
    rcases h with h | h
    · exact absurd (mem_names_of_nameAt? (nameAt?_of_index? hi)) h
    · exact absurd (mem_names_of_nameAt? (nameAt?_of_index? hj)) h
  · rfl

/-- An edge leads between the places of its ends, and if one of them is missing nothing changes. -/
theorem addEdge_cases (g : CallGraph) (caller callee : String) :
    (∃ i j, ∃ (hi : g.index? caller = some i) (hj : g.index? callee = some j),
      (g.addEdge caller callee).2 = (g.connect i j (lt_of_index? hi) (lt_of_index? hj)).2) ∨
    (g.addEdge caller callee).2 = g := by
  by_cases h : caller ∈ g.names ∧ callee ∈ g.names
  · obtain ⟨i, hi⟩ := exists_index? h.1
    obtain ⟨j, hj⟩ := exists_index? h.2
    exact Or.inl ⟨i, j, hi, hj, by rw [addEdge_of_index? hi hj]⟩
  · rw [not_and_or] at h
    exact Or.inr (by rw [addEdge_of_not_mem h])

theorem nodes_addEdge (g : CallGraph) (caller callee : String) :
    (g.addEdge caller callee).2.nodes = g.nodes := by
  rcases addEdge_cases g caller callee with ⟨i, j, hi, hj, heq⟩ | heq
  · rw [heq, nodes_connect]
  · rw [heq]

/-- An edge between two names of the graph adds the call, and changes nothing else. -/
theorem calls_addEdge {caller callee : String} (hr : caller ∈ g.names) (he : callee ∈ g.names) :
    (g.addEdge caller callee).2.Calls x y ↔ g.Calls x y ∨ x = caller ∧ y = callee := by
  obtain ⟨i, hi⟩ := exists_index? hr
  obtain ⟨j, hj⟩ := exists_index? he
  rw [addEdge_of_index? hi hj, calls_connect, nameAt?_of_index? hi, nameAt?_of_index? hj,
    Option.some.injEq, Option.some.injEq, eq_comm, eq_comm (a := callee)]

/-- An edge between two names of the graph that has no such call yet is put at the end. -/
theorem addEdge_of_not_calls {caller callee : String} (hr : caller ∈ g.names)
    (he : callee ∈ g.names) (hnew : ¬g.Calls caller callee) :
    ∃ i j, g.nameAt? i = some caller ∧ g.nameAt? j = some callee ∧
      (g.addEdge caller callee).1 = some g.edges.length ∧
      (g.addEdge caller callee).2.edges = g.edges ++ [(i, j)] := by
  obtain ⟨i, hi⟩ := exists_index? hr
  obtain ⟨j, hj⟩ := exists_index? he
  have hcaller := nameAt?_of_index? hi
  have hcallee := nameAt?_of_index? hj
  refine ⟨i, j, hcaller, hcallee, ?_⟩
  rw [addEdge_of_index? hi hj]
  rcases connect_cases g (lt_of_index? hi) (lt_of_index? hj) with ⟨k, hk, -⟩ | ⟨_, heq⟩
  · exact absurd ⟨(i, j), List.mem_of_getElem? hk, hcaller, hcallee⟩ hnew
  · rw [heq]
    exact ⟨rfl, rfl⟩

/-! ## Runs -/

theorem run_append (g : CallGraph) (steps steps' : List Step) :
    g.run (steps ++ steps') = (g.run steps).run steps' :=
  List.foldl_append

theorem run_cons (g : CallGraph) (s : Step) (steps : List Step) :
    g.run (s :: steps) = (g.step s).2.run steps :=
  rfl

theorem answers_snd : ∀ (steps : List Step) (g : CallGraph), (g.answers steps).2 = g.run steps
  | [], _ => rfl
  | s :: steps, g => answers_snd steps (g.step s).2

theorem answers_cons (g : CallGraph) (s : Step) (steps : List Step) :
    g.answers (s :: steps) = ((g.step s).1 :: ((g.step s).2.answers steps).1,
      ((g.step s).2.answers steps).2) :=
  rfl

theorem answers_append : ∀ (steps steps' : List Step) (g : CallGraph),
    g.answers (steps ++ steps') = ((g.answers steps).1 ++ ((g.run steps).answers steps').1,
      ((g.run steps).answers steps').2)
  | [], _, _ => rfl
  | s :: steps, steps', g => by
    rw [List.cons_append, answers_cons, answers_append steps steps' (g.step s).2]
    rfl

/-- Nodes with new names are put at the end, answered with their places, and no edge changes. -/
theorem answers_nodes : ∀ (nodes : List CallNode) {g : CallGraph},
    (g.names ++ nodes.map CallNode.name).Nodup →
      (g.answers (nodes.map fun node => .node node.name node.isDefined)).1 =
        (List.range' g.nodes.length nodes.length).map some ∧
      (g.run (nodes.map fun node => .node node.name node.isDefined)).nodes = g.nodes ++ nodes ∧
      (g.run (nodes.map fun node => .node node.name node.isDefined)).edges = g.edges
  | [], g, _ => by simp [answers, run]
  | node :: nodes, g, h => by
    rw [List.map_cons, List.append_cons] at h
    have hnew : g.index? node.name = none := by
      rw [List.nodup_append, ← List.concat_eq_append, List.nodup_concat] at h
      exact index?_eq_none_iff.mpr h.1.1
    have hstep : g.step (.node node.name node.isDefined) =
        (some g.nodes.length, g.pushNode node hnew) := by
      rw [step, addNode_of_index?_eq_none hnew]
    obtain ⟨hanswers, hnodes, hedges⟩ := answers_nodes nodes (g := g.pushNode node hnew) (by
      simpa [names, pushNode] using h)
    rw [List.map_cons, answers_cons, run_cons, hstep]
    refine ⟨?_, ?_, hedges⟩
    · rw [hanswers]
      simp [pushNode, List.range'_succ]
    · rw [hnodes]
      simp [pushNode]

/-- Edges between names of the graph add their calls, and no node changes. -/
theorem run_edges : ∀ (calls : List (String × String)) {g : CallGraph},
    (∀ call ∈ calls, call.1 ∈ g.names ∧ call.2 ∈ g.names) →
      let h := g.run (calls.map fun call => .edge call.1 call.2)
      h.nodes = g.nodes ∧ ∀ x y, h.Calls x y ↔ g.Calls x y ∨ (x, y) ∈ calls
  | [], g, _ => by simp [run]
  | (a, b) :: calls, g, h => by
    obtain ⟨hab, hcalls⟩ := List.forall_mem_cons.mp h
    have hnodes := nodes_addEdge g a b
    have hnames : (g.addEdge a b).2.names = g.names := by rw [names, names, hnodes]
    obtain ⟨hn, hc⟩ := run_edges calls (g := (g.addEdge a b).2) (by rwa [hnames])
    refine ⟨hn.trans hnodes, fun x y => ?_⟩
    rw [List.mem_cons, Prod.mk.injEq, ← or_assoc, ← calls_addEdge hab.1 hab.2]
    exact hc x y

/-- Different edges between names of the graph that has none of their calls yet are put at the end
and answered with their places. -/
theorem answers_edges : ∀ (calls : List (String × String)) {g : CallGraph},
    (∀ call ∈ calls, call.1 ∈ g.names ∧ call.2 ∈ g.names) →
    (∀ call ∈ calls, ¬g.Calls call.1 call.2) → calls.Nodup →
      (g.answers (calls.map fun call => .edge call.1 call.2)).1 =
        (List.range' g.edges.length calls.length).map some ∧
      ∃ edges : List (ℕ × ℕ),
        (g.run (calls.map fun call => .edge call.1 call.2)).edges = g.edges ++ edges ∧
        edges.map (fun edge => (g.nameAt? edge.1, g.nameAt? edge.2)) =
          calls.map fun call => (some call.1, some call.2)
  | [], g, _, _, _ => ⟨by simp [answers], [], by simp [run], rfl⟩
  | (a, b) :: calls, g, hends, hnew, hnodup => by
    obtain ⟨hab, hends⟩ := List.forall_mem_cons.mp hends
    obtain ⟨hnewab, hnew⟩ := List.forall_mem_cons.mp hnew
    obtain ⟨hne, hnodup⟩ := List.nodup_cons.mp hnodup
    obtain ⟨i, j, hi, hj, hanswer, hedge⟩ := addEdge_of_not_calls hab.1 hab.2 hnewab
    have hnodes := nodes_addEdge g a b
    have hmissing : ∀ call ∈ calls, ¬(g.addEdge a b).2.Calls call.1 call.2 := by
      intro call hcall hcalls
      rcases (calls_addEdge hab.1 hab.2).mp hcalls with hcalls | ⟨hx, hy⟩
      · exact hnew call hcall hcalls
      · exact hne (Prod.ext hx hy ▸ hcall)
    obtain ⟨hanswers, edges, hedges, hnames⟩ := answers_edges calls (g := (g.addEdge a b).2)
      (by rwa [names, hnodes]) hmissing hnodup
    refine ⟨?_, (i, j) :: edges, ?_, ?_⟩
    · rw [List.map_cons, answers_cons, step, hanswer, hanswers, hedge]
      simp [List.range'_succ]
    · rw [List.map_cons, run_cons, step, hedges, hedge, List.append_assoc, List.singleton_append]
    · simp only [nameAt?_congr hnodes] at hnames
      rw [List.map_cons, List.map_cons, hi, hj, hnames]

end CallGraph

end CallAtlas
