import CallAtlas.Proofs.CallGraph

/-!
# What steps add to a call graph

The nodes of a graph are determined by the names and by which of them are defined
(`mem_nodes_iff`), and a node that is added changes no call (`calls_addNode`).

A step that adds a node, or a call with its ends, adds the same to every graph
(`mem_names_step`, `defines_step`, `calls_step`). So what a run of such steps leads to depends
on which steps it takes, and not on their order or on how often it takes them
(`mem_names_run`, `defines_run`, `calls_run`).
-/

namespace CallAtlas

namespace CallGraph

variable {g : CallGraph} {name x y : String} {isDefined : Bool}

/-- The function is there and its definition is known. -/
def Defines (g : CallGraph) (name : String) : Prop :=
  ⟨name, true⟩ ∈ g.nodes

/-- Nodes are determined by their names and by which names are defined. -/
theorem mem_nodes_iff :
    ⟨x, isDefined⟩ ∈ g.nodes ↔ x ∈ g.names ∧ (isDefined = true ↔ g.Defines x) := by
  have hsame : ∀ {d d' : Bool}, ⟨x, d⟩ ∈ g.nodes → ⟨x, d'⟩ ∈ g.nodes → d = d' := by
    intro d d' hd hd'
    have heq := List.inj_on_of_nodup_map g.nodup_names hd hd' rfl
    exact congrArg CallNode.isDefined heq
  constructor
  · intro hx
    refine ⟨List.mem_map_of_mem hx, ?_, fun hdefines => hsame hx hdefines⟩
    rintro rfl
    exact hx
  · rintro ⟨hx, hiff⟩
    obtain ⟨⟨_, d⟩, hnode, rfl⟩ := List.mem_map.mp hx
    have hd : d = isDefined := by
      rw [Bool.eq_iff_iff, hiff]
      exact ⟨fun hd => hd ▸ hnode, fun hdefines => hsame hnode hdefines⟩
    rwa [← hd]

/-! ## Adding nodes -/

theorem edges_addNode (g : CallGraph) (name : String) (isDefined : Bool) :
    (g.addNode name isDefined).2.edges = g.edges := by
  cases hi : g.index? name with
  | some i =>
    rw [addNode_of_index? hi]
    rfl
  | none =>
    rw [addNode_of_index?_eq_none hi]
    rfl

theorem prefix_names_addNode (g : CallGraph) (name : String) (isDefined : Bool) :
    g.names <+: (g.addNode name isDefined).2.names := by
  rw [names_addNode]
  split_ifs
  · exact List.prefix_refl _
  · exact List.prefix_append _ _

theorem mem_names_addNode :
    x ∈ (g.addNode name isDefined).2.names ↔ x ∈ g.names ∨ x = name := by
  rw [names_addNode]
  split_ifs with hmem
  · constructor
    · exact Or.inl
    · rintro (hx | rfl)
      · exact hx
      · exact hmem
  · simp

/-- The place that adding a node answers with is that of the name. -/
theorem nameAt?_addNode (g : CallGraph) (name : String) (isDefined : Bool) :
    (g.addNode name isDefined).2.nameAt? (g.addNode name isDefined).1 = some name := by
  cases hi : g.index? name with
  | some i =>
    rw [addNode_of_index? hi, nameAt?_eq, names_define, ← nameAt?_eq, nameAt?_of_index? hi]
  | none =>
    rw [addNode_of_index?_eq_none hi]
    simp [nameAt?, pushNode]

/-- A node becomes defined only by its own name, and stays defined. -/
theorem defines_addNode :
    (g.addNode name isDefined).2.Defines x ↔ g.Defines x ∨ x = name ∧ isDefined = true := by
  cases hi : g.index? name with
  | none =>
    rw [addNode_of_index?_eq_none hi]
    simp [Defines, pushNode, eq_comm]
  | some i =>
    rw [addNode_of_index? hi]
    obtain ⟨node, hnode, hname⟩ := Option.map_eq_some_iff.mp (nameAt?_of_index? hi)
    simp only [Defines, define, List.mem_iff_getElem?, List.getElem?_modify]
    constructor
    · rintro ⟨k, hk⟩
      by_cases hik : i = k
      · subst hik
        simp only [hnode, if_true, Option.map_eq_map, Option.map_some, Option.some.injEq,
          CallNode.mk.injEq, Bool.or_eq_true] at hk
        obtain ⟨rfl, hd | hd⟩ := hk
        · exact Or.inl ⟨i, by rw [hnode, ← hd]⟩
        · exact Or.inr ⟨hname, hd⟩
      · exact Or.inl ⟨k, by simpa [hik] using hk⟩
    · rintro (⟨k, hk⟩ | ⟨rfl, rfl⟩)
      · refine ⟨k, ?_⟩
        by_cases hik : i = k <;> simp [hik, hk]
      · exact ⟨i, by simp [hnode, hname]⟩

/-- A name stays at its place when a node is added. -/
theorem nameAt?_addNode_of_lt {i : ℕ} (hi : i < g.nodes.length) :
    (g.addNode name isDefined).2.nameAt? i = g.nameAt? i := by
  obtain ⟨rest, hnames⟩ := prefix_names_addNode g name isDefined
  rw [nameAt?_eq, nameAt?_eq, ← hnames, List.getElem?_append_left (by rwa [names, List.length_map])]

/-- A node that is added changes no call. -/
theorem calls_addNode : (g.addNode name isDefined).2.Calls x y ↔ g.Calls x y := by
  unfold Calls
  rw [edges_addNode]
  refine exists_congr fun edge => and_congr_right fun hedge => ?_
  obtain ⟨hcaller, hcallee⟩ := g.ends_lt edge hedge
  rw [nameAt?_addNode_of_lt hcaller, nameAt?_addNode_of_lt hcallee]

/-! ## Adding calls -/

/-- Adding a call adds its ends and then an edge between their places. -/
theorem addCall_eq_connect (g : CallGraph) (caller callee : String) :
    let h := ((g.addNode caller false).2.addNode callee false).2
    ∃ i j, ∃ (hi : i < h.nodes.length) (hj : j < h.nodes.length),
      h.nameAt? i = some caller ∧ h.nameAt? j = some callee ∧
      g.addCall caller callee = h.connect i j hi hj := by
  refine ⟨_, _, Nat.lt_of_lt_of_le lt_length_addNode length_le_length_addNode, lt_length_addNode,
    ?_, nameAt?_addNode _ callee false, rfl⟩
  rw [nameAt?_addNode_of_lt lt_length_addNode, nameAt?_addNode]

theorem mem_names_addCall {caller callee : String} :
    x ∈ (g.addCall caller callee).2.names ↔ x ∈ g.names ∨ x = caller ∨ x = callee := by
  obtain ⟨i, j, _, _, -, -, heq⟩ := addCall_eq_connect g caller callee
  rw [heq, names, nodes_connect, ← names, mem_names_addNode, mem_names_addNode, or_assoc]

theorem defines_addCall {caller callee : String} :
    (g.addCall caller callee).2.Defines x ↔ g.Defines x := by
  obtain ⟨i, j, _, _, -, -, heq⟩ := addCall_eq_connect g caller callee
  rw [heq, Defines, nodes_connect, ← Defines, defines_addNode, defines_addNode]
  simp

theorem calls_addCall {caller callee : String} :
    (g.addCall caller callee).2.Calls x y ↔ g.Calls x y ∨ x = caller ∧ y = callee := by
  obtain ⟨i, j, _, _, hi, hj, heq⟩ := addCall_eq_connect g caller callee
  rw [heq, calls_connect, hi, hj, calls_addNode, calls_addNode]
  simp [eq_comm]

/-! ## Steps that add nodes and calls -/

namespace Step

/-- The step adds a node, or a call with its ends, to every graph. -/
def IsAddition : Step → Prop
  | .node _ _ | .call _ _ => True
  | .edge _ _ | .index _ => False

/-- The step is about the function. -/
def Names : Step → String → Prop
  | .node name _, x | .index name, x => x = name
  | .edge caller callee, x | .call caller callee, x => x = caller ∨ x = callee

end Step

theorem mem_names_step : ∀ {s : Step}, s.IsAddition →
    (x ∈ (g.step s).2.names ↔ x ∈ g.names ∨ s.Names x)
  | .node _ _, _ => mem_names_addNode
  | .call _ _, _ => mem_names_addCall

theorem defines_step : ∀ {s : Step}, s.IsAddition →
    ((g.step s).2.Defines x ↔ g.Defines x ∨ s = .node x true)
  | .node name isDefined, _ => by
    refine defines_addNode.trans (or_congr_right ?_)
    rw [Step.node.injEq, eq_comm]
  | .call _ _, _ => by
    refine defines_addCall.trans ?_
    simp

theorem calls_step : ∀ {s : Step}, s.IsAddition →
    ((g.step s).2.Calls x y ↔ g.Calls x y ∨ s = .call x y)
  | .node name isDefined, _ => by
    refine calls_addNode.trans ?_
    simp
  | .call caller callee, _ => by
    refine calls_addCall.trans (or_congr_right ?_)
    rw [Step.call.injEq, eq_comm, eq_comm (a := y)]

theorem mem_names_run : ∀ {steps : List Step} {g : CallGraph}, (∀ s ∈ steps, s.IsAddition) →
    (x ∈ (g.run steps).names ↔ x ∈ g.names ∨ ∃ s ∈ steps, s.Names x)
  | [], g, _ => by simp [run]
  | s :: steps, g, h => by
    obtain ⟨hs, hsteps⟩ := List.forall_mem_cons.mp h
    rw [List.exists_mem_cons_iff, ← or_assoc, ← mem_names_step hs]
    exact mem_names_run hsteps

theorem defines_run : ∀ {steps : List Step} {g : CallGraph}, (∀ s ∈ steps, s.IsAddition) →
    ((g.run steps).Defines x ↔ g.Defines x ∨ .node x true ∈ steps)
  | [], g, _ => by simp [run]
  | s :: steps, g, h => by
    obtain ⟨hs, hsteps⟩ := List.forall_mem_cons.mp h
    rw [List.mem_cons, ← or_assoc, eq_comm, ← defines_step hs]
    exact defines_run hsteps

theorem calls_run : ∀ {steps : List Step} {g : CallGraph}, (∀ s ∈ steps, s.IsAddition) →
    ((g.run steps).Calls x y ↔ g.Calls x y ∨ .call x y ∈ steps)
  | [], g, _ => by simp [run]
  | s :: steps, g, h => by
    obtain ⟨hs, hsteps⟩ := List.forall_mem_cons.mp h
    rw [List.mem_cons, ← or_assoc, eq_comm, ← calls_step hs]
    exact calls_run hsteps

/-- Runs that take the same steps, in whatever order and however often, lead to the same nodes
and calls. -/
theorem run_iff_of_mem_iff {steps steps' : List Step} (h : ∀ s ∈ steps, s.IsAddition)
    (hmem : ∀ s, s ∈ steps ↔ s ∈ steps') :
    (∀ node, node ∈ (empty.run steps).nodes ↔ node ∈ (empty.run steps').nodes) ∧
      ∀ x y, (empty.run steps).Calls x y ↔ (empty.run steps').Calls x y := by
  have h' : ∀ s ∈ steps', s.IsAddition := fun s hs => h s ((hmem s).mpr hs)
  refine ⟨fun ⟨x, isDefined⟩ => ?_, fun x y => ?_⟩
  · rw [mem_nodes_iff, mem_nodes_iff, mem_names_run h, mem_names_run h', defines_run h,
      defines_run h']
    simp only [hmem]
  · rw [calls_run h, calls_run h', hmem]

end CallGraph

end CallAtlas
