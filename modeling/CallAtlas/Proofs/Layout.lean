import CallAtlas.Proofs.Outline

/-!
# What a survey measures

A survey of an outline around a center relates the ranks of the functions that one or more
calls lead between (`has_reach_iff`), and gives each function the least number of links from
the center to it (`distance_eq_hops_iff`, `distance_eq_unreachable_iff`). The rows of a layout
are those of the functions that are shown, in the order of their names (`nodeRows_eq`). A layout
of all functions has one for each name, and one for each call (`rows_compute_true`).
-/

namespace CallAtlas

namespace Survey

variable {o : Outline} {a b c : String}

/-! ## Measures -/

theorem has_reach_iff (hclosed : o.Closed) (c : String) (ha : a ∈ o.names) (hb : b ∈ o.names) :
    (o.survey c).reach.has (o.rank a) (o.rank b) ↔
      Relation.TransGen o.calls.Calls a b := by
  rw [← (Outline.represents_directed hclosed).transGen_iff ha hb]
  exact Adjacency.has_closure_iff o.directed _ _

theorem distance_eq_hops_iff (hclosed : o.Closed) (hc : c ∈ o.names) (ha : a ∈ o.names) (k : ℕ) :
    (o.survey c).distance (o.rank a) = .hops k ↔ IsLeast {k | Steps o.Linked k c a} k := by
  have hr := Outline.rank_lt ha
  have hdistance : (o.survey c).distance (o.rank a) =
      .ofSteps (o.undirected.distances (o.rank c))[o.rank a] := by
    rw [distance, Vector.getElem?_eq_getElem hr]
    rfl
  have hsteps : {k | Steps o.undirected.Related k (o.rank c) (o.rank a)} =
      {k | Steps o.Linked k c a} :=
    Set.ext fun k => (Outline.represents_undirected hclosed).steps_iff hc ha k
  rw [← hsteps, ← Adjacency.distances_eq_some_iff o.undirected (Outline.rank_lt hc) hr, hdistance]
  cases (o.undirected.distances (o.rank c))[o.rank a] <;> simp [Distance.ofSteps]

/-- A function is unreachable if no number of links leads to it. If one does, the least of them is
its distance. -/
theorem distance_eq_unreachable_iff (hclosed : o.Closed) (hc : c ∈ o.names) (ha : a ∈ o.names) :
    (o.survey c).distance (o.rank a) = .unreachable ↔ ∀ k, ¬Steps o.Linked k c a := by
  constructor
  · intro h k hk
    classical
    have hleast := (distance_eq_hops_iff hclosed hc ha (Nat.find ⟨k, hk⟩)).mpr
      ⟨Nat.find_spec ⟨k, hk⟩, fun l hl => Nat.find_min' _ hl⟩
    rw [h] at hleast
    cases hleast
  · intro h
    cases hd : (o.survey c).distance (o.rank a) with
    | hops k => exact absurd ((distance_eq_hops_iff hclosed hc ha k).mp hd).1 (h k)
    | unreachable => rfl

/-! ## Rows -/

/-- Places in a list are places among the images of its elements, where these are distinct. -/
theorem zipIdx_eq_map_idxOf {α : Type*} (f : α → String) {l : List α} (h : (l.map f).Nodup) :
    l.zipIdx = l.map fun x => (x, (l.map f).idxOf (f x)) := by
  refine List.ext_getElem (by simp) fun i hi _ => ?_
  have hi' : i < (l.map f).length := by simpa using hi
  have hidx := h.idxOf_getElem i hi'
  rw [List.getElem_map] at hidx
  rw [List.getElem_zipIdx, List.getElem_map, hidx, Nat.zero_add]

theorem map_fst_functions (o : Outline) : o.functions.toList.map Prod.fst = o.names :=
  Std.ExtTreeMap.map_fst_toList_eq_keys

theorem nodeRows_eq (s : Survey o) (all : Bool) :
    s.nodeRows all = (o.functions.toList.filter fun entry => s.shows all entry.1).map
      fun entry => s.nodeRow entry.1 entry.2 (o.rank entry.1) := by
  have hnodup : (o.functions.toList.map Prod.fst).Nodup := by
    rw [map_fst_functions]
    exact o.names_nodup
  rw [nodeRows, zipIdx_eq_map_idxOf Prod.fst hnodup, map_fst_functions, List.filter_map,
    List.map_map]
  rfl

theorem mem_nodeRows_iff {s : Survey o} {all : Bool} {row : NodeRow} :
    row ∈ s.nodeRows all ↔ ∃ name isDefined, o.functions[name]? = some isDefined ∧
      s.shows all name ∧ row = s.nodeRow name isDefined (o.rank name) := by
  simp only [nodeRows_eq, List.mem_map, List.mem_filter, Prod.exists,
    Std.ExtTreeMap.mem_toList_iff_getElem?_eq_some]
  constructor
  · rintro ⟨name, isDefined, ⟨hget, hshows⟩, rfl⟩
    exact ⟨name, isDefined, hget, hshows, rfl⟩
  · rintro ⟨name, isDefined, hget, hshows, rfl⟩
    exact ⟨name, isDefined, ⟨hget, hshows⟩, rfl⟩

/-- The rows of a layout are those of the functions that are shown. -/
theorem mem_nodes_iff {s : Survey o} {all : Bool} {row : NodeRow} :
    row ∈ (s.layout all).nodes ↔ s.shows all row.id ∧ ∃ isDefined,
      o.functions[row.id]? = some isDefined ∧ row = s.nodeRow row.id isDefined (o.rank row.id) := by
  rw [layout, List.mem_toArray, mem_nodeRows_iff]
  constructor
  · rintro ⟨name, isDefined, hget, hshows, rfl⟩
    exact ⟨hshows, isDefined, hget, rfl⟩
  · rintro ⟨hshows, isDefined, hget, hrow⟩
    exact ⟨row.id, isDefined, hget, hshows, hrow⟩

/-- A layout of all functions shows each of them. -/
theorem mem_nodes_layout_iff {c : String} {row : NodeRow} :
    row ∈ ((o.survey c).layout true).nodes ↔ ∃ isDefined, o.functions[row.id]? = some isDefined ∧
      row = (o.survey c).nodeRow row.id isDefined (o.rank row.id) :=
  mem_nodes_iff.trans (and_iff_right rfl)

theorem id_mem_names {c : String} {row : NodeRow}
    (h : row ∈ ((o.survey c).layout true).nodes) : row.id ∈ o.names := by
  obtain ⟨isDefined, hget, -⟩ := mem_nodes_layout_iff.mp h
  exact Outline.mem_names_iff.mpr ⟨isDefined, hget⟩

theorem distance_of_mem_nodes {c : String} {row : NodeRow}
    (h : row ∈ ((o.survey c).layout true).nodes) :
    row.distance = (o.survey c).distance (o.rank row.id) := by
  obtain ⟨isDefined, -, hrow⟩ := mem_nodes_layout_iff.mp h
  rw [hrow]
  rfl

/-- Each function has one row. -/
theorem existsUnique_row (c : String) (ha : a ∈ o.names) :
    ∃! row, row ∈ ((o.survey c).layout true).nodes ∧ row.id = a := by
  obtain ⟨isDefined, hget⟩ := Outline.mem_names_iff.mp ha
  refine ⟨(o.survey c).nodeRow a isDefined (o.rank a),
    ⟨mem_nodes_layout_iff.mpr ⟨isDefined, hget, rfl⟩, rfl⟩, ?_⟩
  rintro row ⟨hrow, rfl⟩
  obtain ⟨isDefined', hget', hrow'⟩ := mem_nodes_layout_iff.mp hrow
  rw [hrow', Option.some.inj (hget.symm.trans hget')]
  rfl

/-- The rows are those of the functions that are shown, in the order of their names. -/
theorem map_id_nodeRows (s : Survey o) (all : Bool) :
    (s.nodeRows all).map NodeRow.id = o.names.filter (s.shows all) := by
  rw [nodeRows_eq, List.map_map, ← map_fst_functions, List.filter_map]
  rfl

theorem map_ends_edgeRows (s : Survey o) (all : Bool) :
    (s.edgeRows all).map (fun row => (row.caller, row.callee)) =
      o.calls.pairs.filter fun call => s.shows all call.1 && s.shows all call.2 := by
  rw [edgeRows, List.map_map]
  exact List.map_id _

/-- A function whose definition is known has another role than `undefined`. -/
theorem role_ne_undefined (s : Survey o) (name : String) (i : ℕ) :
    (s.nodeRow name true i).role ≠ .undefined := by
  simp only [nodeRow, Layout.roleOf]
  split_ifs <;> simp

end Survey

namespace Layout

variable {g : CallGraph} {c : String}

theorem compute_of_center (all : Bool) (h : g.outline.center? = some c) :
    compute all g = (g.outline.survey c).layout all := by
  simp only [compute, h]

/-- Only a graph without nodes has no center. -/
theorem compute_cases (all : Bool) (g : CallGraph) :
    g.nodes = [] ∧ compute all g = empty ∨
      ∃ c, g.outline.center? = some c ∧ c ∈ g.outline.names ∧
        compute all g = (g.outline.survey c).layout all := by
  cases h : g.outline.center? with
  | none =>
    have hnames : g.names = [] := by
      refine List.eq_nil_iff_forall_not_mem.mpr fun x hx => ?_
      rw [← CallGraph.mem_names_outline, Outline.center?_eq_none_iff.mp h] at hx
      cases hx
    exact Or.inl ⟨List.map_eq_nil_iff.mp hnames, by simp only [compute, h]⟩
  | some c =>
    exact Or.inr ⟨c, rfl, (Outline.center?_eq_some_iff.mp h).mem, compute_of_center all h⟩

/-- The layout of all functions has a row for each name and for each call, in order. -/
theorem rows_compute_true (g : CallGraph) :
    (compute true g).nodes.toList.map NodeRow.id = g.outline.names ∧
      (compute true g).edges.map (fun row => (row.caller, row.callee)) = g.outline.calls.pairs := by
  rcases compute_cases true g with ⟨hnodes, hempty⟩ | ⟨c, -, -, hlayout⟩
  · have hnames : g.outline.names = [] := by
      refine List.eq_nil_iff_forall_not_mem.mpr fun x hx => ?_
      rw [CallGraph.mem_names_outline, CallGraph.names, hnodes] at hx
      cases hx
    have hpairs : g.outline.calls.pairs = [] := by
      refine List.eq_nil_iff_forall_not_mem.mpr ?_
      rintro ⟨x, y⟩ hxy
      have hx := (CallGraph.closed_outline g x y (Dependencies.mem_pairs_iff.mp hxy)).1
      rw [hnames] at hx
      cases hx
    rw [hempty, hnames, hpairs]
    exact ⟨rfl, rfl⟩
  · have hshows : (g.outline.survey c).shows true = fun _ => true := rfl
    rw [hlayout, Survey.layout, List.toList_toArray, Survey.map_id_nodeRows,
      Survey.map_ends_edgeRows, hshows]
    simp

/-- Where all functions are defined, none has the role `undefined`. -/
theorem role_ne_undefined_of_nodes (h : ∀ node ∈ g.nodes, node.isDefined) (all : Bool) :
    ∀ row ∈ (compute all g).nodes, row.role ≠ .undefined := by
  intro row hrow
  rcases compute_cases all g with ⟨-, hempty⟩ | ⟨c, -, -, hlayout⟩
  · simp [hempty, empty] at hrow
  · rw [hlayout, Survey.layout, List.mem_toArray, Survey.mem_nodeRows_iff] at hrow
    obtain ⟨name, isDefined, hget, -, rfl⟩ := hrow
    have hdefined : isDefined = true := h _ (CallGraph.functions_outline_iff.mp hget)
    rw [hdefined]
    exact Survey.role_ne_undefined _ name _

end Layout

end CallAtlas
