import CallAtlas.Proofs.Layout.Rows

/-!
# The center of a layout

The degree of a name in a graph counts the edges that lead to and from its node. No two edges of
a graph have the same ends, so this is the degree in the outline of the graph (`degree_outline`).
Of the names in strict order, the center is the first with the greatest degree. That is the least
of the names with the greatest degree (`Outline.firstGreatest_iff_isLeast`), in whatever order they
were added. The center is always listed, and it alone has the role of the center and no distance
from it (`role_eq_center_iff`, `distance_eq_zero_iff`).
-/

namespace CallAtlas

namespace CallGraph

variable {g : CallGraph} {a : String}

/-- The number of edges to and from the node with a name. An edge from the node to itself counts
twice. -/
def degree (g : CallGraph) (name : String) : ℕ :=
  g.edges.countP (fun edge => g.nameAt? edge.2 = some name) +
    g.edges.countP (fun edge => g.nameAt? edge.1 = some name)

theorem ends?_eq_some_iff {edge : ℕ × ℕ} {x y : String} :
    g.ends? edge = some (x, y) ↔ g.nameAt? edge.1 = some x ∧ g.nameAt? edge.2 = some y := by
  simp [ends?, Option.bind_eq_some_iff]

theorem nodup_ends (g : CallGraph) : (g.edges.filterMap g.ends?).Nodup := by
  refine g.nodup_edges.filterMap ?_
  rintro edge edge' ⟨x, y⟩ hedge hedge'
  obtain ⟨hi, hj⟩ := ends?_eq_some_iff.mp hedge
  obtain ⟨hi', hj'⟩ := ends?_eq_some_iff.mp hedge'
  rw [← index?_eq_some_iff] at hi hj hi' hj'
  exact Prod.ext (Option.some.inj (hi.symm.trans hi')) (Option.some.inj (hj.symm.trans hj'))

/-- The calls of the outline are the edges, each once. -/
theorem perm_pairs (g : CallGraph) :
    g.outline.calls.pairs.Perm (g.edges.filterMap g.ends?) := by
  refine (List.perm_ext_iff_of_nodup g.outline.calls.pairs_nodup g.nodup_ends).mpr ?_
  rintro ⟨x, y⟩
  rw [Dependencies.mem_pairs_iff, calls_outline, mem_ends_iff]

theorem exists_ends {edge : ℕ × ℕ} (hedge : edge ∈ g.edges) :
    ∃ x y, g.nameAt? edge.1 = some x ∧ g.nameAt? edge.2 = some y := by
  obtain ⟨hi, hj⟩ := g.ends_lt edge hedge
  obtain ⟨x, hx⟩ := exists_nameAt? hi
  obtain ⟨y, hy⟩ := exists_nameAt? hj
  exact ⟨x, y, hx, hy⟩

theorem degree_outline (g : CallGraph) (a : String) : g.outline.degree a = g.degree a := by
  have hin : g.outline.inDegree a =
      g.edges.countP (fun edge => g.nameAt? edge.2 = some a) := by
    rw [Outline.inDegree, g.perm_pairs.countP_eq, List.countP_filterMap]
    refine List.countP_congr fun edge hedge => ?_
    obtain ⟨x, y, hx, hy⟩ := exists_ends hedge
    simp [ends?_eq_some_iff.mpr ⟨hx, hy⟩, hy]
  have hout : g.outline.outDegree a =
      g.edges.countP (fun edge => g.nameAt? edge.1 = some a) := by
    rw [Outline.outDegree, g.perm_pairs.countP_eq, List.countP_filterMap]
    refine List.countP_congr fun edge hedge => ?_
    obtain ⟨x, y, hx, hy⟩ := exists_ends hedge
    simp [ends?_eq_some_iff.mpr ⟨hx, hy⟩, hx]
  rw [Outline.degree, hin, hout, degree]

end CallGraph

namespace Outline

variable {measure : String → ℕ} {l : List String} {c : String}

theorem FirstGreatest.isLeast (hl : l.Pairwise (· < ·)) (h : FirstGreatest measure l c) :
    IsLeast {x | x ∈ l ∧ ∀ y ∈ l, measure y ≤ measure x} c := by
  refine ⟨⟨h.mem, fun y hy => h.le hy⟩, ?_⟩
  rintro x ⟨hx, hgreatest⟩
  have hc := hgreatest c h.mem
  obtain ⟨before, after, rfl, hbefore, -⟩ := h
  rw [List.mem_append, List.mem_cons] at hx
  rcases hx with hx | rfl | hx
  · exact absurd hc (not_le.mpr (hbefore x hx))
  · exact le_rfl
  · exact (List.rel_of_pairwise_cons (List.pairwise_append.mp hl).2.1 hx).le

/-- In a list in strict order, the first element that a measure is greatest at is the least of
them. -/
theorem firstGreatest_iff_isLeast (hl : l.Pairwise (· < ·)) :
    FirstGreatest measure l c ↔ IsLeast {x | x ∈ l ∧ ∀ y ∈ l, measure y ≤ measure x} c := by
  refine ⟨FirstGreatest.isLeast hl, fun h => ?_⟩
  obtain ⟨d, hd⟩ : ∃ d, firstGreatest measure l = some d := by
    refine Option.ne_none_iff_exists'.mp fun hnone => ?_
    have hc := h.1.1
    rw [(firstGreatest_eq_none_iff measure).mp hnone] at hc
    cases hc
  have hd := FirstGreatest.of_eq_some hd
  rwa [h.unique (hd.isLeast hl)]

end Outline

namespace Layout

variable {g : CallGraph} {c : String}

theorem center_compute (all : Bool) (g : CallGraph) :
    (compute all g).center = g.outline.center? := by
  cases h : g.outline.center? <;> simp only [compute, h] <;> rfl

theorem center_eq_some_iff (all : Bool) : (compute all g).center = some c ↔
    IsLeast {x | x ∈ g.names ∧ ∀ y ∈ g.names, g.degree y ≤ g.degree x} c := by
  rw [center_compute, Outline.center?_eq_some_iff,
    Outline.firstGreatest_iff_isLeast g.outline.names_ordered]
  simp only [CallGraph.mem_names_outline, CallGraph.degree_outline]

theorem center_eq_none_iff (all : Bool) : (compute all g).center = none ↔ g.nodes = [] := by
  rcases compute_cases all g with ⟨hnodes, hempty⟩ | ⟨c, -, hc, hlayout⟩
  · simp [hempty, hnodes, empty]
  · rw [CallGraph.mem_names_outline, CallGraph.names] at hc
    have hne : g.nodes ≠ [] := fun hnil => by simp [hnil] at hc
    simp [hlayout, hne, Survey.layout, Outline.survey]

/-! ## The row of the center -/

theorem role_eq_center_iff {o : Outline} {all : Bool} {row : NodeRow}
    (hrow : row ∈ ((o.survey c).layout all).nodes) : row.role = .center ↔ row.id = c := by
  obtain ⟨-, isDefined, -, hrow⟩ := Survey.mem_nodes_iff.mp hrow
  have hrole : row.role = roleOf (row.id == c) row.inCycle isDefined := by
    rw [hrow]
    rfl
  rw [hrole, roleOf]
  by_cases hid : row.id = c
  · simp [hid]
  · simp only [beq_iff_eq, hid, if_false, iff_false]
    split_ifs <;> simp

theorem distance_eq_zero_iff {o : Outline} (hclosed : o.Closed) (hc : c ∈ o.names) {all : Bool}
    {row : NodeRow} (hrow : row ∈ ((o.survey c).layout all).nodes) :
    row.distance = .hops 0 ↔ row.id = c := by
  obtain ⟨-, isDefined, hget, hrow⟩ := Survey.mem_nodes_iff.mp hrow
  have hdistance : row.distance = (o.survey c).distance (o.rank row.id) := by
    rw [hrow]
    rfl
  rw [hdistance, Survey.distance_eq_hops_iff hclosed hc (Outline.mem_names_iff.mpr ⟨_, hget⟩)]
  constructor
  · rintro ⟨hzero, -⟩
    cases hzero
    rfl
  · rintro rfl
    exact ⟨Steps.zero _, fun _ _ => Nat.zero_le _⟩

/-- The center is connected with itself, so every layout lists it. -/
theorem lists_center (hc : c ∈ g.outline.names) (all : Bool) :
    ((g.outline.survey c).layout all).Lists c := by
  refine lists_layout_iff.mpr ⟨hc, ?_⟩
  cases all with
  | false =>
    rw [Survey.shows_false_iff (CallGraph.closed_outline g) hc]
    exact ⟨0, Steps.zero c⟩
  | true => rfl

/-- A property of the rows that one name alone has holds of one row. -/
theorem Depicts.filter_eq_singleton {l : Layout} (h : l.Depicts g) {row : NodeRow}
    (hrow : row ∈ l.nodes) {p : NodeRow → Bool}
    (hp : ∀ row' ∈ l.nodes, p row' ↔ row'.id = row.id) : l.nodes.toList.filter p = [row] := by
  have hnodup : (l.nodes.toList.filter p).Nodup := (List.Nodup.of_map _ h.nodup_ids).filter _
  refine List.perm_singleton.mp
    ((List.perm_ext_iff_of_nodup hnodup (List.nodup_singleton row)).mpr fun row' => ?_)
  rw [List.mem_filter, Array.mem_toList_iff, List.mem_singleton]
  constructor
  · rintro ⟨hrow', hp'⟩
    exact h.eq_of_id_eq hrow' hrow ((hp row' hrow').mp hp')
  · rintro rfl
    exact ⟨hrow, (hp row' hrow).mpr rfl⟩

/-- A layout has no center exactly if its graph has no nodes. The center is the least of the names
that have the greatest degree in the whole graph, whatever the order they were added in. One of the
rows that are listed has the role of the center, and one has the distance zero; both are the row
of the center. -/
theorem center_and_row_compute (steps : List CallGraph.Step) (all : Bool) :
    let g := CallGraph.empty.run steps
    let l := compute all g
    (l.center = none ↔ g.nodes = []) ∧
    (∀ c, l.center = some c ↔
      IsLeast {x | x ∈ g.names ∧ ∀ y ∈ g.names, g.degree y ≤ g.degree x} c) ∧
    ∀ c, l.center = some c → ∃ row, row.id = c ∧
      l.nodes.toList.filter (fun row => row.role = .center) = [row] ∧
      l.nodes.toList.filter (fun row => row.distance = .hops 0) = [row] := by
  intro g l
  refine ⟨center_eq_none_iff all, fun c => center_eq_some_iff all, fun c hcenter => ?_⟩
  have hcenter : g.outline.center? = some c := by rwa [← center_compute all]
  have hc : c ∈ g.outline.names := (Outline.center?_eq_some_iff.mp hcenter).mem
  have hl : l = (g.outline.survey c).layout all := compute_of_center all hcenter
  obtain ⟨row, hrow, rfl⟩ := lists_center hc all
  have hdepicts := depicts_layout hc all
  refine ⟨row, rfl, ?_, ?_⟩
  · rw [hl]
    refine hdepicts.filter_eq_singleton hrow fun row' hrow' => ?_
    rw [decide_eq_true_iff, role_eq_center_iff hrow']
  · rw [hl]
    refine hdepicts.filter_eq_singleton hrow fun row' hrow' => ?_
    rw [decide_eq_true_iff, distance_eq_zero_iff (CallGraph.closed_outline g) hc hrow']

/-- The theorem applies to a graph with two names of the greatest degree, of which the second was
added first and calls itself. -/
theorem center_and_row_compute_of_calls :
    let g := CallGraph.empty.run [.call "h" "h", .call "f" "g", .call "k" "f", .node "a" true]
    let l := compute false g
    g.degree "h" = 2 ∧ g.degree "f" = 2 ∧ l.center = some "f" ∧
      IsLeast {x | x ∈ g.names ∧ ∀ y ∈ g.names, g.degree y ≤ g.degree x} "f" ∧
      ∃ row, row.id = "f" ∧ l.nodes.toList.filter (fun row => row.role = .center) = [row] ∧
        l.nodes.toList.filter (fun row => row.distance = .hops 0) = [row] := by
  intro g l
  obtain ⟨-, hleast, hrow⟩ := center_and_row_compute
    [.call "h" "h", .call "f" "g", .call "k" "f", .node "a" true] false
  have hcenter : l.center = some "f" := by decide +kernel
  exact ⟨by decide, by decide, hcenter, (hleast "f").mp hcenter, hrow "f" hcenter⟩

end Layout

end CallAtlas
