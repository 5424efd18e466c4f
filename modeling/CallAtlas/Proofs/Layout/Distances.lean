import Mathlib.Combinatorics.SimpleGraph.Paths
import CallAtlas.Proofs.Layout

/-!
# The distances of a layout

The undirected graph of a call graph joins two names if one of them calls the other. The number
of links between two functions is the length of a walk in it, up to calls of a function by
itself, which make a number of links greater and no shortest path longer
(`isLeast_steps_iff`). So the distance of a function is the length of a shortest path from the
center, and it is unreachable if there is no path. `distance_and_maxDistance_compute` states
this for the layout of a graph, with the largest distance.
-/

namespace CallAtlas

open SimpleGraph

theorem Steps.cons {α : Type*} {r : α → α → Prop} {k : ℕ} {a b c : α} (hab : r a b)
    (hbc : Steps r k b c) : Steps r (k + 1) a c := by
  induction hbc with
  | zero => exact Steps.succ (Steps.zero a) hab
  | succ _ hcd ih => exact Steps.succ (ih hab) hcd

/-- Sets of numbers have the same least element if one is part of the other and holds a number
below every number of the other. -/
theorem isLeast_iff_of_subset {s t : Set ℕ} (hts : t ⊆ s) (hst : ∀ k ∈ s, ∃ l ∈ t, l ≤ k) (k : ℕ) :
    IsLeast s k ↔ IsLeast t k := by
  constructor
  · rintro ⟨hk, hleast⟩
    obtain ⟨l, hl, hlk⟩ := hst k hk
    rw [le_antisymm (hleast (hts hl)) hlk]
    exact ⟨hl, fun m hm => hlk.trans (hleast (hts hm))⟩
  · rintro ⟨hk, hleast⟩
    refine ⟨hts hk, fun m hm => ?_⟩
    obtain ⟨l, hl, hlm⟩ := hst m hm
    exact (hleast hl).trans hlm

namespace CallGraph

variable {g : CallGraph} {a b : String} {k : ℕ}

/-- The graph with the directions of the calls ignored. -/
def undirected (g : CallGraph) : SimpleGraph String :=
  SimpleGraph.fromRel g.Calls

/-- The lengths of the paths between two names, with the directions of the calls ignored. -/
def pathLengths (g : CallGraph) (a b : String) : Set ℕ :=
  {k | ∃ p : g.undirected.Path a b, (p : g.undirected.Walk a b).length = k}

theorem linked_iff : g.outline.Linked a b ↔ g.Calls a b ∨ g.Calls b a := by
  rw [Outline.Linked, calls_outline, calls_outline]

theorem steps_of_walk : ∀ {a b : String} (p : g.undirected.Walk a b),
    Steps g.outline.Linked p.length a b
  | _, _, .nil => Steps.zero _
  | _, _, .cons h p => Steps.cons (linked_iff.mpr h.2) (steps_of_walk p)

/-- Links between two functions make a walk that is not longer. -/
theorem exists_walk_of_steps (h : Steps g.outline.Linked k a b) :
    ∃ p : g.undirected.Walk a b, p.length ≤ k := by
  induction h with
  | zero => exact ⟨.nil, le_rfl⟩
  | @succ k a b c _ hbc ih =>
    obtain ⟨p, hp⟩ := ih
    by_cases hne : b = c
    · subst hne
      exact ⟨p, hp.trans (Nat.le_succ k)⟩
    · have hadj : g.undirected.Adj b c := ⟨hne, linked_iff.mp hbc⟩
      refine ⟨p.concat hadj, ?_⟩
      rw [Walk.length_concat]
      exact Nat.succ_le_succ hp

theorem exists_path_of_steps (h : Steps g.outline.Linked k a b) :
    ∃ l ∈ g.pathLengths a b, l ≤ k := by
  obtain ⟨p, hp⟩ := exists_walk_of_steps h
  exact ⟨_, ⟨⟨p.bypass, p.bypass_isPath⟩, rfl⟩, p.length_bypass_le_length.trans hp⟩

/-- The least number of links is the length of a shortest path. -/
theorem isLeast_steps_iff (g : CallGraph) (a b : String) (k : ℕ) :
    IsLeast {k | Steps g.outline.Linked k a b} k ↔ IsLeast (g.pathLengths a b) k := by
  refine isLeast_iff_of_subset ?_ (fun k hk => exists_path_of_steps hk) k
  rintro k ⟨p, rfl⟩
  exact steps_of_walk p.1

theorem forall_not_steps_iff (g : CallGraph) (a b : String) :
    (∀ k, ¬Steps g.outline.Linked k a b) ↔ IsEmpty (g.undirected.Path a b) := by
  constructor
  · exact fun h => ⟨fun p => h _ (steps_of_walk p.1)⟩
  · intro h k hk
    obtain ⟨_, ⟨p, -⟩, -⟩ := exists_path_of_steps hk
    exact h.false p

end CallGraph

namespace Layout

variable {g : CallGraph} {c : String}

theorem distance_layout_iff (hc : c ∈ g.outline.names) {row : NodeRow}
    (h : row ∈ ((g.outline.survey c).layout true).nodes) :
    (∀ k, row.distance = .hops k ↔ IsLeast (g.pathLengths c row.id) k) ∧
      (row.distance = .unreachable ↔ IsEmpty (g.undirected.Path c row.id)) := by
  have hclosed := CallGraph.closed_outline g
  have hid := Survey.id_mem_names h
  rw [Survey.distance_of_mem_nodes h]
  constructor
  · intro k
    rw [Survey.distance_eq_hops_iff hclosed hc hid, CallGraph.isLeast_steps_iff]
  · rw [Survey.distance_eq_unreachable_iff hclosed hc hid, CallGraph.forall_not_steps_iff]

theorem mem_hops_iff (l : Layout) (k : ℕ) :
    k ∈ l.nodes.toList.filterMap (fun row => row.distance.hops?) ↔
      ∃ row ∈ l.nodes, row.distance = .hops k := by
  rw [List.mem_filterMap]
  simp only [Array.mem_toList_iff]
  refine exists_congr fun row => and_congr_right fun _ => ?_
  cases row.distance <;> simp [Distance.hops?]

theorem maxDistance_eq_some_iff (l : Layout) (m : ℕ) :
    l.maxDistance = some m ↔ IsGreatest {k | ∃ row ∈ l.nodes, row.distance = .hops k} m := by
  rw [maxDistance, List.max?_eq_some_iff]
  simp only [mem_hops_iff]
  rfl

/-- The numbers of hops of a layout are the lengths of shortest paths from its center. -/
theorem setOf_hops_layout (hc : c ∈ g.outline.names) :
    {k | ∃ row ∈ ((g.outline.survey c).layout true).nodes, row.distance = .hops k} =
      {k | ∃ node ∈ g.nodes, IsLeast (g.pathLengths c node.name) k} := by
  ext k
  constructor
  · rintro ⟨row, hrow, hk⟩
    have hid := CallGraph.mem_names_outline.mp (Survey.id_mem_names hrow)
    obtain ⟨node, hnode, hname⟩ := List.mem_map.mp hid
    exact ⟨node, hnode, by rw [hname]; exact ((distance_layout_iff hc hrow).1 k).mp hk⟩
  · rintro ⟨node, hnode, hk⟩
    have hid := CallGraph.mem_names_outline.mpr (List.mem_map_of_mem hnode)
    obtain ⟨row, ⟨hrow, hname⟩, -⟩ := Survey.existsUnique_row c hid
    exact ⟨row, hrow, ((distance_layout_iff hc hrow).1 k).mpr (by rw [hname]; exact hk)⟩

/-- The center is found, so there is a largest distance. -/
theorem exists_maxDistance (hc : c ∈ g.outline.names) :
    ∃ m, ((g.outline.survey c).layout true).maxDistance = some m := by
  obtain ⟨row, ⟨hrow, hid⟩, -⟩ := Survey.existsUnique_row c hc
  have hzero : row.distance = .hops 0 := by
    refine ((distance_layout_iff hc hrow).1 0).mpr ⟨?_, fun _ _ => Nat.zero_le _⟩
    rw [hid]
    exact ⟨Path.nil, rfl⟩
  have hmem := (mem_hops_iff _ 0).mpr ⟨row, hrow, hzero⟩
  refine Option.ne_none_iff_exists'.mp fun hnone => ?_
  rw [maxDistance, List.max?_eq_none_iff] at hnone
  rw [hnone] at hmem
  cases hmem

/-- In the layout of all functions of a graph with nodes, the distance of a function is the
length of a shortest path between the center and it with the directions of the calls ignored,
and the function is unreachable exactly if there is no such path. The search for the distances
ends with an empty queue, and the largest distance is the length of the longest of the shortest
paths. -/
theorem distance_and_maxDistance_compute (steps : List CallGraph.Step)
    (h : (CallGraph.empty.run steps).nodes ≠ []) :
    let g := CallGraph.empty.run steps
    let l := compute true g
    ∃ center, l.center = some center ∧ center ∈ g.names ∧
      (∀ node ∈ g.nodes, ∃! row, row ∈ l.nodes ∧ row.id = node.name) ∧
      (∀ row ∈ l.nodes, row.id ∈ g.names ∧
        (∀ k, row.distance = .hops k ↔ IsLeast (g.pathLengths center row.id) k) ∧
        (row.distance = .unreachable ↔ IsEmpty (g.undirected.Path center row.id))) ∧
      (g.outline.undirected.search (g.outline.rank center)).queue = [] ∧
      ∃ m, l.maxDistance = some m ∧
        IsGreatest {k | ∃ node ∈ g.nodes, IsLeast (g.pathLengths center node.name) k} m := by
  intro g l
  rcases compute_cases true g with ⟨hnodes, -⟩ | ⟨c, -, hc, hlayout⟩
  · exact absurd hnodes h
  have hl : l = (g.outline.survey c).layout true := hlayout
  rw [hl]
  refine ⟨c, rfl, CallGraph.mem_names_outline.mp hc, ?_, ?_, ?_, ?_⟩
  · intro node hnode
    exact Survey.existsUnique_row c (CallGraph.mem_names_outline.mpr (List.mem_map_of_mem hnode))
  · intro row hrow
    exact ⟨CallGraph.mem_names_outline.mp (Survey.id_mem_names hrow), distance_layout_iff hc hrow⟩
  · exact Adjacency.search_queue _ _
  · obtain ⟨m, hm⟩ := exists_maxDistance hc
    refine ⟨m, hm, ?_⟩
    rwa [maxDistance_eq_some_iff, setOf_hops_layout hc] at hm

/-- The theorem applies to a graph with a cycle, a call of a function by itself, and a function
that nothing leads to. -/
theorem distance_and_maxDistance_compute_of_calls :
    let steps : List CallGraph.Step :=
      [.call "f" "g", .call "g" "f", .call "g" "g", .call "g" "h", .node "k" true]
    let g := CallGraph.empty.run steps
    g.nodes ≠ [] ∧ ∃ center m, (compute true g).center = some center ∧
      (compute true g).maxDistance = some m ∧
        IsGreatest {k | ∃ node ∈ g.nodes, IsLeast (g.pathLengths center node.name) k} m := by
  intro steps g
  have hne : g.nodes ≠ [] := by decide
  obtain ⟨center, hcenter, -, -, -, -, m, hm, hgreatest⟩ :=
    distance_and_maxDistance_compute steps hne
  exact ⟨hne, center, m, hcenter, hm, hgreatest⟩

end Layout

end CallAtlas
