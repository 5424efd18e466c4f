import Mathlib.Algebra.BigOperators.Group.Finset.Basic
import Mathlib.Algebra.Ring.Nat
import CallAtlas.Proofs.Layout.Component

/-!
# The rows of a layout

A layout of a graph says the same of the functions it lists, whether or not it leaves out what
the center is not connected with. `Depicts` collects what the rows, edges and cycles of a layout
say of its graph, and `depicts_compute` shows it for both kinds of layout. It rests on the fact
that a call leads between functions that are both listed or both left out (`Survey.shows_eq`).

The degrees of the rows are counted in the whole graph. No edge of a listed function is left out,
so they are the numbers of listed edges, and each such edge is counted at its two ends
(`Depicts.sum_totalDegree`). What a layout of connected functions leaves out of the layout of all
functions is unreachable (`lists_compute_false_iff`). `rows_agree_compute` puts this together.
-/

namespace CallAtlas

open Relation

namespace Survey

variable {o : Outline} {all : Bool} {a b c : String}

/-- A call leads between functions that are shown, or between such that are not. -/
theorem shows_eq (hclosed : o.Closed) (hc : c ∈ o.names) (all : Bool) (hab : o.calls.Calls a b) :
    (o.survey c).shows all a = (o.survey c).shows all b := by
  cases all with
  | false => exact shows_false_eq hclosed hc hab
  | true => rfl

theorem mem_edges_iff {s : Survey o} {edge : EdgeRow} :
    edge ∈ (s.layout all).edges ↔ o.calls.Calls edge.caller edge.callee ∧
      s.shows all edge.caller ∧ s.shows all edge.callee ∧
        edge = s.edgeRow edge.caller edge.callee := by
  simp only [layout, edgeRows, List.mem_map, List.mem_filter, Prod.exists, Bool.and_eq_true,
    Dependencies.mem_pairs_iff]
  constructor
  · rintro ⟨x, y, ⟨hxy, hx, hy⟩, rfl⟩
    exact ⟨hxy, hx, hy, rfl⟩
  · rintro ⟨hxy, hx, hy, hedge⟩
    exact ⟨edge.caller, edge.callee, ⟨hxy, hx, hy⟩, hedge.symm⟩

/-- A call is on a cycle exactly if its callee leads back to its caller. A call of a function by
itself is one, since it leads back without a further call. -/
theorem inCycle_edgeRow_iff (hclosed : o.Closed) (c : String) (hab : o.calls.Calls a b) :
    ((o.survey c).edgeRow a b).inCycle ↔ ReflTransGen o.calls.Calls b a := by
  obtain ⟨ha, hb⟩ := hclosed a b hab
  refine (has_reach_iff hclosed c hb ha).trans ⟨TransGen.to_reflTransGen, fun hba => ?_⟩
  rcases reflTransGen_iff_eq_or_transGen.mp hba with rfl | hba
  · exact TransGen.single hab
  · exact hba

/-- The calls that meet a function that is shown are all shown. -/
theorem countP_edges_eq (hclosed : o.Closed) (hc : c ∈ o.names) (all : Bool)
    (p : String × String → Bool)
    (hp : ∀ call, p call → (o.survey c).shows all call.1 ∨ (o.survey c).shows all call.2) :
    ((o.survey c).layout all).edges.countP (fun edge => p (edge.caller, edge.callee)) =
      o.calls.pairs.countP p := by
  have hmap : ((o.survey c).edgeRows all).countP (fun edge => p (edge.caller, edge.callee)) =
      (((o.survey c).edgeRows all).map fun edge => (edge.caller, edge.callee)).countP p := by
    rw [List.countP_map]
    rfl
  rw [layout, hmap, map_ends_edgeRows, List.countP_filter]
  refine List.countP_congr fun call hcall => ?_
  have hsame := shows_eq hclosed hc all (Dependencies.mem_pairs_iff.mp hcall)
  rw [Bool.and_eq_true, and_iff_left_iff_imp, hsame, Bool.and_self]
  intro hcall
  simpa [hsame] using hp call hcall

end Survey

namespace Layout

variable {l : Layout} {g : CallGraph} {a b : String}

/-- The function has a row. -/
def Lists (l : Layout) (name : String) : Prop :=
  ∃ row ∈ l.nodes, row.id = name

/-- The function has a row that says that it is not connected with the center. -/
def Unreachable (l : Layout) (name : String) : Prop :=
  ∃ row ∈ l.nodes, row.id = name ∧ row.distance = .unreachable

/-- What a layout says of a graph. The rows and the edges are in strict order, and a call leads
between functions that are both listed or both left out. A function is on a cycle if one or more
calls lead back to it, and its degrees count the edges that are listed. The edges are the calls of
the functions that are listed, each on a cycle if its callee leads back to its caller. The cycles
are those of the graph whose members are listed. -/
structure Depicts (l : Layout) (g : CallGraph) : Prop where
  nodes_ordered : l.nodes.toList.Pairwise fun row row' => row.id < row'.id
  mem_names : ∀ a, l.Lists a → a ∈ g.names
  lists_iff : ∀ a b, g.Calls a b → (l.Lists a ↔ l.Lists b)
  inCycle_iff : ∀ row ∈ l.nodes, row.inCycle ↔ TransGen g.Calls row.id row.id
  inDegree_eq : ∀ row ∈ l.nodes, row.inDegree = l.edges.countP fun edge => edge.callee = row.id
  outDegree_eq : ∀ row ∈ l.nodes, row.outDegree = l.edges.countP fun edge => edge.caller = row.id
  edges_ordered : l.edges.Pairwise fun edge edge' =>
    Dependencies.Before (edge.caller, edge.callee) (edge'.caller, edge'.callee)
  edges_iff : ∀ edge, edge ∈ l.edges ↔ g.Calls edge.caller edge.callee ∧ l.Lists edge.caller ∧
    (edge.inCycle ↔ ReflTransGen g.Calls edge.callee edge.caller)
  cycles_iff : ∀ cycle, cycle ∈ l.cycles ↔ g.outline.IsCycle cycle ∧ ∀ a ∈ cycle, l.Lists a

/-! ## Layouts of graphs -/

theorem lists_layout_iff {o : Outline} {s : Survey o} {all : Bool} :
    (s.layout all).Lists a ↔ a ∈ o.names ∧ s.shows all a := by
  constructor
  · rintro ⟨row, hrow, rfl⟩
    obtain ⟨hshows, isDefined, hget, -⟩ := Survey.mem_nodes_iff.mp hrow
    exact ⟨Outline.mem_names_iff.mpr ⟨isDefined, hget⟩, hshows⟩
  · rintro ⟨ha, hshows⟩
    obtain ⟨isDefined, hget⟩ := Outline.mem_names_iff.mp ha
    exact ⟨s.nodeRow a isDefined (o.rank a),
      Survey.mem_nodes_iff.mpr ⟨hshows, isDefined, hget, rfl⟩, rfl⟩

theorem calls_outline_eq (g : CallGraph) : g.outline.calls.Calls = g.Calls :=
  funext₂ fun _ _ => propext CallGraph.calls_outline

theorem depicts_empty (g : CallGraph) : empty.Depicts g where
  nodes_ordered := List.Pairwise.nil
  mem_names a h := by simp [Lists, empty] at h
  lists_iff a b _ := by simp [Lists, empty]
  inCycle_iff row h := by simp [empty] at h
  inDegree_eq row h := by simp [empty] at h
  outDegree_eq row h := by simp [empty] at h
  edges_ordered := List.Pairwise.nil
  edges_iff edge := by simp [Lists, empty]
  cycles_iff cycle := by
    refine ⟨fun h => by simp [empty] at h, ?_⟩
    rintro ⟨hcycle, hlists⟩
    obtain ⟨a, ha⟩ := List.exists_mem_of_ne_nil cycle hcycle.ne_nil
    simpa [Lists, empty] using hlists a ha

theorem depicts_layout {c : String} (hc : c ∈ g.outline.names) (all : Bool) :
    ((g.outline.survey c).layout all).Depicts g where
  nodes_ordered := by
    have hids : ((g.outline.survey c).nodeRows all).map NodeRow.id |>.Pairwise (· < ·) := by
      rw [Survey.map_id_nodeRows]
      exact g.outline.names_ordered.filter _
    exact List.pairwise_map.mp hids
  mem_names a h := CallGraph.mem_names_outline.mp (lists_layout_iff.mp h).1
  lists_iff a b hab := by
    have hclosed := CallGraph.closed_outline g
    have hab := CallGraph.calls_outline.mpr hab
    obtain ⟨ha, hb⟩ := hclosed a b hab
    rw [lists_layout_iff, lists_layout_iff, Survey.shows_eq hclosed hc all hab]
    simp [ha, hb]
  inCycle_iff row hrow := by
    obtain ⟨-, isDefined, hget, hrow⟩ := Survey.mem_nodes_iff.mp hrow
    have hid := Outline.mem_names_iff.mpr ⟨isDefined, hget⟩
    rw [← calls_outline_eq, ← Survey.has_reach_iff (CallGraph.closed_outline g) c hid hid, hrow]
    rfl
  inDegree_eq row hrow := by
    obtain ⟨hshows, isDefined, -, hrow⟩ := Survey.mem_nodes_iff.mp hrow
    have hcount := Survey.countP_edges_eq (CallGraph.closed_outline g) hc all
      (fun call => call.2 = row.id) fun call hcall => Or.inr (by rwa [of_decide_eq_true hcall])
    rw [hcount, hrow]
    rfl
  outDegree_eq row hrow := by
    obtain ⟨hshows, isDefined, -, hrow⟩ := Survey.mem_nodes_iff.mp hrow
    have hcount := Survey.countP_edges_eq (CallGraph.closed_outline g) hc all
      (fun call => call.1 = row.id) fun call hcall => Or.inl (by rwa [of_decide_eq_true hcall])
    rw [hcount, hrow]
    rfl
  edges_ordered := by
    have hends : ((g.outline.survey c).edgeRows all).map (fun edge => (edge.caller, edge.callee))
        |>.Pairwise Dependencies.Before := by
      rw [Survey.map_ends_edgeRows]
      exact g.outline.calls.pairs_ordered.filter _
    exact List.pairwise_map.mp hends
  edges_iff edge := by
    have hclosed := CallGraph.closed_outline g
    rw [Survey.mem_edges_iff, lists_layout_iff, ← calls_outline_eq]
    constructor
    · rintro ⟨hcalls, hcaller, -, hedge⟩
      refine ⟨hcalls, ⟨(hclosed _ _ hcalls).1, hcaller⟩, ?_⟩
      rw [hedge]
      exact Survey.inCycle_edgeRow_iff hclosed c hcalls
    · rintro ⟨hcalls, ⟨-, hcaller⟩, hin⟩
      refine ⟨hcalls, hcaller, by rwa [← Survey.shows_eq hclosed hc all hcalls], ?_⟩
      rw [← Survey.inCycle_edgeRow_iff hclosed c hcalls, ← Bool.eq_iff_iff] at hin
      cases edge
      rw [Survey.edgeRow, EdgeRow.mk.injEq]
      exact ⟨rfl, rfl, hin⟩
  cycles_iff cycle := by
    have hclosed := CallGraph.closed_outline g
    rw [Survey.layout, List.mem_filter, Survey.mem_cyclesOf_iff hclosed, List.all_eq_true]
    refine and_congr_right fun hcycle => forall₂_congr fun a ha => ?_
    have hmem := ((hcycle.mem_iff ha).mp ha).mem_names hclosed
    exact (and_iff_right hmem).symm.trans lists_layout_iff.symm

/-- Every layout of a graph depicts it. -/
theorem depicts_compute (all : Bool) (g : CallGraph) : (compute all g).Depicts g := by
  rcases compute_cases all g with ⟨-, hempty⟩ | ⟨c, -, hc, hlayout⟩
  · rw [hempty]
    exact depicts_empty g
  · rw [hlayout]
    exact depicts_layout hc all

/-! ## Counting edges -/

/-- Where each element of a list has one of some distinct names, the numbers of elements with each
of the names add up to the length of the list. -/
theorem sum_countP_eq_length {α : Type*} (name : α → String) {names : List String}
    (hn : names.Nodup) {l : List α} (h : ∀ x ∈ l, name x ∈ names) :
    (names.map fun a => l.countP fun x => name x = a).sum = l.length := by
  have hcount : ∀ a, l.countP (fun x => name x = a) =
      Multiset.count a (l.map name : Multiset String) := by
    intro a
    rw [Multiset.coe_count, List.count, List.countP_map]
    rfl
  simp only [hcount]
  rw [← List.sum_toFinset _ hn, Multiset.sum_count_eq_card]
  · simp
  · simpa using h

namespace Depicts

variable (h : l.Depicts g)

include h

theorem lists_ends {edge : EdgeRow} (hedge : edge ∈ l.edges) :
    l.Lists edge.caller ∧ l.Lists edge.callee := by
  obtain ⟨hcalls, hcaller, -⟩ := (h.edges_iff edge).mp hedge
  exact ⟨hcaller, (h.lists_iff _ _ hcalls).mp hcaller⟩

theorem nodup_ids : (l.nodes.toList.map NodeRow.id).Nodup :=
  List.pairwise_map.mpr (h.nodes_ordered.imp fun hlt => hlt.ne)

theorem eq_of_id_eq {row row' : NodeRow} (hrow : row ∈ l.nodes) (hrow' : row' ∈ l.nodes)
    (hid : row.id = row'.id) : row = row' :=
  List.inj_on_of_nodup_map h.nodup_ids (Array.mem_toList_iff.mpr hrow)
    (Array.mem_toList_iff.mpr hrow') hid

theorem sum_countP {end' : EdgeRow → String} (hend : ∀ edge ∈ l.edges, l.Lists (end' edge)) :
    (l.nodes.toList.map fun row => l.edges.countP fun edge => end' edge = row.id).sum =
      l.edges.length := by
  have hmem : ∀ edge ∈ l.edges, end' edge ∈ l.nodes.toList.map NodeRow.id := by
    intro edge hedge
    obtain ⟨row, hrow, hid⟩ := hend edge hedge
    exact List.mem_map.mpr ⟨row, Array.mem_toList_iff.mpr hrow, hid⟩
  rw [← sum_countP_eq_length end' h.nodup_ids hmem, List.map_map]
  rfl

/-- Each edge is counted once at its callee and once at its caller. -/
theorem sum_totalDegree :
    (l.nodes.toList.map NodeRow.totalDegree).sum = 2 * l.edges.length := by
  have hin := h.sum_countP fun edge hedge => (h.lists_ends hedge).2
  have hout := h.sum_countP fun edge hedge => (h.lists_ends hedge).1
  have hdegree : l.nodes.toList.map NodeRow.totalDegree = l.nodes.toList.map fun row =>
      (l.edges.countP fun edge => edge.callee = row.id) +
        l.edges.countP fun edge => edge.caller = row.id := by
    refine List.map_congr_left fun row hrow => ?_
    have hrow := Array.mem_toList_iff.mp hrow
    rw [NodeRow.totalDegree, h.inDegree_eq row hrow, h.outDegree_eq row hrow]
  rw [hdegree, List.sum_map_add, hin, hout, two_mul]

/-! ## Cycles -/

theorem lists_of_transGen (ha : l.Lists a) (hab : TransGen g.Calls a b) : l.Lists b := by
  induction hab with
  | single hab => exact (h.lists_iff _ _ hab).mp ha
  | tail _ hbc ih => exact (h.lists_iff _ _ hbc).mp ih

/-- A cycle with one member that is listed is listed. -/
theorem mem_cycles_of_mem {cycle : List String} (hcycle : g.outline.IsCycle cycle) (ha : a ∈ cycle)
    (hlists : l.Lists a) : cycle ∈ l.cycles := by
  refine (h.cycles_iff cycle).mpr ⟨hcycle, fun b hb => h.lists_of_transGen hlists ?_⟩
  rw [← calls_outline_eq]
  exact ((hcycle.mem_iff ha).mp hb).1

/-- A function that is listed is on a cycle exactly if it is on a cycle that is listed. -/
theorem inCycle_iff_exists_mem {row : NodeRow} (hrow : row ∈ l.nodes) :
    row.inCycle ↔ ∃ cycle ∈ l.cycles, row.id ∈ cycle := by
  rw [h.inCycle_iff row hrow, ← calls_outline_eq]
  constructor
  · intro hself
    obtain ⟨cycle, ⟨hcycle, hmem⟩, -⟩ :=
      Outline.IsCycle.existsUnique_mem (CallGraph.closed_outline g) ⟨hself, hself⟩
    exact ⟨cycle, h.mem_cycles_of_mem hcycle hmem ⟨row, hrow, rfl⟩, hmem⟩
  · rintro ⟨cycle, hcycle, hmem⟩
    exact ((((h.cycles_iff cycle).mp hcycle).1.mem_iff hmem).mp hmem).1

end Depicts

/-! ## What is left out -/

/-- The rows of the functions that the center is connected with are rows of the layout of all
functions. -/
theorem mem_nodes_compute_false_iff {row : NodeRow} : row ∈ (compute false g).nodes ↔
    row ∈ (compute true g).nodes ∧ row.distance ≠ .unreachable := by
  cases hcenter : g.outline.center? with
  | none => simp [compute, hcenter, empty]
  | some c =>
    rw [compute_of_center false hcenter, compute_of_center true hcenter, Survey.mem_nodes_iff,
      Survey.mem_nodes_iff]
    have hshows : ∀ isDefined, row = (g.outline.survey c).nodeRow row.id isDefined
        (g.outline.rank row.id) → ((g.outline.survey c).shows false row.id ↔
          row.distance ≠ .unreachable) := by
      intro isDefined hrow
      have hdistance : row.distance = (g.outline.survey c).distance (g.outline.rank row.id) := by
        rw [hrow]
        rfl
      rw [Survey.shows, Bool.false_or, ← hdistance]
      cases row.distance <;> simp [Distance.hops?]
    constructor
    · rintro ⟨hfalse, isDefined, hget, hrow⟩
      exact ⟨⟨rfl, isDefined, hget, hrow⟩, (hshows isDefined hrow).mp hfalse⟩
    · rintro ⟨⟨-, isDefined, hget, hrow⟩, hdistance⟩
      exact ⟨(hshows isDefined hrow).mpr hdistance, isDefined, hget, hrow⟩

theorem lists_compute_false_iff :
    (compute false g).Lists a ↔ (compute true g).Lists a ∧ ¬(compute true g).Unreachable a := by
  constructor
  · rintro ⟨row, hrow, rfl⟩
    obtain ⟨hfull, hdistance⟩ := mem_nodes_compute_false_iff.mp hrow
    refine ⟨⟨row, hfull, rfl⟩, ?_⟩
    rintro ⟨row', hrow', hid, hunreachable⟩
    rw [(depicts_compute true g).eq_of_id_eq hrow' hfull hid] at hunreachable
    exact hdistance hunreachable
  · rintro ⟨⟨row, hrow, rfl⟩, hreached⟩
    exact ⟨row, mem_nodes_compute_false_iff.mpr
      ⟨hrow, fun hdistance => hreached ⟨row, hrow, rfl, hdistance⟩⟩, rfl⟩

/-- Functions that a call leads between are unreachable together. -/
theorem unreachable_iff_of_calls (hab : g.Calls a b) :
    (compute true g).Unreachable a ↔ (compute true g).Unreachable b := by
  have hunreachable : ∀ a, (compute true g).Unreachable a ↔
      (compute true g).Lists a ∧ ¬(compute false g).Lists a := by
    intro a
    rw [lists_compute_false_iff, not_and, not_not]
    refine ⟨fun h => ⟨?_, fun _ => h⟩, fun h => h.2 h.1⟩
    obtain ⟨row, hrow, hid, -⟩ := h
    exact ⟨row, hrow, hid⟩
  rw [hunreachable, hunreachable, (depicts_compute true g).lists_iff a b hab,
    (depicts_compute false g).lists_iff a b hab]

theorem mem_edges_compute_false_iff {edge : EdgeRow} : edge ∈ (compute false g).edges ↔
    edge ∈ (compute true g).edges ∧
      ¬((compute true g).Unreachable edge.caller ∧ (compute true g).Unreachable edge.callee) := by
  rw [(depicts_compute false g).edges_iff, (depicts_compute true g).edges_iff,
    lists_compute_false_iff]
  constructor
  · rintro ⟨hcalls, ⟨hlists, hreached⟩, hin⟩
    exact ⟨⟨hcalls, hlists, hin⟩, fun h => hreached h.1⟩
  · rintro ⟨⟨hcalls, hlists, hin⟩, hends⟩
    refine ⟨hcalls, ⟨hlists, fun hcaller => hends ⟨hcaller, ?_⟩⟩, hin⟩
    exact (unreachable_iff_of_calls hcalls).mp hcaller

theorem mem_cycles_compute_false_iff {cycle : List String} : cycle ∈ (compute false g).cycles ↔
    cycle ∈ (compute true g).cycles ∧ ¬∀ a ∈ cycle, (compute true g).Unreachable a := by
  constructor
  · intro h
    obtain ⟨hcycle, hlists⟩ := ((depicts_compute false g).cycles_iff cycle).mp h
    have hlists : ∀ a ∈ cycle, _ := fun a ha => lists_compute_false_iff.mp (hlists a ha)
    obtain ⟨a, ha⟩ := List.exists_mem_of_ne_nil cycle hcycle.ne_nil
    exact ⟨((depicts_compute true g).cycles_iff cycle).mpr ⟨hcycle, fun b hb => (hlists b hb).1⟩,
      fun hall => (hlists a ha).2 (hall a ha)⟩
  · rintro ⟨h, hreached⟩
    obtain ⟨hcycle, hlists⟩ := ((depicts_compute true g).cycles_iff cycle).mp h
    simp only [not_forall] at hreached
    obtain ⟨a, ha, hreached⟩ := hreached
    exact (depicts_compute false g).mem_cycles_of_mem hcycle ha
      (lists_compute_false_iff.mpr ⟨hlists a ha, hreached⟩)

/-- In every layout of a graph the rows and the edges are in strict order, and the ends of the
edges and the members of the cycles are listed. The degrees of a row are the numbers of listed
edges to and from it, so their sum over all rows is twice the number of edges, and a row is on a
cycle exactly if it is on a listed one. The layout of all functions lists the names and the calls
of the graph. From it, the other layout leaves out the rows that are unreachable, the edges that
have two unreachable ends, and the cycles that have none but unreachable members. -/
theorem rows_agree_compute (steps : List CallGraph.Step) :
    let g := CallGraph.empty.run steps
    let full := compute true g
    let part := compute false g
    (∀ all, let l := compute all g
      l.nodes.toList.Pairwise (fun row row' => row.id < row'.id) ∧
      l.edges.Pairwise (fun edge edge' => Prod.Lex (· < ·) (· < ·)
        (edge.caller, edge.callee) (edge'.caller, edge'.callee)) ∧
      (∀ edge ∈ l.edges, l.Lists edge.caller ∧ l.Lists edge.callee) ∧
      (∀ cycle ∈ l.cycles, ∀ a ∈ cycle, l.Lists a) ∧
      (∀ row ∈ l.nodes, row.inDegree = l.edges.countP (fun edge => edge.callee = row.id) ∧
        row.outDegree = l.edges.countP (fun edge => edge.caller = row.id)) ∧
      (l.nodes.toList.map NodeRow.totalDegree).sum = 2 * l.edges.length ∧
      ∀ row ∈ l.nodes, row.inCycle ↔ ∃ cycle ∈ l.cycles, row.id ∈ cycle) ∧
    (∀ a, full.Lists a ↔ a ∈ g.names) ∧
    (∀ a b, (∃ edge ∈ full.edges, edge.caller = a ∧ edge.callee = b) ↔ g.Calls a b) ∧
    (∀ row, row ∈ part.nodes ↔ row ∈ full.nodes ∧ row.distance ≠ .unreachable) ∧
    (∀ edge, edge ∈ part.edges ↔ edge ∈ full.edges ∧
      ¬(full.Unreachable edge.caller ∧ full.Unreachable edge.callee)) ∧
    ∀ cycle, cycle ∈ part.cycles ↔ cycle ∈ full.cycles ∧ ¬∀ a ∈ cycle, full.Unreachable a := by
  intro g full part
  obtain ⟨hnames, hcalls⟩ := rows_compute_true g
  refine ⟨?_, ?_, ?_, fun row => mem_nodes_compute_false_iff,
    fun edge => mem_edges_compute_false_iff, fun cycle => mem_cycles_compute_false_iff⟩
  · intro all l
    have h : l.Depicts g := depicts_compute all g
    exact ⟨h.nodes_ordered, h.edges_ordered, fun edge => h.lists_ends,
      fun cycle hcycle => ((h.cycles_iff cycle).mp hcycle).2,
      fun row hrow => ⟨h.inDegree_eq row hrow, h.outDegree_eq row hrow⟩, h.sum_totalDegree,
      fun row => h.inCycle_iff_exists_mem⟩
  · intro a
    rw [← CallGraph.mem_names_outline, ← hnames, List.mem_map]
    simp only [Array.mem_toList_iff]
    rfl
  · intro a b
    rw [← CallGraph.calls_outline, ← Dependencies.mem_pairs_iff, ← hcalls, List.mem_map]
    simp only [Prod.mk.injEq]
    rfl

/-- The theorem applies to a graph with a cycle apart from the center, which is left out. -/
theorem rows_agree_compute_of_calls :
    let g := CallGraph.empty.run
      [.call "f" "g", .call "g" "g", .call "k" "m", .call "m" "k", .node "a" true]
    let part := compute false g
    (part.nodes.toList.map NodeRow.totalDegree).sum = 2 * 2 ∧
      ["k", "m"] ∈ (compute true g).cycles ∧ ["k", "m"] ∉ part.cycles ∧
      ∀ a ∈ ["k", "m"], (compute true g).Unreachable a := by
  intro g part
  obtain ⟨hrows, -, -, -, -, hcycles⟩ := rows_agree_compute
    [.call "f" "g", .call "g" "g", .call "k" "m", .call "m" "k", .node "a" true]
  have hedges : part.edges.length = 2 := by decide +kernel
  have hfull : ["k", "m"] ∈ (compute true g).cycles := by decide +kernel
  have hpart : ["k", "m"] ∉ part.cycles := by decide +kernel
  refine ⟨?_, hfull, hpart, ?_⟩
  · have hsum : (part.nodes.toList.map NodeRow.totalDegree).sum = 2 * part.edges.length :=
      (hrows false).2.2.2.2.2.1
    rw [hsum, hedges]
  · by_contra hreached
    exact hpart ((hcycles ["k", "m"]).mpr ⟨hfull, hreached⟩)

end Layout

end CallAtlas
