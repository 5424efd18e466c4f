import Mathlib.Data.List.Lex
import CallAtlas.Proofs.Layout

/-!
# The cycles of a layout

A cycle of an outline is a list in strict order of the functions that lead to one of them and
back by one or more calls (`Outline.IsCycle`). Two functions that lead to each other lie on the
same cycles, so cycles with a common member are equal (`Outline.IsCycle.eq_of_mem`). The cycles
that are listed for an outline are all of its cycles (`mem_cyclesOf_iff`), each at its first
member and so in strict order (`cyclesOf_ordered`).

`inCycle_and_cycles_compute` puts this together for the layout of a graph.
-/

namespace CallAtlas

open Relation

namespace Outline

variable {o : Outline} {a b c : String}

/-- One or more calls lead from each of two functions to the other. -/
def Mutual (o : Outline) (a b : String) : Prop :=
  TransGen o.calls.Calls a b ∧ TransGen o.calls.Calls b a

theorem Mutual.symm (h : o.Mutual a b) : o.Mutual b a :=
  ⟨h.2, h.1⟩

theorem Mutual.trans (h : o.Mutual a b) (h' : o.Mutual b c) : o.Mutual a c :=
  ⟨h.1.trans h'.1, h'.2.trans h.2⟩

theorem Mutual.mem_names (hclosed : o.Closed) (h : o.Mutual a b) : b ∈ o.names := by
  obtain ⟨x, -, hx⟩ := TransGen.tail'_iff.mp h.1
  exact (hclosed x b hx).2

/-- The list holds, in strict order, the functions that lead to one of them and back. -/
def IsCycle (o : Outline) (cycle : List String) : Prop :=
  cycle.Pairwise (· < ·) ∧ ∃ a ∈ cycle, ∀ b, b ∈ cycle ↔ o.Mutual a b

namespace IsCycle

variable {cycle cycle' : List String}

theorem mem_iff (h : o.IsCycle cycle) (ha : a ∈ cycle) : b ∈ cycle ↔ o.Mutual a b := by
  obtain ⟨-, x, -, hx⟩ := h
  have hxa := (hx a).mp ha
  exact (hx b).trans ⟨hxa.symm.trans, hxa.trans⟩

/-- Cycles with a common member are equal. -/
theorem eq_of_mem (h : o.IsCycle cycle) (h' : o.IsCycle cycle') (ha : a ∈ cycle)
    (ha' : a ∈ cycle') : cycle = cycle' :=
  h.1.eq_of_mem_iff h'.1 fun _ => (h.mem_iff ha).trans (h'.mem_iff ha').symm

theorem ne_nil (h : o.IsCycle cycle) : cycle ≠ [] := by
  obtain ⟨-, a, ha, -⟩ := h
  exact List.ne_nil_of_mem ha

theorem count_eq_one (h : o.IsCycle cycle) (ha : a ∈ cycle) : cycle.count a = 1 :=
  List.count_eq_one_of_mem (h.1.imp fun hlt => hlt.ne) ha

/-- A function that leads to itself is on one cycle. -/
theorem existsUnique_mem (hclosed : o.Closed) (h : o.Mutual a a) :
    ∃! cycle, o.IsCycle cycle ∧ a ∈ cycle := by
  classical
  have hmem : ∀ b, b ∈ o.names.filter (fun b => o.Mutual a b) ↔ o.Mutual a b := by
    intro b
    rw [List.mem_filter, decide_eq_true_iff]
    exact and_iff_right_of_imp fun hb => hb.mem_names hclosed
  have hcycle : o.IsCycle (o.names.filter fun b => o.Mutual a b) :=
    ⟨o.names_ordered.filter _, a, (hmem a).mpr h, hmem⟩
  refine ⟨_, ⟨hcycle, (hmem a).mpr h⟩, ?_⟩
  rintro cycle' ⟨hcycle', ha'⟩
  exact hcycle'.eq_of_mem hcycle ha' ((hmem a).mpr h)

/-- Functions on cycles are on the same one if each can be reached from the other. -/
theorem exists_mem_mem_iff (hclosed : o.Closed) (ha : o.Mutual a a) :
    (∃ cycle, o.IsCycle cycle ∧ a ∈ cycle ∧ b ∈ cycle) ↔
      ReflTransGen o.calls.Calls a b ∧ ReflTransGen o.calls.Calls b a := by
  constructor
  · rintro ⟨cycle, hcycle, hac, hbc⟩
    have hab := (hcycle.mem_iff hac).mp hbc
    exact ⟨hab.1.to_reflTransGen, hab.2.to_reflTransGen⟩
  · rintro ⟨hab, hba⟩
    obtain ⟨cycle, ⟨hcycle, hac⟩, -⟩ := existsUnique_mem hclosed ha
    exact ⟨cycle, hcycle, hac, (hcycle.mem_iff hac).mpr
      ⟨ha.1.trans_left hab, TransGen.trans_right hba ha.1⟩⟩

end IsCycle

end Outline

namespace Survey

variable {o : Outline} {a b : String}

theorem mutually_iff (hclosed : o.Closed) (c : String) (ha : a ∈ o.names) (hb : b ∈ o.names) :
    Layout.mutually (o.survey c).reach (o.rank a) (o.rank b) ↔ o.Mutual a b := by
  rw [Layout.mutually, Bool.and_eq_true, has_reach_iff hclosed c ha hb,
    has_reach_iff hclosed c hb ha, Outline.Mutual]

/-- The functions that lead to the one with rank `i` and back. -/
def cycleOf (s : Survey o) (i : ℕ) : List String :=
  o.names.filter fun b => Layout.mutually s.reach i (o.rank b)

/-- No function before the one with rank `i` leads to it and back, but that one does. -/
def StartsCycle (s : Survey o) (i : ℕ) : Prop :=
  Layout.mutually s.reach i i ∧ ∀ j < i, ¬Layout.mutually s.reach i j

/-- The cycle that starts at a rank. -/
def cycleAt? (s : Survey o) (i : ℕ) : Option (List String) :=
  if Layout.mutually s.reach i i && (List.range i).all (fun j => !Layout.mutually s.reach i j) then
    some (s.cycleOf i)
  else none

theorem cycleAt?_eq_some_iff {s : Survey o} {i : ℕ} {cycle : List String} :
    s.cycleAt? i = some cycle ↔ s.StartsCycle i ∧ s.cycleOf i = cycle := by
  simp [cycleAt?, StartsCycle]

theorem cyclesOf_eq (s : Survey o) :
    Layout.cyclesOf o.names s.reach = (List.range o.size).filterMap s.cycleAt? := by
  have hnodup : (o.names.map id).Nodup := by
    rw [List.map_id]
    exact o.names_nodup
  unfold Layout.cyclesOf
  congr 1
  funext i
  rw [zipIdx_eq_map_idxOf id hnodup, List.filter_map, List.map_map, List.map_id]
  simp only [Function.comp_def, id_eq, List.map_id']
  rfl

theorem startsCycle_iff (hclosed : o.Closed) (c : String) {i : ℕ} (hi : i < o.size) :
    (o.survey c).StartsCycle i ↔ o.Mutual (o.nameOf i) (o.nameOf i) ∧
      ∀ j < i, ¬o.Mutual (o.nameOf i) (o.nameOf j) := by
  have hmutually : ∀ j < o.size, Layout.mutually (o.survey c).reach i j ↔
      o.Mutual (o.nameOf i) (o.nameOf j) := by
    intro j hj
    have h := mutually_iff hclosed c (Outline.nameOf_mem hi) (Outline.nameOf_mem hj)
    rwa [Outline.rank_nameOf hi, Outline.rank_nameOf hj] at h
  rw [StartsCycle, hmutually i hi]
  refine and_congr_right fun _ => forall₂_congr fun j hj => ?_
  rw [hmutually j (hj.trans hi)]

theorem mem_cycleOf_iff (hclosed : o.Closed) (c : String) {i : ℕ} (hi : i < o.size) :
    b ∈ (o.survey c).cycleOf i ↔ o.Mutual (o.nameOf i) b := by
  rw [cycleOf, List.mem_filter]
  have h : b ∈ o.names → (Layout.mutually (o.survey c).reach i (o.rank b) ↔
      o.Mutual (o.nameOf i) b) := by
    intro hb
    have h := mutually_iff hclosed c (Outline.nameOf_mem hi) hb
    rwa [Outline.rank_nameOf hi] at h
  exact ⟨fun ⟨hb, hm⟩ => (h hb).mp hm, fun hm =>
    ⟨hm.mem_names hclosed, (h (hm.mem_names hclosed)).mpr hm⟩⟩

/-- The cycles that are listed are the cycles of the outline, each at the least rank of its members.
-/
theorem mem_cyclesOf_iff (hclosed : o.Closed) (c : String) {cycle : List String} :
    cycle ∈ Layout.cyclesOf o.names (o.survey c).reach ↔ o.IsCycle cycle := by
  simp only [cyclesOf_eq, List.mem_filterMap, List.mem_range, cycleAt?_eq_some_iff]
  constructor
  · rintro ⟨i, hi, hstarts, rfl⟩
    have hself := ((startsCycle_iff hclosed c hi).mp hstarts).1
    exact ⟨o.names_ordered.filter _, o.nameOf i, (mem_cycleOf_iff hclosed c hi).mpr hself,
      fun b => mem_cycleOf_iff hclosed c hi⟩
  · rintro ⟨hordered, a, ha, hmem⟩
    classical
    have haa := (hmem a).mp ha
    have hex : ∃ i, i < o.size ∧ o.Mutual a (o.nameOf i) := by
      have ha' := haa.mem_names hclosed
      exact ⟨o.rank a, Outline.rank_lt ha', by rwa [Outline.nameOf_rank ha']⟩
    obtain ⟨hi, hai⟩ := Nat.find_spec hex
    refine ⟨Nat.find hex, hi, (startsCycle_iff hclosed c hi).mpr ⟨hai.symm.trans hai, ?_⟩, ?_⟩
    · intro j hj hij
      exact Nat.find_min hex hj ⟨hj.trans hi, hai.trans hij⟩
    · refine (o.names_ordered.filter _).eq_of_mem_iff hordered fun b => ?_
      rw [hmem b]
      exact (mem_cycleOf_iff hclosed c hi).trans ⟨hai.trans, hai.symm.trans⟩

/-! ## The order of the cycles -/

theorem head?_cycleOf {s : Survey o} {i : ℕ} (hi : i < o.size) (h : s.StartsCycle i) :
    (s.cycleOf i).head? = some (o.nameOf i) := by
  rw [cycleOf, List.head?_filter, List.find?_eq_some_iff_getElem, Outline.rank_nameOf hi]
  refine ⟨h.1, i, hi, (Outline.nameOf_eq hi).symm, fun j hj => ?_⟩
  have hj' := Outline.rank_nameOf (hj.trans hi)
  rw [Outline.nameOf_eq (hj.trans hi)] at hj'
  simpa [hj'] using h.2 j hj

theorem nameOf_lt_nameOf {i j : ℕ} (hij : i < j) (hj : j < o.size) : o.nameOf i < o.nameOf j := by
  rw [Outline.nameOf_eq (hij.trans hj), Outline.nameOf_eq hj]
  exact List.pairwise_iff_getElem.mp o.names_ordered i j (hij.trans hj) hj hij

theorem lt_of_head?_lt {l l' : List String} {a b : String} (h : l.head? = some a)
    (h' : l'.head? = some b) (hab : a < b) : l < l' := by
  obtain ⟨t, rfl⟩ := List.head?_eq_some_iff.mp h
  obtain ⟨t', rfl⟩ := List.head?_eq_some_iff.mp h'
  exact List.cons_lt_cons_iff.mpr (Or.inl hab)

/-- Each cycle is listed at its first member, so the cycles are in strict order. -/
theorem cyclesOf_ordered (s : Survey o) :
    (Layout.cyclesOf o.names s.reach).Pairwise (· < ·) := by
  rw [cyclesOf_eq, List.pairwise_filterMap]
  refine List.pairwise_lt_range.imp_of_mem fun {i j} hi hj hij x hx y hy => ?_
  obtain ⟨hi', rfl⟩ := cycleAt?_eq_some_iff.mp hx
  obtain ⟨hj', rfl⟩ := cycleAt?_eq_some_iff.mp hy
  rw [List.mem_range] at hi hj
  exact lt_of_head?_lt (head?_cycleOf hi hi') (head?_cycleOf hj hj') (nameOf_lt_nameOf hij hj)

/-! ## The layout of all functions -/

theorem inCycle_iff (hclosed : o.Closed) {c : String} {row : NodeRow}
    (h : row ∈ ((o.survey c).layout true).nodes) :
    row.inCycle ↔ TransGen o.calls.Calls row.id row.id := by
  have hid := id_mem_names h
  obtain ⟨isDefined, -, hrow⟩ := mem_nodes_layout_iff.mp h
  rw [← has_reach_iff hclosed c hid hid, hrow]
  rfl

theorem mem_cycles_iff (hclosed : o.Closed) (c : String) {cycle : List String} :
    cycle ∈ ((o.survey c).layout true).cycles ↔ o.IsCycle cycle := by
  rw [← mem_cyclesOf_iff hclosed c, layout, List.mem_filter]
  simp [shows]

theorem cycles_ordered (s : Survey o) (all : Bool) : (s.layout all).cycles.Pairwise (· < ·) :=
  (cyclesOf_ordered _).filter _

end Survey

namespace Layout

/-- In the layout of all functions of a graph, a function is on a cycle exactly if one or more
calls lead from it back to it. The cycles that are listed are the classes of such functions that
lead to each other: each function on a cycle is in one of them, once, no other function is in
any, and two functions on cycles are in the same one exactly if each can be reached from the
other. The members of a cycle, and the cycles, are in strict order. -/
theorem inCycle_and_cycles_compute (steps : List CallGraph.Step) :
    let g := CallGraph.empty.run steps
    let l := compute true g
    (∀ node ∈ g.nodes, ∃! row, row ∈ l.nodes ∧ row.id = node.name) ∧
    (∀ row ∈ l.nodes, row.id ∈ g.names ∧
      (row.inCycle ↔ TransGen g.Calls row.id row.id)) ∧
    (∀ row ∈ l.nodes, row.inCycle → ∃! cycle, cycle ∈ l.cycles ∧ row.id ∈ cycle) ∧
    (∀ cycle ∈ l.cycles, cycle ≠ [] ∧ ∀ a ∈ cycle, cycle.count a = 1 ∧
      ∃ row ∈ l.nodes, row.id = a ∧ row.inCycle) ∧
    (∀ row ∈ l.nodes, ∀ row' ∈ l.nodes, row.inCycle → row'.inCycle →
      ((∃ cycle ∈ l.cycles, row.id ∈ cycle ∧ row'.id ∈ cycle) ↔
        ReflTransGen g.Calls row.id row'.id ∧ ReflTransGen g.Calls row'.id row.id)) ∧
    (∀ cycle ∈ l.cycles, cycle.Pairwise (· < ·)) ∧ l.cycles.Pairwise (· < ·) := by
  intro g l
  rcases compute_cases true g with ⟨hnodes, hempty⟩ | ⟨c, -, -, hlayout⟩
  · have hl : l = empty := hempty
    rw [hl, hnodes]
    simp [empty]
  have hclosed := CallGraph.closed_outline g
  have hcalls : g.outline.calls.Calls = g.Calls :=
    funext₂ fun _ _ => propext CallGraph.calls_outline
  have hl : l = (g.outline.survey c).layout true := hlayout
  have hin : ∀ row ∈ l.nodes, row.inCycle ↔ g.outline.Mutual row.id row.id := by
    intro row hrow
    rw [hl] at hrow
    rw [Survey.inCycle_iff hclosed hrow, Outline.Mutual, and_self]
  have hcycle : ∀ cycle, cycle ∈ l.cycles ↔ g.outline.IsCycle cycle := by
    intro cycle
    rw [hl, Survey.mem_cycles_iff hclosed]
  have hrows : ∀ a ∈ g.outline.names, ∃! row, row ∈ l.nodes ∧ row.id = a := by
    intro a ha
    rw [hl]
    exact Survey.existsUnique_row c ha
  refine ⟨?_, ?_, ?_, ?_, ?_, ?_, ?_⟩
  · intro node hnode
    exact hrows _ (CallGraph.mem_names_outline.mpr (List.mem_map_of_mem hnode))
  · intro row hrow
    rw [hin row hrow, Outline.Mutual, and_self, hcalls, ← CallGraph.mem_names_outline]
    rw [hl] at hrow
    exact ⟨Survey.id_mem_names hrow, Iff.rfl⟩
  · intro row hrow hcyc
    simp only [hcycle]
    exact Outline.IsCycle.existsUnique_mem hclosed ((hin row hrow).mp hcyc)
  · intro cycle hc
    have hc := (hcycle cycle).mp hc
    refine ⟨hc.ne_nil, fun b hb => ⟨hc.count_eq_one hb, ?_⟩⟩
    have hbb := (hc.mem_iff hb).mp hb
    obtain ⟨row, ⟨hrow, rfl⟩, -⟩ := hrows b (hbb.mem_names hclosed)
    exact ⟨row, hrow, rfl, (hin row hrow).mpr hbb⟩
  · intro row hrow row' _ hcyc _
    rw [← hcalls, ← Outline.IsCycle.exists_mem_mem_iff hclosed ((hin row hrow).mp hcyc)]
    simp only [hcycle]
  · exact fun cycle hc => ((hcycle cycle).mp hc).1
  · rw [hl]
    exact Survey.cycles_ordered _ true

end Layout

end CallAtlas
