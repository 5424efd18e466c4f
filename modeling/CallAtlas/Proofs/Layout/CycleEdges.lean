import Mathlib.Data.List.Chain
import CallAtlas.Proofs.Layout.Rows

/-!
# The edges of a layout that are on cycles

An edge is on a cycle exactly if its callee leads back to its caller, which is to say that it lies
on a closed walk (`CallGraph.exists_closedWalk_iff`). This is a property of the edge and not of its
two ends: an edge that leads from one cycle to another has both ends on cycles and is on none
(`Depicts.inCycle_eq_false`). A function on a cycle has such an edge to it and from it
(`Depicts.exists_edges_of_inCycle`), and no cycle is left when they are taken away
(`Depicts.not_transGen_apart`).
-/

namespace CallAtlas

open Relation

namespace CallGraph

variable {g : CallGraph} {a b : String}

/-- The list follows the calls of the graph and ends where it starts. -/
def ClosedWalk (g : CallGraph) (walk : List String) : Prop :=
  walk.IsChain g.Calls ∧ walk.head? = walk.getLast?

/-- A call lies on a closed walk exactly if its callee leads back to its caller. The walk goes from
the callee to its end, which is its start, and from there to the caller. -/
theorem exists_closedWalk_iff (hab : g.Calls a b) :
    (∃ walk, g.ClosedWalk walk ∧ [a, b] <:+: walk) ↔ ReflTransGen g.Calls b a := by
  constructor
  · rintro ⟨walk, ⟨hchain, hends⟩, before, after, rfl⟩
    have hto : ReflTransGen g.Calls ((before ++ [a]).head (by simp)) a := by
      have hbefore : (before ++ [a]).IsChain g.Calls :=
        hchain.prefix ⟨b :: after, by simp⟩
      simpa using List.relationReflTransGen_of_exists_isChain _ hbefore (by simp)
    have hfrom : ReflTransGen g.Calls b ((b :: after).getLast (by simp)) := by
      have hafter : (b :: after).IsChain g.Calls :=
        hchain.suffix ⟨before ++ [a], by simp⟩
      simpa using List.relationReflTransGen_of_exists_isChain _ hafter (by simp)
    have hsame : (b :: after).getLast (by simp) = (before ++ [a]).head (by simp) := by
      have hsplit : before ++ [a, b] ++ after = (before ++ [a]) ++ b :: after := by simp
      rw [hsplit, List.getLast?_append_of_ne_nil _ (by simp), List.getLast?_eq_some_getLast,
        List.head?_append_of_ne_nil _ (by simp), List.head?_eq_some_head] at hends
      exact (Option.some.inj hends).symm
    rw [hsame] at hfrom
    exact hfrom.trans hto
  · intro hba
    obtain ⟨walk, hchain, hlast⟩ := List.exists_isChain_cons_of_relationReflTransGen hba
    refine ⟨a :: b :: walk, ⟨hchain.cons_cons hab, ?_⟩, [], walk, rfl⟩
    rw [List.head?_cons, List.getLast?_cons_cons,
      List.getLast?_eq_some_getLast (List.cons_ne_nil b walk), hlast]

end CallGraph

namespace Layout

namespace Depicts

variable {l : Layout} {g : CallGraph} (h : l.Depicts g)

include h

/-- An edge between two cycles is on none. Otherwise its ends would lead to each other, and be
members of one cycle. -/
theorem inCycle_eq_false {edge : EdgeRow} (hedge : edge ∈ l.edges) {cycle cycle' : List String}
    (hcycle : cycle ∈ l.cycles) (hcycle' : cycle' ∈ l.cycles) (hne : cycle ≠ cycle')
    (hcaller : edge.caller ∈ cycle) (hcallee : edge.callee ∈ cycle') : edge.inCycle = false := by
  obtain ⟨hcalls, -, hin⟩ := (h.edges_iff edge).mp hedge
  have hcycle := ((h.cycles_iff cycle).mp hcycle).1
  have hcycle' := ((h.cycles_iff cycle').mp hcycle').1
  rw [← Bool.not_eq_true, hin]
  intro hback
  have hmutual : g.outline.Mutual edge.caller edge.callee := by
    rw [Outline.Mutual, calls_outline_eq]
    refine ⟨TransGen.single hcalls, ?_⟩
    have hself := ((hcycle'.mem_iff hcallee).mp hcallee).1
    rw [calls_outline_eq] at hself
    exact hself.trans_left hback
  exact hne (hcycle.eq_of_mem hcycle' ((hcycle.mem_iff hcaller).mpr hmutual) hcallee)

/-- A function on a cycle has an edge to it and an edge from it that are on a cycle. -/
theorem exists_edges_of_inCycle {row : NodeRow} (hrow : row ∈ l.nodes) (hin : row.inCycle) :
    (∃ edge ∈ l.edges, edge.caller = row.id ∧ edge.inCycle) ∧
      ∃ edge ∈ l.edges, edge.callee = row.id ∧ edge.inCycle := by
  have hself := (h.inCycle_iff row hrow).mp hin
  have hlists : l.Lists row.id := ⟨row, hrow, rfl⟩
  constructor
  · obtain ⟨x, hx, hback⟩ := TransGen.head'_iff.mp hself
    exact ⟨⟨row.id, x, true⟩, (h.edges_iff _).mpr ⟨hx, hlists, by simpa using hback⟩, rfl, rfl⟩
  · obtain ⟨x, hback, hx⟩ := TransGen.tail'_iff.mp hself
    have hlists := (h.lists_iff x row.id hx).mpr hlists
    exact ⟨⟨x, row.id, true⟩, (h.edges_iff _).mpr ⟨hx, hlists, by simpa using hback⟩, rfl, rfl⟩

/-- The edges that are on no cycle have no cycle among themselves. -/
theorem not_transGen_apart (a : String) :
    ¬TransGen (fun x y =>
      ∃ edge ∈ l.edges, edge.caller = x ∧ edge.callee = y ∧ edge.inCycle = false) a a := by
  intro hcycle
  obtain ⟨x, ⟨edge, hedge, rfl, rfl, hapart⟩, hback⟩ := TransGen.head'_iff.mp hcycle
  have hcalls : ReflTransGen g.Calls edge.callee edge.caller := by
    refine ReflTransGen.mono ?_ _ _ hback
    rintro x y ⟨edge', hedge', rfl, rfl, -⟩
    exact ((h.edges_iff edge').mp hedge').1
  rw [((h.edges_iff edge).mp hedge).2.2.mpr hcalls] at hapart
  cases hapart

end Depicts

/-- Every edge that a layout of a graph lists is a call of the graph, and with a function all its
calls are listed. An edge is on a cycle exactly if its callee leads back to its caller, or in other
words if it lies on a closed walk. So an edge between two different cycles is on none, though both
of its ends are on cycles; each function on a cycle has an edge to it and an edge from it that are
on cycles; and the edges that are on no cycle have no cycle among themselves. -/
theorem inCycle_edges_compute (steps : List CallGraph.Step) (all : Bool) :
    let g := CallGraph.empty.run steps
    let l := compute all g
    (∀ a b, g.Calls a b → l.Lists a → ∃ edge ∈ l.edges, edge.caller = a ∧ edge.callee = b) ∧
    (∀ edge ∈ l.edges, g.Calls edge.caller edge.callee ∧
      (edge.inCycle ↔ ReflTransGen g.Calls edge.callee edge.caller) ∧
      (edge.inCycle ↔ ∃ walk, g.ClosedWalk walk ∧ [edge.caller, edge.callee] <:+: walk)) ∧
    (∀ edge ∈ l.edges, ∀ cycle ∈ l.cycles, ∀ cycle' ∈ l.cycles, cycle ≠ cycle' →
      edge.caller ∈ cycle → edge.callee ∈ cycle' → edge.inCycle = false ∧
        ∃ row ∈ l.nodes, ∃ row' ∈ l.nodes, row.id = edge.caller ∧ row'.id = edge.callee ∧
          row.inCycle ∧ row'.inCycle) ∧
    (∀ row ∈ l.nodes, row.inCycle →
      (∃ edge ∈ l.edges, edge.caller = row.id ∧ edge.inCycle) ∧
        ∃ edge ∈ l.edges, edge.callee = row.id ∧ edge.inCycle) ∧
    ∀ a, ¬TransGen (fun x y => ∃ edge ∈ l.edges,
      edge.caller = x ∧ edge.callee = y ∧ edge.inCycle = false) a a := by
  intro g l
  have h : l.Depicts g := depicts_compute all g
  refine ⟨?_, ?_, ?_, fun row => h.exists_edges_of_inCycle, h.not_transGen_apart⟩
  · intro a b hab ha
    classical
    exact ⟨⟨a, b, decide (ReflTransGen g.Calls b a)⟩,
      (h.edges_iff _).mpr ⟨hab, ha, decide_eq_true_iff⟩, rfl, rfl⟩
  · intro edge hedge
    obtain ⟨hcalls, -, hin⟩ := (h.edges_iff edge).mp hedge
    exact ⟨hcalls, hin, hin.trans (CallGraph.exists_closedWalk_iff hcalls).symm⟩
  · intro edge hedge cycle hcycle cycle' hcycle' hne hcaller hcallee
    obtain ⟨⟨row, hrow, hid⟩, row', hrow', hid'⟩ := h.lists_ends hedge
    refine ⟨h.inCycle_eq_false hedge hcycle hcycle' hne hcaller hcallee,
      row, hrow, row', hrow', hid, hid', ?_, ?_⟩
    · exact (h.inCycle_iff_exists_mem hrow).mpr ⟨cycle, hcycle, by rwa [hid]⟩
    · exact (h.inCycle_iff_exists_mem hrow').mpr ⟨cycle', hcycle', by rwa [hid']⟩

/-- The theorem applies to a graph whose two cycles are joined by an edge, one of them a call of a
function by itself. -/
theorem inCycle_edges_compute_of_calls :
    let l := compute false (CallGraph.empty.run
      [.call "f" "g", .call "g" "f", .call "g" "h", .call "h" "h", .node "k" true])
    l.cycles = [["f", "g"], ["h"]] ∧ ⟨"g", "h", false⟩ ∈ l.edges ∧ ⟨"h", "h", true⟩ ∈ l.edges ∧
      ∃ row ∈ l.nodes, ∃ row' ∈ l.nodes, row.id = "g" ∧ row'.id = "h" ∧
        row.inCycle ∧ row'.inCycle := by
  intro l
  have hcycles : l.cycles = [["f", "g"], ["h"]] := by decide +kernel
  have hedge : ⟨"g", "h", false⟩ ∈ l.edges := by decide +kernel
  obtain ⟨-, -, hbetween, -, -⟩ := inCycle_edges_compute
    [.call "f" "g", .call "g" "f", .call "g" "h", .call "h" "h", .node "k" true] false
  refine ⟨hcycles, hedge, by decide +kernel,
    (hbetween _ hedge ["f", "g"] ?_ ["h"] ?_ (by decide) (by decide) (by decide)).2⟩
  · show _ ∈ l.cycles
    simp [hcycles]
  · show _ ∈ l.cycles
    simp [hcycles]

end Layout

end CallAtlas
