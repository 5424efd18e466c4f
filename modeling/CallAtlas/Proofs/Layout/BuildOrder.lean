import CallAtlas.Layout.Dot
import CallAtlas.Proofs.CallGraph.Growth
import CallAtlas.Proofs.Layout

/-!
# Layouts and the order of building

The places of nodes and edges in a graph depend on the order in which they were added. The
outline forgets them: graphs with the same nodes and the same calls between names have the same
outline (`outline_eq_of_mem_iff`), and so the same layout and the same drawing.

Steps that add nodes and calls lead to the same nodes and calls in every order, and a step that
is taken again adds nothing. `alike_of_same_nodes_or_steps` states both for the graphs of two
runs.
-/

namespace CallAtlas

namespace CallGraph

variable {g h : CallGraph}

/-- Graphs with the same nodes and the same calls have the same outline. -/
theorem outline_eq_of_mem_iff (hnodes : ∀ node, node ∈ g.nodes ↔ node ∈ h.nodes)
    (hcalls : ∀ x y, g.Calls x y ↔ h.Calls x y) : g.outline = h.outline := by
  have hfunctions : g.outline.functions = h.outline.functions := by
    refine Std.ExtTreeMap.ext_getElem? fun x => Option.ext fun isDefined => ?_
    rw [functions_outline_iff, functions_outline_iff, hnodes]
  have hnone : (⟨∅⟩ : Dependencies).EveryCallerCalls := by
    intro caller names hget
    simp at hget
  have hsame : g.outline.calls = h.outline.calls := by
    refine Dependencies.eq_of_calls_iff (.foldl_addCall _ hnone) (.foldl_addCall _ hnone) ?_
    intro x y
    exact calls_outline.trans ((hcalls x y).trans calls_outline.symm)
  calc g.outline = ⟨g.outline.functions, g.outline.calls⟩ := rfl
    _ = ⟨h.outline.functions, h.outline.calls⟩ := by rw [hfunctions, hsame]

/-- The graphs have the same layouts, and these are drawn by the same text. -/
def Alike (g h : CallGraph) : Prop :=
  ∀ all, Layout.compute all g = Layout.compute all h ∧
    ∀ graphName, Dot.render graphName (Layout.compute all g) =
      Dot.render graphName (Layout.compute all h)

theorem alike_of_outline_eq (heq : g.outline = h.outline) : g.Alike h := by
  intro all
  have hlayout : Layout.compute all g = Layout.compute all h := by
    unfold Layout.compute
    rw [heq]
  exact ⟨hlayout, fun graphName => by rw [hlayout]⟩

/-- Two runs lead to the same layouts and the same drawings if their graphs have the same nodes
and the same calls between names. This is so if both runs add nodes and calls only and take the
same steps, whatever the order they take them in and however often they take each. -/
theorem alike_of_same_nodes_or_steps (steps steps' : List Step) :
    ((∀ node, node ∈ (empty.run steps).nodes ↔ node ∈ (empty.run steps').nodes) →
      (∀ x y, (empty.run steps).Calls x y ↔ (empty.run steps').Calls x y) →
        (empty.run steps).Alike (empty.run steps')) ∧
    ((∀ s ∈ steps, s.IsAddition) → (∀ s, s ∈ steps ↔ s ∈ steps') →
      (empty.run steps).Alike (empty.run steps')) := by
  have hsame : (∀ node, node ∈ (empty.run steps).nodes ↔ node ∈ (empty.run steps').nodes) →
      (∀ x y, (empty.run steps).Calls x y ↔ (empty.run steps').Calls x y) →
        (empty.run steps).Alike (empty.run steps') := fun hnodes hcalls =>
    alike_of_outline_eq (outline_eq_of_mem_iff hnodes hcalls)
  refine ⟨hsame, fun hadd hmem => ?_⟩
  obtain ⟨hnodes, hcalls⟩ := run_iff_of_mem_iff hadd hmem
  exact hsame hnodes hcalls

/-- The theorem applies to steps in another order and with repetitions, after which nodes and
edges stand at other places. -/
theorem alike_of_same_nodes_or_steps_of_calls :
    let steps : List Step :=
      [.call "f" "g", .node "h" true, .call "g" "f", .node "g" true, .call "h" "h"]
    let steps' : List Step :=
      [.call "h" "h", .node "g" true, .call "g" "f", .call "h" "h", .call "f" "g", .node "h" true,
        .node "g" true]
    (empty.run steps).nodes ≠ (empty.run steps').nodes ∧
      (empty.run steps).edges ≠ (empty.run steps').edges ∧
      (empty.run steps).Alike (empty.run steps') := by
  intro steps steps'
  refine ⟨by decide, by decide, (alike_of_same_nodes_or_steps steps steps').2 ?_ ?_⟩
  · simp [steps, Step.IsAddition]
  · simp only [steps, steps', List.mem_cons, List.not_mem_nil]
    tauto

end CallGraph

end CallAtlas
