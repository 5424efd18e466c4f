import CallAtlas.Proofs.Analysis
import CallAtlas.Proofs.CallTarget.Rearrangement

/-!
# Higher-order functions of a configuration

A name that a call mentions under two sets of higher-order functions together is mentioned under
one of them (`Expr.mentions_union_iff`): whether a callee is of higher order is asked of its name
alone, even where that name is local. What is local to a literal does not depend on higher-order
functions, so the targets under two sets are those under the one and those under the other
(`FunctionLiteral.targets_union`). Hence a larger set has all the targets of a smaller one, and only
the members of a list count.

A run looks at the higher-order functions only to resolve calls (`run_eq_map`).
`targets_append_and_run_of_subset` states both.
-/

namespace CallAtlas

namespace Expr

variable {n : String} {higher more : NameSet}

theorem mentions_union_iff {e : Expr} :
    Mentions (higher ∪ more) n e ↔ Mentions higher n e ∨ Mentions more n e := by
  cases e with
  | call callee args =>
    simp only [Mentions, Std.ExtTreeSet.mem_union_iff, or_and_right, exists_or]
    rw [or_or_distrib_left]
  | _ => simp [Mentions]

/-- The targets under two sets are those under the one and those under the other. What is local
where a name is mentioned does not depend on the set. -/
theorem mem_targets_union_iff (e : Expr) (locals : NameSet) :
    n ∈ e.targets (higher ∪ more) locals ↔
      n ∈ e.targets higher locals ∨ n ∈ e.targets more locals := by
  simp only [mem_targets_iff, mentions_union_iff, or_and_right, and_or_left, exists_or]

end Expr

namespace FunctionLiteral

variable {n : String} {higher more : NameSet}

theorem targets_union (higher more : NameSet) (f : FunctionLiteral) :
    f.targets (higher ∪ more) = f.targets higher ∪ f.targets more := by
  refine Std.ExtTreeSet.ext_mem fun n => ?_
  rw [Std.ExtTreeSet.mem_union_iff, targets, targets, targets, mem_targetsWithin_iff_targets,
    mem_targetsWithin_iff_targets, mem_targetsWithin_iff_targets, Expr.mem_targets_union_iff]

theorem mem_targets_of_subset (h : ∀ x ∈ higher, x ∈ more) (f : FunctionLiteral)
    (hn : n ∈ f.targets higher) : n ∈ f.targets more := by
  have hmore : higher ∪ more = more := by
    refine Std.ExtTreeSet.ext_mem fun x => ?_
    rw [Std.ExtTreeSet.mem_union_iff, or_iff_right_of_imp (h x)]
  rw [← hmore, targets_union]
  exact Std.ExtTreeSet.mem_union_iff.mpr (Or.inl hn)

end FunctionLiteral

namespace NameSet

theorem ofList_append (hs ks : List String) :
    (.ofList (hs ++ ks) : NameSet) = .ofList hs ∪ .ofList ks := by
  refine Std.ExtTreeSet.ext_mem fun x => ?_
  simp only [Std.ExtTreeSet.mem_union_iff, mem_ofList_iff, List.mem_append]

end NameSet

namespace Analysis

/-- Two configurations give analyses that differ only in how calls are resolved. -/
theorem run_eq_map (config config' : Config) (tree : FileTree) (paths : List Path) :
    run config' tree paths = (run config tree paths).map fun a =>
      { a with
        dependencies := a.registry.resolve
          (FunctionLiteral.targets (.ofList config'.higherOrder)) } := by
  unfold run
  cases checkInputs tree paths with
  | error e => rfl
  | ok kept => rfl

/-- A function that calls some functions under a set of higher-order functions calls them under
every larger one. -/
theorem exists_get?_resolve_of_subset {r : Registry} {higher more : NameSet}
    (h : ∀ x ∈ higher, x ∈ more) {caller : String} {callees : NameSet}
    (hget : (r.resolve (FunctionLiteral.targets higher)).get? caller = some callees) :
    ∃ callees', (r.resolve (FunctionLiteral.targets more)).get? caller = some callees' ∧
      ∀ c ∈ callees, c ∈ callees' := by
  rw [Registry.get?_resolve] at hget
  obtain ⟨d, hd, rfl⟩ := Option.map_eq_some_iff.mp hget
  refine ⟨(d.literal.targets more).filter r.contains, ?_, fun c hc => ?_⟩
  · rw [Registry.get?_resolve, hd]
    rfl
  · simp only [Std.ExtTreeSet.mem_filter, Std.ExtTreeSet.get_eq] at hc ⊢
    obtain ⟨hc, hregistered⟩ := hc
    exact ⟨FunctionLiteral.mem_targets_of_subset h d.literal hc, hregistered⟩

/-- The higher-order functions of a configuration add up. The targets of a literal under two lists
together are those under the first and those under the second, so lists with the same members give
the same targets, and a list that has all members of another gives all its targets. A run fails
under one configuration as it fails under the other, and if it succeeds, it finds the same files,
failures, definitions and duplicates under both and registers calls for the same functions. If all
higher-order functions of the first are some of the second, every function keeps its calls. -/
theorem targets_append_and_run_of_subset (hs ks : List String) :
    (∀ f : FunctionLiteral,
      f.targets (.ofList (hs ++ ks)) = f.targets (.ofList hs) ∪ f.targets (.ofList ks) ∧
      ((∀ x, x ∈ hs ↔ x ∈ ks) → f.targets (.ofList hs) = f.targets (.ofList ks)) ∧
      (hs ⊆ ks → ∀ n ∈ f.targets (.ofList hs), n ∈ f.targets (.ofList ks))) ∧
    ∀ (config : Config) (tree : FileTree) (paths : List Path),
      (∀ e, run { config with higherOrder := hs } tree paths = .error e ↔
        run { config with higherOrder := ks } tree paths = .error e) ∧
      ∀ a, run { config with higherOrder := hs } tree paths = .ok a →
        ∃ b, run { config with higherOrder := ks } tree paths = .ok b ∧
          b.files = a.files ∧ b.failures = a.failures ∧ b.registry = a.registry ∧
          (∀ caller, b.dependencies.get? caller = none ↔ a.dependencies.get? caller = none) ∧
          (hs ⊆ ks → ∀ caller callees, a.dependencies.get? caller = some callees →
            ∃ callees', b.dependencies.get? caller = some callees' ∧
              ∀ c ∈ callees, c ∈ callees') := by
  have hsubset : hs ⊆ ks → ∀ x ∈ (.ofList hs : NameSet), x ∈ (.ofList ks : NameSet) := by
    intro h x hx
    rw [NameSet.mem_ofList_iff] at hx ⊢
    exact h hx
  refine ⟨fun f => ⟨?_, fun h => ?_, fun h n => ?_⟩, fun config tree paths => ⟨fun e => ?_, ?_⟩⟩
  · rw [NameSet.ofList_append, FunctionLiteral.targets_union]
  · rw [NameSet.ofList_eq_of_mem_iff h]
  · exact FunctionLiteral.mem_targets_of_subset (hsubset h) f
  · rw [run_eq_map { config with higherOrder := hs } { config with higherOrder := ks }]
    cases run { config with higherOrder := hs } tree paths <;> simp [Except.map]
  · intro a ha
    have hdependencies := dependencies_run ha
    have hb := run_eq_map { config with higherOrder := hs } { config with higherOrder := ks }
      tree paths
    rw [ha] at hb
    refine ⟨_, hb, rfl, rfl, rfl, fun caller => ?_, fun h caller callees hget => ?_⟩
    · rw [hdependencies, Registry.get?_resolve, Registry.get?_resolve, Option.map_eq_none_iff,
        Option.map_eq_none_iff]
    · rw [hdependencies] at hget
      exact exists_get?_resolve_of_subset (hsubset h) hget

/-- The theorem applies to a function that calls a higher-order function by the name of one of its
parameters, which only the longer list has, and to one whose calls both lists find. -/
theorem targets_append_and_run_of_subset_of_text :
    let tree := FileTree.ofTexts
      [("a.R", "f <- function(xs, sapply) sapply(xs, g)\ng <- function(xs) lapply(xs, 'f')\n")]
    let hs := ["lapply"]
    let ks := ["sapply", "lapply", "sapply"]
    let calls (a : Analysis) := a.dependencies.entries
    hs ⊆ ks ∧ ∃ a b, run { higherOrder := hs } tree [⟨"a.R"⟩] = .ok a ∧
      run { higherOrder := ks } tree [⟨"a.R"⟩] = .ok b ∧ b.registry = a.registry ∧
      calls a = [("f", []), ("g", ["f"])] ∧ calls b = [("f", ["g"]), ("g", ["f"])] ∧
      ∀ callees, a.dependencies.get? "g" = some callees →
        ∃ callees', b.dependencies.get? "g" = some callees' ∧ ∀ c ∈ callees, c ∈ callees' := by
  intro tree hs ks calls
  have hsubset : hs ⊆ ks := by decide
  have hold : (run { higherOrder := hs } tree [⟨"a.R"⟩]).toOption.map calls =
      some [("f", []), ("g", ["f"])] := by decide +kernel
  have hnew : (run { higherOrder := ks } tree [⟨"a.R"⟩]).toOption.map calls =
      some [("f", ["g"]), ("g", ["f"])] := by decide +kernel
  obtain ⟨a, ha⟩ : ∃ a, run { higherOrder := hs } tree [⟨"a.R"⟩] = .ok a :=
    exists_run (by simp) (by decide +kernel)
  obtain ⟨b, hb, -, -, hregistry, -, hcallees⟩ :=
    ((targets_append_and_run_of_subset hs ks).2 {} tree [⟨"a.R"⟩]).2 a ha
  rw [ha] at hold
  rw [hb] at hnew
  exact ⟨hsubset, a, b, ha, hb, hregistry, Option.some.inj hold, Option.some.inj hnew,
    hcallees hsubset "g"⟩

end Analysis

end CallAtlas
