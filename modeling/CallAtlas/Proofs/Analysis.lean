import CallAtlas.Analysis
import CallAtlas.Proofs.Dependencies
import CallAtlas.Proofs.FileTree
import CallAtlas.Proofs.Registry

/-!
# Runs and what they read

A run succeeds exactly if it is given paths and all of them are files (`run_eq_ok_iff`), and what
it finds is a function of the outcomes of reading its files one by one. A file that is legible
gives all its definitions, any other file a failure (`examine_cases`). The registry of a run records
the definitions of the files that parse, in the order of the files (`records_run`), and its calls
lead from each registered function to those of its targets that are registered
(`dependencies_run`, `Registry.calls_resolve`).
-/

namespace CallAtlas

namespace Registry

variable {r : Registry} {targets : FunctionLiteral → NameSet} {f c n : String}

theorem contains_iff : r.contains n ↔ n ∈ r.names := by
  rw [contains, names, Std.ExtTreeMap.mem_keys, Std.ExtTreeMap.contains_iff_mem]

theorem names_ordered (r : Registry) : r.names.Pairwise (· < ·) :=
  Std.ExtTreeMap.ordered_keys.imp fun h => compare_lt_iff_lt.mp h

theorem get?_resolve (r : Registry) (targets : FunctionLiteral → NameSet) (f : String) :
    (r.resolve targets).get? f =
      (r.get? f).map fun d => (targets d.literal).filter r.contains := by
  rw [Dependencies.get?, resolve, Std.ExtTreeMap.getElem?_map]
  rfl

/-- A function calls its targets that are registered. -/
theorem calls_resolve : (r.resolve targets).Calls f c ↔
    ∃ d, r.get? f = some d ∧ c ∈ targets d.literal ∧ c ∈ r.names := by
  have hcalls : (r.resolve targets).Calls f c ↔
      ∃ names, (r.resolve targets).get? f = some names ∧ c ∈ names := Iff.rfl
  rw [hcalls, get?_resolve]
  simp [contains_iff]

end Registry

/-- The definitions of a file, none if it does not parse. -/
def SourceFile.found (file : SourceFile) : List Definition :=
  file.extract.toOption.getD []

theorem SourceFile.found_of_parse {file : SourceFile} {script : Script}
    (h : Script.parse file.text = .ok script) : file.found = definitions file.path script := by
  simp [found, extract, h, bind, Except.bind, pure, Except.pure, Except.toOption]

namespace Analysis

variable {config : Config} {tree : FileTree} {paths : List Path} {a : Analysis}

/-! ## Outcomes -/

/-- The definitions in the files that parse. -/
def definitionsOf (outcomes : List (Except Failure (SourceFile × List Definition))) :
    List Definition :=
  (outcomes.filterMap fun outcome => outcome.toOption).flatMap Prod.snd

theorem registry_ofOutcomes (config : Config)
    (outcomes : List (Except Failure (SourceFile × List Definition))) :
    (ofOutcomes config outcomes).registry = .ofDefinitions (definitionsOf outcomes) := by
  rw [definitionsOf, List.flatMap_def, ← Registry.foldl_bindAll, List.foldl_map]
  rfl

/-- The file at a path can be read and its text parses. -/
def legible (tree : FileTree) (p : Path) : Bool :=
  match tree.readText p with
  | .ok text => (Script.parse text).toOption.isSome
  | .error _ => false

/-- A legible path gives its file with all its definitions, any other path a failure. -/
theorem examine_cases (tree : FileTree) (p : Path) :
    (legible tree p = true ∧ ∃ text script, tree.readText p = .ok text ∧
      Script.parse text = .ok script ∧
        examine tree p = .ok (⟨p, text⟩, SourceFile.definitions p script)) ∨
    (legible tree p = false ∧ ∃ reason, examine tree p = .error ⟨p, reason⟩) := by
  unfold legible examine SourceFile.extract
  cases tree.readText p with
  | error e => exact Or.inr ⟨rfl, _, rfl⟩
  | ok text =>
    show ((Script.parse text).toOption.isSome = true ∧ _) ∨
      ((Script.parse text).toOption.isSome = false ∧ _)
    cases hparse : Script.parse text with
    | error e =>
      refine Or.inr ⟨rfl, e.message text, ?_⟩
      simp [hparse, bind, Except.bind, Except.mapError]
    | ok script =>
      refine Or.inl ⟨rfl, text, script, rfl, hparse, ?_⟩
      simp [hparse, bind, Except.bind, Except.mapError, pure, Except.pure]

/-- A file that is read and parsed comes with its definitions. -/
theorem found_of_examine {path : Path} {file : SourceFile} {ds : List Definition}
    (h : examine tree path = .ok (file, ds)) : file.found = ds := by
  rcases examine_cases tree path with ⟨-, text, script, -, hparse, hok⟩ | ⟨-, reason, herror⟩
  · rw [hok] at h
    cases h
    exact SourceFile.found_of_parse hparse
  · rw [herror] at h
    cases h

/-- The definitions that are found are those of the files that parse. -/
theorem definitionsOf_examine (config : Config) (tree : FileTree) (paths : List Path) :
    definitionsOf (paths.map (examine tree)) =
      (ofOutcomes config (paths.map (examine tree))).files.flatMap SourceFile.found := by
  have hfound : ∀ parsed ∈ (paths.map (examine tree)).filterMap (fun outcome => outcome.toOption),
      parsed.2 = SourceFile.found parsed.1 := by
    rintro ⟨file, ds⟩ hparsed
    obtain ⟨outcome, houtcome, hok⟩ := List.mem_filterMap.mp hparsed
    obtain ⟨path, -, rfl⟩ := List.mem_map.mp houtcome
    have hexamine : examine tree path = .ok (file, ds) := by
      cases hcase : examine tree path with
      | error e =>
        rw [hcase] at hok
        cases hok
      | ok parsed =>
        rw [hcase] at hok
        exact congrArg Except.ok (Option.some.inj hok)
    exact (found_of_examine hexamine).symm
  rw [definitionsOf, ofOutcomes, List.flatMap_map]
  exact List.flatMap_congr hfound

/-! ## Runs -/

theorem checkInputs_eq_ok_iff {ps : List Path} : checkInputs tree paths = .ok ps ↔
    paths ≠ [] ∧ (∀ p ∈ paths, tree.isFile p) ∧ ps = distinct paths := by
  unfold checkInputs
  by_cases hne : paths = []
  · simp [hne]
  rw [if_neg hne]
  have hrefused : ∀ q ∈ paths, ¬tree.isFile q → ∀ e : InputError,
      (.error e = (.ok ps : Except InputError (List Path)) ↔
        paths ≠ [] ∧ (∀ p ∈ paths, tree.isFile p) ∧ ps = distinct paths) := by
    intro q hq hfile e
    refine iff_of_false (by simp) ?_
    rintro ⟨-, hfiles, -⟩
    exact hfile (hfiles q hq)
  cases habsent : paths.filter (fun p => !tree.holds p) with
  | cons q qs =>
    obtain ⟨hq, hholds⟩ := List.mem_filter.mp (habsent ▸ List.mem_cons_self : q ∈ _)
    refine hrefused q hq (fun hfile => ?_) _
    simp [FileTree.holds_of_isFile hfile] at hholds
  | nil =>
    cases hfind : paths.find? (fun p => !tree.isFile p) with
    | some q =>
      have hfile := List.find?_some hfind
      exact hrefused q (List.mem_of_find?_eq_some hfind) (by simpa using hfile) _
    | none =>
      have hfiles : ∀ p ∈ paths, tree.isFile p := by simpa using hfind
      show .ok (distinct paths) = (.ok ps : Except InputError (List Path)) ↔ _
      rw [Except.ok.injEq, eq_comm]
      exact ⟨fun hps => ⟨hne, hfiles, hps⟩, fun h => h.2.2⟩

/-- A run succeeds if it is given paths and all of them are files. It then reads each of them
once. -/
theorem run_eq_ok_iff : run config tree paths = .ok a ↔
    paths ≠ [] ∧ (∀ p ∈ paths, tree.isFile p) ∧
      a = ofOutcomes config ((distinct paths).map (examine tree)) := by
  cases hcheck : checkInputs tree paths with
  | error e =>
    have hnot : ¬(paths ≠ [] ∧ ∀ p ∈ paths, tree.isFile p) := by
      rintro ⟨hne, hfiles⟩
      rw [checkInputs_eq_ok_iff.mpr ⟨hne, hfiles, rfl⟩] at hcheck
      cases hcheck
    rw [← and_assoc]
    refine iff_of_false ?_ fun h => hnot h.1
    simp [run, hcheck, bind, Except.bind]
  | ok ps =>
    obtain ⟨hne, hfiles, rfl⟩ := checkInputs_eq_ok_iff.mp hcheck
    rw [run, hcheck]
    show .ok (ofOutcomes config _) = (.ok a : Except InputError Analysis) ↔ _
    rw [Except.ok.injEq, eq_comm]
    exact ⟨fun ha => ⟨hne, hfiles, ha⟩, fun h => h.2.2⟩

theorem exists_run (hne : paths ≠ []) (hfiles : ∀ p ∈ paths, tree.isFile p) :
    ∃ a, run config tree paths = .ok a :=
  ⟨_, run_eq_ok_iff.mpr ⟨hne, hfiles, rfl⟩⟩

theorem registry_run (h : run config tree paths = .ok a) :
    a.registry = .ofDefinitions (a.files.flatMap SourceFile.found) := by
  obtain ⟨-, -, rfl⟩ := run_eq_ok_iff.mp h
  rw [registry_ofOutcomes, ← definitionsOf_examine]

/-- The registry of a run records the definitions of its files. -/
theorem records_run (h : run config tree paths = .ok a) :
    a.registry.Records (a.files.flatMap SourceFile.found) := by
  rw [registry_run h]
  exact Registry.records_ofDefinitions _

theorem dependencies_run (h : run config tree paths = .ok a) :
    a.dependencies = a.registry.resolve (FunctionLiteral.targets (.ofList config.higherOrder)) := by
  obtain ⟨-, -, rfl⟩ := run_eq_ok_iff.mp h
  rfl

end Analysis

end CallAtlas
