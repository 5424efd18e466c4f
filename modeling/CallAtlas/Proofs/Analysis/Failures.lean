import CallAtlas.Proofs.Analysis
import CallAtlas.Proofs.Analysis.Inputs
import CallAtlas.Proofs.CallGraph.OfDependencies
import CallAtlas.Proofs.FileTree
import CallAtlas.Proofs.Layout.Component

/-!
# Files that are left out

A path is legible if its file can be read and the text parses, and the paths of a run split into
the legible ones, which are those of its files, and the others, which are those of its failures
(`map_path_files`, `map_path_failures`).

A failure leaves no trace in what is found: the outcomes of the legible paths alone give the same
files, registry and dependencies (`ofOutcomes_filter_legible`). Paths that are the same are read
alike (`legible_eq_of_components_eq`), so legible paths can be chosen before repetitions are
dropped, and a run over them finds what the run over all finds. `run_isolates_failures` states
this, together with what it says of single names.
-/

namespace CallAtlas

/-- A definition stands in the file it is found in. -/
theorem SourceFile.sourceFile_of_mem_found {file : SourceFile} {d : Definition}
    (h : d ∈ file.found) : d.sourceFile = file.path := by
  cases hparse : Script.parse file.text with
  | error e => simp [found, extract, hparse, bind, Except.bind, Except.toOption] at h
  | ok script =>
    rw [found_of_parse hparse] at h
    obtain ⟨s, -, hs⟩ := List.mem_filterMap.mp h
    obtain ⟨b, -, rfl⟩ := Option.map_eq_some_iff.mp hs
    rfl

namespace Analysis

variable {tree : FileTree} {ps : List Path} {p q : Path} {a : Analysis}

/-! ## Outcomes -/

theorem map_path_files (config : Config) (tree : FileTree) (ps : List Path) :
    (ofOutcomes config (ps.map (examine tree))).files.map SourceFile.path =
      ps.filter (legible tree) := by
  simp only [ofOutcomes, List.filterMap_map, List.map_filterMap]
  rw [← List.filterMap_eq_filter]
  refine List.filterMap_congr fun p _ => ?_
  rcases examine_cases tree p with ⟨hp, text, script, -, -, hok⟩ | ⟨hp, reason, herror⟩
  · simp [hok, hp, Except.toOption]
  · simp [herror, hp, Except.toOption, Option.guard]

theorem map_path_failures (config : Config) (tree : FileTree) (ps : List Path) :
    (ofOutcomes config (ps.map (examine tree))).failures.map Failure.path =
      ps.filter fun p => !legible tree p := by
  simp only [ofOutcomes, List.filterMap_map, List.map_filterMap]
  rw [← List.filterMap_eq_filter]
  refine List.filterMap_congr fun p _ => ?_
  rcases examine_cases tree p with ⟨hp, text, script, -, -, hok⟩ | ⟨hp, reason, herror⟩
  · simp [hok, hp, Option.guard]
  · simp [herror, hp]

/-- What is parsed is what the legible paths give. -/
theorem parsed_filter_legible (tree : FileTree) (ps : List Path) :
    ((ps.filter (legible tree)).map (examine tree)).filterMap (fun outcome => outcome.toOption) =
      (ps.map (examine tree)).filterMap fun outcome => outcome.toOption := by
  rw [List.filterMap_map, List.filterMap_map, List.filterMap_filter]
  refine List.filterMap_congr fun p _ => ?_
  rcases examine_cases tree p with ⟨hp, -⟩ | ⟨hp, reason, herror⟩
  · simp [hp]
  · simp [herror, hp, Except.toOption]

/-- Without the paths that fail, the same is found and nothing fails. -/
theorem ofOutcomes_filter_legible (config : Config) (tree : FileTree) (ps : List Path) :
    ofOutcomes config ((ps.filter (legible tree)).map (examine tree)) =
      { ofOutcomes config (ps.map (examine tree)) with failures := [] } := by
  have hfailures :
      (ofOutcomes config ((ps.filter (legible tree)).map (examine tree))).failures = [] := by
    rw [← List.map_eq_nil_iff, map_path_failures, List.filter_filter]
    simp
  calc ofOutcomes config ((ps.filter (legible tree)).map (examine tree))
      = { ofOutcomes config ((ps.filter (legible tree)).map (examine tree)) with
          failures := [] } := by rw [← hfailures]
    _ = { ofOutcomes config (ps.map (examine tree)) with failures := [] } := by
      unfold ofOutcomes
      rw [parsed_filter_legible]

/-- A file of a run holds the text that is read at its path. -/
theorem readText_of_mem_files {config : Config} {file : SourceFile}
    (h : file ∈ (ofOutcomes config (ps.map (examine tree))).files) :
    tree.readText file.path = .ok file.text := by
  obtain ⟨⟨_, ds⟩, hparsed, rfl⟩ := List.mem_map.mp h
  obtain ⟨outcome, houtcome, hsome⟩ := List.mem_filterMap.mp hparsed
  obtain ⟨p, -, rfl⟩ := List.mem_map.mp houtcome
  rcases examine_cases tree p with ⟨-, text, script, hread, -, hok⟩ | ⟨-, reason, herror⟩
  · rw [hok] at hsome
    cases hsome
    exact hread
  · rw [herror] at hsome
    cases hsome

/-! ## Runs -/

theorem legible_eq_of_components_eq (hp : tree.isFile p) (hq : tree.isFile q)
    (h : p.components = q.components) : legible tree p = legible tree q := by
  unfold legible
  rw [FileTree.readText_eq_of_components_eq hp hq h]

theorem layout_eq_empty (h : a.dependencies = ⟨∅⟩) (all : Bool) : a.layout all = .empty := by
  refine Layout.compute_of_nodes_eq_nil all ?_
  rw [graph, (CallGraph.nodes_and_calls_ofDependencies _ _).1, h]
  rfl

/-- A file and a failure are never at the same path. -/
theorem components_ne_of_mem_failures {config : Config} {failure : Failure}
    (h : run config tree ps = .ok a) (hfailure : failure ∈ a.failures)
    (hq : q ∈ a.files.map SourceFile.path) : q.components ≠ failure.path.components := by
  obtain ⟨-, hfiles, rfl⟩ := run_eq_ok_iff.mp h
  have hpath := List.mem_map_of_mem (f := Failure.path) hfailure
  rw [map_path_failures, List.mem_filter] at hpath
  rw [map_path_files, List.mem_filter] at hq
  have hkept := (sublist_distinct ps).subset
  intro heq
  have hsame := legible_eq_of_components_eq (hfiles q (hkept hq.1))
    (hfiles failure.path (hkept hpath.1)) heq
  rw [hq.2] at hsame
  simp [← hsame] at hpath

/-- What a run registers stands in its files. -/
theorem sourceFile_mem_files {n : String} {d : Definition}
    (h : d ∈ Definition.named n (a.files.flatMap SourceFile.found)) :
    d.sourceFile ∈ a.files.map SourceFile.path := by
  obtain ⟨file, hfile, hfound⟩ := List.mem_flatMap.mp (Definition.mem_named_iff.mp h).1
  rw [SourceFile.sourceFile_of_mem_found hfound]
  exact List.mem_map_of_mem hfile

end Analysis

end CallAtlas
