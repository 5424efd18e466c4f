import CallAtlas.Cli.Run
import CallAtlas.Proofs.Analysis.InputErrors
import CallAtlas.Proofs.FileTree.Scan

/-!
# Inputs with folders among them

Expanding replaces each folder by the files found in it and keeps all else. So no folder is left
(`find?_ne_folder_of_mem_expand`), and paths without a folder among them stay as they are
(`expand_eq_self`), which makes expanding a closure. What is found in a folder leads to files, so
the paths that lead nowhere are the same before and after (`filter_missing_expand`), and nothing is
left exactly if all inputs are folders in which nothing is found (`expand_eq_nil_iff`).

The reasons to refuse the expanded paths are thus told from the inputs themselves. The command
reports an analysis that fails with just these reasons (`Cli.execute_eq_analysisFailed_iff`).
`expand_closed_and_run_expand` states the result.
-/

namespace CallAtlas

namespace FileTree

variable {t : FileTree} {extensions : NameSet} {inputs : List Path} {p : Path}

/-! ## Expansion -/

theorem expand_append (t : FileTree) (extensions : NameSet) (xs ys : List Path) :
    t.expand extensions (xs ++ ys) = t.expand extensions xs ++ t.expand extensions ys :=
  List.flatMap_append

theorem expand_cons_of_folder (h : t.find? p = some .folder) :
    t.expand extensions (p :: inputs) = t.scan extensions p ++ t.expand extensions inputs := by
  rw [expand, List.flatMap_cons, if_pos (isFolder_iff.mpr h), expand]

theorem expand_cons_of_ne (h : t.find? p ≠ some .folder) :
    t.expand extensions (p :: inputs) = p :: t.expand extensions inputs := by
  rw [expand, List.flatMap_cons, if_neg (mt isFolder_iff.mp h), expand, List.singleton_append]

theorem find?_ne_folder_of_mem_expand : ∀ {inputs : List Path},
    p ∈ t.expand extensions inputs → t.find? p ≠ some .folder
  | input :: inputs, hp => by
    by_cases hinput : t.find? input = some .folder
    · rw [expand_cons_of_folder hinput] at hp
      rcases List.mem_append.mp hp with hp | hp
      · obtain ⟨content, hfile⟩ := find?_of_mem_scan hp
        simp [hfile]
      · exact find?_ne_folder_of_mem_expand hp
    · rw [expand_cons_of_ne hinput] at hp
      rcases List.mem_cons.mp hp with rfl | hp
      · exact hinput
      · exact find?_ne_folder_of_mem_expand hp

theorem expand_eq_self : ∀ {ps : List Path}, (∀ p ∈ ps, t.find? p ≠ some .folder) →
    t.expand extensions ps = ps
  | [], _ => rfl
  | p :: ps, h => by
    obtain ⟨hp, hps⟩ := List.forall_mem_cons.mp h
    rw [expand_cons_of_ne hp, expand_eq_self hps]

/-- The paths that lead nowhere are those of the inputs. -/
theorem filter_missing_expand : ∀ inputs : List Path,
    (t.expand extensions inputs).filter (fun p => (t.find? p).isNone) =
      inputs.filter fun p => (t.find? p).isNone
  | [] => rfl
  | input :: inputs => by
    by_cases hinput : t.find? input = some .folder
    · have hfound : (t.scan extensions input).filter (fun p => (t.find? p).isNone) = [] := by
        refine List.filter_eq_nil_iff.mpr fun p hp => ?_
        obtain ⟨content, hfile⟩ := find?_of_mem_scan hp
        simp [hfile]
      rw [expand_cons_of_folder hinput, List.filter_append, hfound, List.nil_append,
        filter_missing_expand inputs, List.filter_cons_of_neg (by simp [hinput])]
    · rw [expand_cons_of_ne hinput, List.filter_cons, List.filter_cons,
        filter_missing_expand inputs]

/-- Nothing is left if all inputs are folders in which nothing is found. -/
theorem expand_eq_nil_iff : ∀ {inputs : List Path}, t.expand extensions inputs = [] ↔
    ∀ p ∈ inputs, t.find? p = some .folder ∧ ∀ q, ¬t.Found extensions p q
  | [] => by simp [expand]
  | input :: inputs => by
    rw [List.forall_mem_cons, ← expand_eq_nil_iff]
    by_cases hinput : t.find? input = some .folder
    · rw [expand_cons_of_folder hinput, List.append_eq_nil_iff, List.eq_nil_iff_forall_not_mem]
      simp only [mem_scan_iff, hinput, true_and]
    · rw [expand_cons_of_ne hinput]
      simp [hinput]

end FileTree

namespace Cli

variable {o : Options} {tree : FileTree} {config : Config}

/-- The command reports that the analysis failed if it does, with the wording of its reason.
Otherwise only writing the report can fail, and that has a heading of its own. -/
theorem execute_eq_analysisFailed_iff (h : configOf o tree = .ok config) (cause : String) :
    execute o tree = .error ⟨"analysis failed", cause⟩ ↔
      ∃ e, Analysis.run config tree (tree.expand (.ofList config.extensions) o.inputs) = .error e ∧
        e.message = cause := by
  simp only [execute, h, bind, Except.bind]
  cases Analysis.run config tree (tree.expand (.ofList config.extensions) o.inputs) with
  | error e => simp [Except.mapError]
  | ok a =>
    have hheading : ∀ path : String, "failed to write " ++ path ≠ "analysis failed" := by
      intro path heq
      have hfirst := congrArg (fun text => text.toList.head?) heq
      simp at hfirst
    refine iff_of_false (fun hfail => ?_) (by simp)
    simp only [Except.mapError] at hfail
    split at hfail
    · cases hfail
    · split at hfail
      · cases hfail
      · exact hheading _ (congrArg RunError.heading (Except.error.inj hfail))

end Cli

namespace Analysis

/-! ## Runs -/

/-- Expanding two lists of inputs one after the other is expanding them together. It leaves no
folder, so expanding twice is expanding once. A run over the expanded inputs is never refused for a
path that is no file. It is refused for paths that lead nowhere exactly if some inputs do, and it
lists these inputs; and for want of paths exactly if every input is a folder in which nothing is
found. The command runs the analysis on its expanded inputs, and it reports that the analysis failed
with a cause exactly if that is the wording of the reason. -/
theorem expand_closed_and_run_expand (t : FileTree) (extensions : NameSet) (inputs : List Path) :
    (∀ more, t.expand extensions (inputs ++ more) =
      t.expand extensions inputs ++ t.expand extensions more) ∧
    (∀ p ∈ t.expand extensions inputs, t.find? p ≠ some .folder) ∧
    t.expand extensions (t.expand extensions inputs) = t.expand extensions inputs ∧
    (∀ config : Config,
      (∀ p, run config t (t.expand extensions inputs) ≠ .error (.notFile p)) ∧
      (∀ absent, run config t (t.expand extensions inputs) = .error (.missing absent) ↔
        absent ≠ [] ∧ absent = inputs.filter fun p => (t.find? p).isNone) ∧
      (run config t (t.expand extensions inputs) = .error .noInputs ↔
        ∀ p ∈ inputs, t.find? p = some .folder ∧ ∀ q, ¬t.Found extensions p q)) ∧
    ∀ (o : Cli.Options) (config : Config), Cli.configOf o t = .ok config → ∀ cause,
      Cli.execute o t = .error ⟨"analysis failed", cause⟩ ↔
        ∃ e, run config t (t.expand (.ofList config.extensions) o.inputs) = .error e ∧
          e.message = cause := by
  have hfolder : ∀ p ∈ t.expand extensions inputs, t.find? p ≠ some .folder :=
    fun p => FileTree.find?_ne_folder_of_mem_expand
  refine ⟨t.expand_append extensions inputs, hfolder, FileTree.expand_eq_self hfolder,
    fun config => ⟨fun p hrun => ?_, fun absent => ?_, ?_⟩,
    fun o config => Cli.execute_eq_analysisFailed_iff⟩
  · obtain ⟨-, before, after, hpaths, hp, -⟩ := run_eq_error_iff.mp hrun
    exact hfolder p (by simp [hpaths]) hp
  · rw [run_eq_error_iff, InputError.Arises, FileTree.filter_missing_expand]
  · rw [run_eq_error_iff, InputError.Arises, FileTree.expand_eq_nil_iff]

/-- The theorem applies to a folder in two spellings, one that holds no file with the extension, a
file, and a path that leads nowhere. -/
theorem expand_closed_and_run_expand_of_texts :
    let t := FileTree.ofTexts [("d/a.R", "f <- function() 1\n"), ("e/n.txt", ""), ("b.txt", "")]
    let extensions : NameSet := .ofList ["R", "r"]
    let inputs : List Path := [⟨"d/"⟩, ⟨"x"⟩, ⟨"e"⟩, ⟨"e/../d"⟩, ⟨"b.txt"⟩, ⟨"x"⟩]
    let expanded : List Path := [⟨"d/a.R"⟩, ⟨"x"⟩, ⟨"e/../d/a.R"⟩, ⟨"b.txt"⟩, ⟨"x"⟩]
    t.expand extensions inputs = expanded ∧ t.expand extensions expanded = expanded ∧
      run {} t expanded = .error (.missing [⟨"x"⟩, ⟨"x"⟩]) ∧
      Cli.configOf { inputs } t = .ok {} ∧
      Cli.execute { inputs } t =
        .error ⟨"analysis failed", (InputError.missing [⟨"x"⟩, ⟨"x"⟩]).message⟩ ∧
      t.find? ⟨"e"⟩ = some .folder ∧ (∀ q, ¬t.Found extensions ⟨"e"⟩ q) ∧
      t.find? ⟨"d/a.R"⟩ ≠ some .folder := by
  intro t extensions inputs expanded
  have hexpand : t.expand extensions inputs = expanded := by decide +kernel
  have hnone : t.expand extensions [⟨"e"⟩] = [] := by decide +kernel
  have habsent : inputs.filter (fun p => (t.find? p).isNone) = [⟨"x"⟩, ⟨"x"⟩] := by decide +kernel
  have hconfig : Cli.configOf { inputs } t = .ok {} := rfl
  obtain ⟨-, hfolder, htwice, hrun, hexecute⟩ := expand_closed_and_run_expand t extensions inputs
  obtain ⟨-, -, -, hrun', -⟩ := expand_closed_and_run_expand t extensions [⟨"e"⟩]
  have hmissing := ((hrun {}).2.1 [⟨"x"⟩, ⟨"x"⟩]).mpr ⟨by simp, habsent.symm⟩
  have hempty : run {} t (t.expand extensions [⟨"e"⟩]) = .error .noInputs := by
    rw [hnone]
    rfl
  obtain ⟨he, hnothing⟩ := (hrun' {}).2.2.mp hempty ⟨"e"⟩ (by simp)
  have hcommand := (hexecute { inputs } {} hconfig _).mpr ⟨_, hmissing, rfl⟩
  rw [hexpand] at htwice hmissing hfolder
  exact ⟨hexpand, htwice, hmissing, hconfig, hcommand, he, hnothing,
    hfolder ⟨"d/a.R"⟩ (by simp [expanded])⟩

end Analysis

end CallAtlas
