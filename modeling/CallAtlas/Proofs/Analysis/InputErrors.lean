import CallAtlas.Proofs.Analysis.Failures

/-!
# Inputs that are refused

`InputError.Arises` says of each reason to refuse some paths when it holds, in terms of what the
paths lead to. A run fails exactly with the reason that arises (`run_eq_error_iff`), so at most one
does, and where none does the run succeeds. `run_eq_error_iff_and_kept_of_run` adds which paths a
run then reads.
-/

namespace CallAtlas

/-- The reason to refuse some paths holds: there is no path; some paths lead nowhere, and they are
listed in their order and as often as they are given; or all lead somewhere, and the one named is
the first that leads to a folder. -/
def InputError.Arises (tree : FileTree) (paths : List Path) : InputError → Prop
  | noInputs => paths = []
  | missing absent => absent ≠ [] ∧ absent = paths.filter fun p => (tree.find? p).isNone
  | notFile p => (∀ q ∈ paths, tree.find? q ≠ none) ∧
      ∃ before after, paths = before ++ p :: after ∧ tree.find? p = some .folder ∧
        ∀ q ∈ before, ∃ content, tree.find? q = some (.file content)

namespace Analysis

variable {config : Config} {tree : FileTree} {paths : List Path} {e : InputError} {p : Path}

theorem filter_not_holds (tree : FileTree) (paths : List Path) :
    paths.filter (fun p => !tree.holds p) = paths.filter fun p => (tree.find? p).isNone := by
  simp [FileTree.holds]

/-- Where all paths lead somewhere, the first that is no file is the first folder. -/
theorem find?_not_isFile_iff (h : ∀ q ∈ paths, tree.find? q ≠ none) :
    paths.find? (fun p => !tree.isFile p) = some p ↔
      ∃ before after, paths = before ++ p :: after ∧ tree.find? p = some .folder ∧
        ∀ q ∈ before, ∃ content, tree.find? q = some (.file content) := by
  rw [List.find?_eq_some_iff_append]
  simp only [Bool.not_not, FileTree.isFile_iff]
  constructor
  · rintro ⟨hfile, before, after, rfl, hbefore⟩
    refine ⟨before, after, rfl, ?_, hbefore⟩
    cases hfind : tree.find? p with
    | none => exact absurd hfind (h p (by simp))
    | some entry =>
      cases entry with
      | folder => rfl
      | file content => simp [FileTree.isFile, hfind] at hfile
  · rintro ⟨before, after, rfl, hfolder, hbefore⟩
    exact ⟨by simp [FileTree.isFile, hfolder], before, after, rfl, hbefore⟩

theorem checkInputs_eq_error_iff : checkInputs tree paths = .error e ↔ e.Arises tree paths := by
  rw [checkInputs, filter_not_holds]
  constructor
  · intro h
    split_ifs at h with hnil
    · cases h
      exact hnil
    · split at h
      · next habsent =>
        have hexist : ∀ q ∈ paths, tree.find? q ≠ none := by simpa using habsent
        split at h
        · next p hfind =>
          cases h
          exact ⟨hexist, (find?_not_isFile_iff hexist).mp hfind⟩
        · cases h
      · next hsome =>
        cases h
        exact ⟨hsome, rfl⟩
  · intro h
    cases e with
    | noInputs => exact if_pos h
    | missing absent =>
      obtain ⟨hne, rfl⟩ := h
      have hnil : paths ≠ [] := by
        rintro rfl
        exact hne rfl
      rw [if_neg hnil]
      split
      · next habsent => exact absurd habsent hne
      · rfl
    | notFile p =>
      obtain ⟨hexist, hfirst⟩ := h
      have hnil : paths ≠ [] := by
        obtain ⟨before, after, rfl, -⟩ := hfirst
        simp
      have habsent : paths.filter (fun p => (tree.find? p).isNone) = [] := by simpa using hexist
      rw [if_neg hnil, habsent, (find?_not_isFile_iff hexist).mpr hfirst]

/-- A run fails with the reason to refuse its paths that holds. -/
theorem run_eq_error_iff : run config tree paths = .error e ↔ e.Arises tree paths := by
  rw [← checkInputs_eq_error_iff, run]
  cases checkInputs tree paths with
  | error reason => simp [bind, Except.bind]
  | ok kept => simp [bind, Except.bind, pure, Except.pure]

/-- A run fails with a reason exactly if that reason to refuse its paths holds. If there are paths
and all of them lead to files, it succeeds. Its files and failures are then those of some of the
paths, kept in their order. No two of these have the same components, and of the paths with the
same components the first is kept, as it is spelled. -/
theorem run_eq_error_iff_and_kept_of_run (config : Config) (tree : FileTree) (paths : List Path) :
    (∀ e, run config tree paths = .error e ↔ e.Arises tree paths) ∧
    (paths ≠ [] → (∀ p ∈ paths, ∃ content, tree.find? p = some (.file content)) →
      ∃ (a : Analysis) (kept : List Path), run config tree paths = .ok a ∧
        a.files.map SourceFile.path = kept.filter (legible tree) ∧
        a.failures.map Failure.path = kept.filter (fun p => !legible tree p) ∧
        kept.Sublist paths ∧ (kept.Pairwise fun p q => p.components ≠ q.components) ∧
        ∀ p ∈ paths, ∃ q ∈ kept, paths.find? (fun r => r.components = p.components) = some q) := by
  refine ⟨fun e => run_eq_error_iff, fun hne hfiles => ?_⟩
  have hisFile : ∀ p ∈ paths, tree.isFile p := fun p hp => FileTree.isFile_iff.mpr (hfiles p hp)
  exact ⟨ofOutcomes config ((distinct paths).map (examine tree)), distinct paths,
    run_eq_ok_iff.mpr ⟨hne, hisFile, rfl⟩, map_path_files config tree _,
    map_path_failures config tree _, sublist_distinct paths, pairwise_distinct paths,
    fun p => find?_mem_distinct⟩

/-- The theorem applies to paths that lead nowhere among a folder and a file, to the folder behind
a file, and to a file in four spellings of which three have the same components. -/
theorem run_eq_error_iff_and_kept_of_run_of_texts :
    let tree := FileTree.ofTexts [("d/a.R", "f <- function() 1\n"), ("b.R", "g <- function(\n")]
    let paths : List Path := [⟨"d//a.R"⟩, ⟨"b.R"⟩, ⟨"./d/a.R"⟩, ⟨"d/./a.R"⟩, ⟨"d/a.R"⟩]
    run {} tree [] = .error .noInputs ∧
      run {} tree [⟨"d"⟩, ⟨"x"⟩, ⟨"b.R"⟩, ⟨"b.R/"⟩, ⟨"x"⟩] =
        .error (.missing [⟨"x"⟩, ⟨"b.R/"⟩, ⟨"x"⟩]) ∧
      run {} tree [⟨"b.R"⟩, ⟨"d"⟩, ⟨"."⟩] = .error (.notFile ⟨"d"⟩) ∧
      (∀ p ∈ paths, ∃ content, tree.find? p = some (.file content)) ∧
      ∃ (a : Analysis) (kept : List Path), run {} tree paths = .ok a ∧ ⟨"d//a.R"⟩ ∈ kept ∧
        kept.Sublist paths ∧ a.files.map SourceFile.path = kept.filter (legible tree) ∧
        a.files.map SourceFile.path = [⟨"d//a.R"⟩, ⟨"./d/a.R"⟩] ∧
        a.failures.map Failure.path = [⟨"b.R"⟩] := by
  intro tree paths
  have hisFile : ∀ p ∈ paths, tree.isFile p := by decide +kernel
  have hfiles : ∀ p ∈ paths, ∃ content, tree.find? p = some (.file content) :=
    fun p hp => FileTree.isFile_iff.mp (hisFile p hp)
  have hexist : ∀ q ∈ [⟨"b.R"⟩, ⟨"d"⟩, ⟨"."⟩], tree.holds q := by decide +kernel
  have hfolder : tree.isFolder ⟨"d"⟩ ∧ ∀ q ∈ [⟨"b.R"⟩], tree.isFile q := by decide +kernel
  have hfirst : paths.find? (fun r => r.components = Path.components ⟨"d/a.R"⟩) =
      some ⟨"d//a.R"⟩ := by decide +kernel
  have hread : (run {} tree paths).toOption.map (fun a =>
      (a.files.map SourceFile.path, a.failures.map Failure.path)) =
        some ([⟨"d//a.R"⟩, ⟨"./d/a.R"⟩], [⟨"b.R"⟩]) := by decide +kernel
  obtain ⟨a, kept, ha, hparsed, -, hsublist, -, hkept⟩ :=
    (run_eq_error_iff_and_kept_of_run {} tree paths).2 (List.cons_ne_nil _ _) hfiles
  refine ⟨?_, ?_, ?_, hfiles, a, kept, ha, ?_, hsublist, hparsed, ?_⟩
  · exact ((run_eq_error_iff_and_kept_of_run {} tree []).1 _).mpr rfl
  · exact ((run_eq_error_iff_and_kept_of_run {} tree _).1 _).mpr ⟨by simp, by decide +kernel⟩
  · exact ((run_eq_error_iff_and_kept_of_run {} tree _).1 _).mpr
      ⟨fun q hq => FileTree.holds_iff.mp (hexist q hq), [⟨"b.R"⟩], [⟨"."⟩], rfl,
        FileTree.isFolder_iff.mp hfolder.1, fun q hq => FileTree.isFile_iff.mp (hfolder.2 q hq)⟩
  · obtain ⟨q, hq, hfind⟩ := hkept ⟨"d/a.R"⟩ (by decide)
    rw [hfirst] at hfind
    rwa [Option.some.inj hfind]
  · rw [ha] at hread
    exact Prod.mk.inj (Option.some.inj hread)

end Analysis

end CallAtlas
