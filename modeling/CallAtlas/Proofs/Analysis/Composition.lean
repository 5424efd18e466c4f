import CallAtlas.Proofs.Analysis
import CallAtlas.Proofs.Analysis.Inputs

/-!
# Runs over two corpora

Paths of which none of the first is one of the second are kept apart when repetitions are
dropped (`distinct_append`). So a run over both reads the files of the one and then those of the
other, and its registry records the definitions of the one followed by those of the other. For
each name this says what the joint registry holds (`Registry.Records.get?_append`,
`Registry.Records.mem_earlier?_append`). The calls of a function whose definition stays are
those it had, up to calls of functions that are registered only together
(`Registry.calls_resolve_of_get?_eq`). `run_append_of_disjoint` states the result.
-/

namespace CallAtlas

namespace Registry

open Definition

variable {r s t : Registry} {ds es : List Definition} {n : String} {c : List Component}

/-! ## Registries of two lists of definitions -/

namespace Records

/-- A definition in the second list comes after all in the first. -/
theorem get?_append (hr : r.Records ds) (hs : s.Records es) (ht : t.Records (ds ++ es))
    (n : String) : t.get? n = (s.get? n).or (r.get? n) := by
  rw [ht.get?_eq, hs.get?_eq, hr.get?_eq, named_append, List.getLast?_append]

theorem mem_names_append (hr : r.Records ds) (hs : s.Records es) (ht : t.Records (ds ++ es)) :
    n ∈ t.names ↔ n ∈ r.names ∨ n ∈ s.names := by
  rw [Registry.mem_names_iff, Registry.mem_names_iff, Registry.mem_names_iff,
    hr.get?_append hs ht, Option.isSome_or, Bool.or_eq_true, or_comm]

/-- The earlier files of a name are those of the two lists, and the file of its last definition in
the first if there is one in the second, since all definitions in the first are earlier ones then.
-/
theorem mem_earlier?_append (hr : r.Records ds) (hs : s.Records es) (ht : t.Records (ds ++ es)) :
    c ∈ (t.earlier? n).getD ∅ ↔ c ∈ (r.earlier? n).getD ∅ ∨ c ∈ (s.earlier? n).getD ∅ ∨
      n ∈ s.names ∧ ∃ owner, r.get? n = some owner ∧ owner.sourceFile.components = c := by
  have hnames : n ∈ s.names ↔ named n es ≠ [] := by
    rw [hs.mem_names_iff, named_ne_nil_iff]
  rw [ht.mem_earlier?_iff, hr.mem_earlier?_iff, hs.mem_earlier?_iff, hnames, named_append,
    hr.get?_eq]
  by_cases hnil : named n es = []
  · simp [hnil]
  · have hfirst : ∀ d, d ∈ named n ds ↔
        d ∈ (named n ds).dropLast ∨ (named n ds).getLast? = some d :=
      fun d => mem_named_iff_dropLast_or_getLast?
    rw [List.dropLast_append_of_ne_nil hnil]
    simp only [List.mem_append, hfirst, or_and_right, exists_or, ne_eq, hnil, not_false_eq_true,
      true_and, or_assoc]
    exact or_congr_right or_comm

/-- A name with duplicates has at least one. -/
theorem earlier?_eq_none_iff (hr : r.Records ds) :
    r.earlier? n = none ↔ ∀ c, c ∉ (r.earlier? n).getD ∅ := by
  constructor
  · intro hnone
    simp [hnone]
  · intro hempty
    rw [← Option.not_isSome_iff_eq_none, hr.earlier?_eq, isSome_earlierFiles?_iff]
    intro hlength
    have hne : (named n ds).dropLast ≠ [] := by
      rw [← List.length_pos_iff, List.length_dropLast]
      omega
    obtain ⟨d, hd⟩ := List.exists_mem_of_ne_nil _ hne
    exact hempty _ (hr.mem_earlier?_iff.mpr ⟨d, hd, rfl⟩)

end Records

/-- A function whose definition is the same in a larger registry has the same calls there, up to
calls of functions that the smaller one does not have. -/
theorem calls_resolve_of_get?_eq {targets : FunctionLiteral → NameSet} {f : String}
    (hget : t.get? f = r.get? f) (hnames : ∀ n ∈ r.names, n ∈ t.names) (callee : String) :
    (t.resolve targets).Calls f callee ∧ callee ∈ r.names ↔
      (r.resolve targets).Calls f callee := by
  rw [calls_resolve, calls_resolve, hget]
  constructor
  · rintro ⟨⟨d, hd, htarget, -⟩, hr⟩
    exact ⟨d, hd, htarget, hr⟩
  · rintro ⟨d, hd, htarget, hr⟩
    exact ⟨⟨d, hd, htarget, hnames callee hr⟩, hr⟩

end Registry

namespace Analysis

/-! ## Runs over two corpora -/

theorem ofOutcomes_append (config : Config)
    (xs ys : List (Except Failure (SourceFile × List Definition))) :
    (ofOutcomes config (xs ++ ys)).files =
        (ofOutcomes config xs).files ++ (ofOutcomes config ys).files ∧
      (ofOutcomes config (xs ++ ys)).failures =
        (ofOutcomes config xs).failures ++ (ofOutcomes config ys).failures := by
  simp [ofOutcomes]

/-- Let two lists of paths be given, both with some path, all of files, and with no path of the
first the same as one of the second. Runs over the one, over the other and over both succeed. The
files and failures of the run over both are those of the first run and then those of the second.
The definition of a name is that of the second run if this has one, and that of the first
otherwise. Its duplicates are those of both runs and, if it is registered in both, the file of
its definition in the first; a name without such has no entry. The calls that a function which
only the first run registers makes to functions that the first run registers are its calls
there, and the calls that a function of the second run makes to functions of that run are its
calls there. -/
theorem run_append_of_disjoint (config : Config) (tree : FileTree) {ps qs : List Path}
    (hps : ps ≠ []) (hqs : qs ≠ []) (hfiles : ∀ p ∈ ps ++ qs, tree.isFile p)
    (hdisjoint : ∀ p ∈ ps, ∀ q ∈ qs, p.components ≠ q.components) :
    ∃ a b ab, run config tree ps = .ok a ∧ run config tree qs = .ok b ∧
      run config tree (ps ++ qs) = .ok ab ∧
      ab.files = a.files ++ b.files ∧ ab.failures = a.failures ++ b.failures ∧
      (∀ n, ab.registry.get? n = (b.registry.get? n).or (a.registry.get? n)) ∧
      (∀ n c, c ∈ (ab.registry.earlier? n).getD ∅ ↔
        c ∈ (a.registry.earlier? n).getD ∅ ∨ c ∈ (b.registry.earlier? n).getD ∅ ∨
          n ∈ b.registry.names ∧ ∃ owner, a.registry.get? n = some owner ∧
            owner.sourceFile.components = c) ∧
      (∀ n, ab.registry.earlier? n = none ↔ ∀ c, c ∉ (ab.registry.earlier? n).getD ∅) ∧
      (∀ f ∈ a.registry.names, f ∉ b.registry.names → ∀ c,
        ab.dependencies.Calls f c ∧ c ∈ a.registry.names ↔ a.dependencies.Calls f c) ∧
      ∀ f ∈ b.registry.names, ∀ c,
        ab.dependencies.Calls f c ∧ c ∈ b.registry.names ↔ b.dependencies.Calls f c := by
  obtain ⟨hfps, hfqs⟩ := List.forall_mem_append.mp hfiles
  have hne : ps ++ qs ≠ [] := List.append_ne_nil_of_left_ne_nil hps qs
  obtain ⟨a, ha⟩ : ∃ a, run config tree ps = .ok a := ⟨_, run_eq_ok_iff.mpr ⟨hps, hfps, rfl⟩⟩
  obtain ⟨b, hb⟩ : ∃ b, run config tree qs = .ok b := ⟨_, run_eq_ok_iff.mpr ⟨hqs, hfqs, rfl⟩⟩
  obtain ⟨ab, hab⟩ : ∃ ab, run config tree (ps ++ qs) = .ok ab :=
    ⟨_, run_eq_ok_iff.mpr ⟨hne, hfiles, rfl⟩⟩
  have hparts : ab.files = a.files ++ b.files ∧ ab.failures = a.failures ++ b.failures := by
    obtain ⟨-, -, rfl⟩ := run_eq_ok_iff.mp ha
    obtain ⟨-, -, rfl⟩ := run_eq_ok_iff.mp hb
    obtain ⟨-, -, rfl⟩ := run_eq_ok_iff.mp hab
    rw [distinct_append hdisjoint, List.map_append]
    exact ofOutcomes_append config _ _
  have hra := records_run ha
  have hrb := records_run hb
  have hrab := records_run hab
  rw [hparts.1, List.flatMap_append] at hrab
  have hget := hra.get?_append hrb hrab
  have hnames : ∀ n, n ∈ ab.registry.names ↔ n ∈ a.registry.names ∨ n ∈ b.registry.names :=
    fun n => hra.mem_names_append hrb hrab
  refine ⟨a, b, ab, ha, hb, hab, hparts.1, hparts.2, hget,
    fun n c => hra.mem_earlier?_append hrb hrab, fun n => hrab.earlier?_eq_none_iff, ?_, ?_⟩
  · intro f _ hfb c
    rw [dependencies_run hab, dependencies_run ha]
    refine Registry.calls_resolve_of_get?_eq ?_ (fun n hn => (hnames n).mpr (Or.inl hn)) c
    rw [hget, Registry.not_mem_names_iff.mp hfb, Option.none_or]
  · intro f hfb c
    obtain ⟨d, hd⟩ := Registry.mem_names_iff_exists.mp hfb
    rw [dependencies_run hab, dependencies_run hb]
    refine Registry.calls_resolve_of_get?_eq ?_ (fun n hn => (hnames n).mpr (Or.inr hn)) c
    rw [hget, hd, Option.some_or]

/-- The theorem applies to corpora that share a name, one of them with a file that does not
parse and with a path that is given twice. -/
theorem run_append_of_disjoint_of_texts :
    let tree := FileTree.ofTexts [("a.R", "f <- function() g()\ng <- function() f()\n"),
      ("b.R", "g <- function() h()\n"), ("c.R", "h <- function(\n")]
    let ps : List Path := [⟨"a.R"⟩]
    let qs : List Path := [⟨"b.R"⟩, ⟨"c.R"⟩, ⟨"b.R"⟩]
    (∀ p ∈ ps ++ qs, tree.isFile p) ∧ (∀ p ∈ ps, ∀ q ∈ qs, p.components ≠ q.components) ∧
      ∃ a b ab, run {} tree ps = .ok a ∧ run {} tree qs = .ok b ∧
        run {} tree (ps ++ qs) = .ok ab ∧ a.registry.names = ["f", "g"] ∧
        b.registry.names = ["g"] ∧ ab.files = a.files ++ b.files ∧
        ab.registry.get? "g" = b.registry.get? "g" ∧ ab.registry.get? "f" = a.registry.get? "f" ∧
        Path.components ⟨"a.R"⟩ ∈ (ab.registry.earlier? "g").getD ∅ := by
  intro tree ps qs
  have hfiles : ∀ p ∈ ps ++ qs, tree.isFile p := by decide +kernel
  have hdisjoint : ∀ p ∈ ps, ∀ q ∈ qs, p.components ≠ q.components := by decide +kernel
  obtain ⟨a, b, ab, ha, hb, hab, hparts, -, hget, hearlier, -⟩ :=
    run_append_of_disjoint {} tree (by decide) (by decide) hfiles hdisjoint
  have hfirst : (run {} tree ps).toOption.map (fun a =>
      (a.registry.names, (a.registry.get? "g").map Definition.sourceFile)) =
        some (["f", "g"], some ⟨"a.R"⟩) := by decide +kernel
  have hsecond : (run {} tree qs).toOption.map (fun b => b.registry.names) = some ["g"] := by
    decide +kernel
  rw [ha] at hfirst
  rw [hb] at hsecond
  obtain ⟨hna, howner⟩ := Prod.mk.inj (Option.some.inj hfirst)
  obtain ⟨owner, howner, hfile⟩ := Option.map_eq_some_iff.mp howner
  have hnb : b.registry.names = ["g"] := Option.some.inj hsecond
  have hg : "g" ∈ b.registry.names := by simp [hnb]
  have hf : b.registry.get? "f" = none := by
    rw [← Registry.not_mem_names_iff, hnb]
    decide
  obtain ⟨d, hd⟩ := Registry.mem_names_iff_exists.mp hg
  refine ⟨hfiles, hdisjoint, a, b, ab, ha, hb, hab, hna, hnb, hparts, ?_, ?_, ?_⟩
  · rw [hget, hd, Option.some_or]
  · rw [hget, hf, Option.none_or]
  · exact (hearlier "g" _).mpr (Or.inr (Or.inr ⟨hg, owner, howner, by rw [hfile]⟩))

end Analysis

end CallAtlas
