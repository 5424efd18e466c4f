import Mathlib.Data.List.Nodup
import CallAtlas.Proofs.Analysis
import CallAtlas.Proofs.Analysis.Inputs

/-!
# Runs and the order of files

The registry of a run depends on the order of the files only where two of them define the same
name. A name is defined by some of the files, and a rearrangement that keeps the order of these
lists their definitions of the name alike (`named_flatMap_eq_of_perm`). This holds of each name
apart, whatever happens between files that share no name, and a registry is determined by what is
recorded for each name (`Registry.Records.eq_of_named_eq`). `run_perm` states the result for whole
runs.
-/

namespace CallAtlas

/-! ## Rearrangements that keep the order of some elements -/

section Rearrangement

variable {α β : Type*} {l l' : List α}

/-- A rearrangement that keeps the order of the elements with a property lists these alike: both
lists are sorted by places in `l'`, and a sorted list is determined by its elements. -/
theorem filter_eq_of_perm [DecidableEq α] {p : α → Bool} (hperm : l.Perm l') (hnodup : l.Nodup)
    (horder : l.Pairwise fun x y => p x → p y → [x, y].Sublist l') : l.filter p = l'.filter p := by
  have hplaces : l'.Pairwise fun x y => l'.idxOf x < l'.idxOf y := by
    have hnodup' := hperm.nodup hnodup
    refine List.pairwise_iff_getElem.mpr fun i j hi hj hij => ?_
    rwa [hnodup'.idxOf_getElem i hi, hnodup'.idxOf_getElem j hj]
  have hkept : (l.filter p).Pairwise fun x y => l'.idxOf x < l'.idxOf y := by
    rw [List.pairwise_filter]
    exact horder.imp fun hxy hx hy => List.pairwise_iff_forall_sublist.mp hplaces (hxy hx hy)
  exact List.Perm.eq_of_pairwise (fun x y _ _ hxy hyx => absurd hxy hyx.asymm) hkept
    (hplaces.filter p) (hperm.filter p)

/-- Elements that give nothing can be left out. -/
theorem flatMap_filter_ne_nil (f : α → List β) :
    ∀ l : List α, (l.filter fun x => !(f x).isEmpty).flatMap f = l.flatMap f
  | [] => rfl
  | x :: l => by
    rw [List.filter_cons, List.flatMap_cons, ← flatMap_filter_ne_nil f l]
    cases hx : f x with
    | nil => simp
    | cons y ys => simp [hx]

end Rearrangement

/-! ## Registries -/

namespace Registry

open Definition

variable {r s : Registry} {ds es : List Definition}

/-- A registry is determined by the definitions of each name. -/
theorem Records.eq_of_named_eq (hr : r.Records ds) (hs : s.Records es)
    (hnamed : ∀ n, named n ds = named n es) : r = s := by
  have hdefinitions : r.definitions = s.definitions := by
    refine Std.ExtTreeMap.ext_getElem? fun {n} => ?_
    have hget : r.get? n = s.get? n := by rw [hr.get?_eq, hs.get?_eq, hnamed]
    exact hget
  have hduplicates : r.duplicates = s.duplicates := by
    refine Std.ExtTreeMap.ext_getElem? fun {n} => ?_
    have hearlier : r.earlier? n = s.earlier? n := by rw [hr.earlier?_eq, hs.earlier?_eq, hnamed]
    exact hearlier
  calc r = ⟨r.definitions, r.duplicates⟩ := rfl
    _ = ⟨s.definitions, s.duplicates⟩ := by rw [hdefinitions, hduplicates]

end Registry

namespace Analysis

variable {config : Config} {tree : FileTree} {ps qs : List Path}

/-! ## Definitions by file -/

/-- The definitions in the file at a path, none if it is not read or does not parse. -/
def definedAt (tree : FileTree) (path : Path) : List Definition :=
  ((examine tree path).toOption.map Prod.snd).getD []

/-- The files at both paths parse and define a common name. -/
def SharesName (tree : FileTree) (p q : Path) : Prop :=
  ∃ d ∈ definedAt tree p, ∃ e ∈ definedAt tree q, d.name = e.name

instance (tree : FileTree) (p q : Path) : Decidable (SharesName tree p q) :=
  inferInstanceAs (Decidable (∃ d ∈ _, _))

theorem definitionsOf_map_examine (tree : FileTree) :
    ∀ paths : List Path, definitionsOf (paths.map (examine tree)) = paths.flatMap (definedAt tree)
  | [] => rfl
  | p :: paths => by
    rw [List.flatMap_cons, ← definitionsOf_map_examine tree paths, definedAt, List.map_cons]
    unfold definitionsOf
    cases examine tree p <;> rfl

/-- A rearrangement that keeps the order of files with a common name lists the definitions of each
name alike, since the files that define it share it. -/
theorem named_flatMap_eq_of_perm (hperm : ps.Perm qs) (hnodup : ps.Nodup)
    (horder : ps.Pairwise fun p q => SharesName tree p q → [p, q].Sublist qs) (n : String) :
    Definition.named n (ps.flatMap (definedAt tree)) =
      Definition.named n (qs.flatMap (definedAt tree)) := by
  have hsplit : ∀ paths : List Path, Definition.named n (paths.flatMap (definedAt tree)) =
      (paths.filter fun p => !(Definition.named n (definedAt tree p)).isEmpty).flatMap
        fun p => Definition.named n (definedAt tree p) := by
    intro paths
    rw [flatMap_filter_ne_nil, Definition.named, List.filter_flatMap]
    rfl
  have hfilter := filter_eq_of_perm
    (p := fun p => !(Definition.named n (definedAt tree p)).isEmpty) hperm hnodup <|
      horder.imp fun {p q} hpq hp hq => by
        obtain ⟨d, hd, hdn⟩ := Definition.named_ne_nil_iff.mp (by simpa using hp)
        obtain ⟨e, he, hen⟩ := Definition.named_ne_nil_iff.mp (by simpa using hq)
        exact hpq ⟨d, hd, e, he, hdn.trans hen.symm⟩
  rw [hsplit, hsplit, hfilter]

/-! ## Runs -/

/-- The files and failures of a rearrangement are rearranged. -/
theorem ofOutcomes_perm (config : Config)
    {xs ys : List (Except Failure (SourceFile × List Definition))} (h : xs.Perm ys) :
    (ofOutcomes config xs).files.Perm (ofOutcomes config ys).files ∧
      (ofOutcomes config xs).failures.Perm (ofOutcomes config ys).failures :=
  ⟨(h.filterMap _).map _, h.filterMap _⟩

/-- Let paths of files be given, none of which is another one, and let them be rearranged so that
of every two files that parse and define a common name the one that came first still does. Unless
there are no paths, so that no run starts, the runs over both lists succeed. They have the same
registry, with the same duplicates, the same dependencies and the same layouts, and the files and
failures of the one are those of the other, rearranged. -/
theorem run_perm (config : Config) (tree : FileTree) {ps qs : List Path} (hperm : ps.Perm qs)
    (hfiles : ∀ p ∈ ps, tree.isFile p)
    (hdistinct : ps.Pairwise fun p q => p.components ≠ q.components)
    (horder : ps.Pairwise fun p q => SharesName tree p q → [p, q].Sublist qs) :
    (ps = [] ∧ run config tree ps = .error .noInputs ∧ run config tree qs = .error .noInputs) ∨
      ∃ a b, run config tree ps = .ok a ∧ run config tree qs = .ok b ∧
        a.registry = b.registry ∧ a.dependencies = b.dependencies ∧
        (∀ all, a.layout all = b.layout all) ∧
        a.files.Perm b.files ∧ a.failures.Perm b.failures := by
  by_cases hps : ps = []
  · subst hps
    rw [hperm.nil_eq.symm]
    exact Or.inl ⟨rfl, rfl, rfl⟩
  have hqs : qs ≠ [] := fun hqs => hps (hqs ▸ hperm).eq_nil
  have hfiles' : ∀ q ∈ qs, tree.isFile q := fun q hq => hfiles q (hperm.mem_iff.mpr hq)
  have hdistinct' : qs.Pairwise fun p q => p.components ≠ q.components :=
    hdistinct.perm hperm fun h => h.symm
  obtain ⟨a, ha⟩ : ∃ a, run config tree ps = .ok a := exists_run hps hfiles
  obtain ⟨b, hb⟩ : ∃ b, run config tree qs = .ok b := exists_run hqs hfiles'
  have hregistry : a.registry = b.registry := by
    have hnodup : ps.Nodup := hdistinct.imp fun hne heq => hne (congrArg Path.components heq)
    obtain ⟨-, -, rfl⟩ := run_eq_ok_iff.mp ha
    obtain ⟨-, -, rfl⟩ := run_eq_ok_iff.mp hb
    rw [distinct_eq_self hdistinct, distinct_eq_self hdistinct', registry_ofOutcomes,
      registry_ofOutcomes, definitionsOf_map_examine, definitionsOf_map_examine]
    exact (Registry.records_ofDefinitions _).eq_of_named_eq (Registry.records_ofDefinitions _)
      (named_flatMap_eq_of_perm hperm hnodup horder)
  have hdependencies : a.dependencies = b.dependencies := by
    rw [dependencies_run ha, dependencies_run hb, hregistry]
  refine Or.inr ⟨a, b, ha, hb, hregistry, hdependencies, fun all => ?_, ?_⟩
  · rw [layout, layout, graph, graph, hregistry, hdependencies]
  · obtain ⟨-, -, rfl⟩ := run_eq_ok_iff.mp ha
    obtain ⟨-, -, rfl⟩ := run_eq_ok_iff.mp hb
    rw [distinct_eq_self hdistinct, distinct_eq_self hdistinct']
    exact ofOutcomes_perm config (hperm.map (examine tree))

/-- The theorem applies to five files of which two share one name, two another, and one does not
parse. The order of files that share a name stays, and others trade places. -/
theorem run_perm_of_texts :
    let tree := FileTree.ofTexts [("a.R", "f <- function() g()\n"), ("b.R", "f <- function() 1\n"),
      ("c.R", "g <- function() f()\n"), ("d.R", "g <- function() h()\n"),
      ("e.R", "f <- function(\n")]
    let ps : List Path := [⟨"a.R"⟩, ⟨"b.R"⟩, ⟨"e.R"⟩, ⟨"c.R"⟩, ⟨"d.R"⟩]
    let qs : List Path := [⟨"c.R"⟩, ⟨"e.R"⟩, ⟨"d.R"⟩, ⟨"a.R"⟩, ⟨"b.R"⟩]
    ps.Perm qs ∧ (∀ p ∈ ps, tree.isFile p) ∧
      (ps.Pairwise fun p q => p.components ≠ q.components) ∧
      (ps.Pairwise fun p q => SharesName tree p q → [p, q].Sublist qs) ∧
      SharesName tree ⟨"a.R"⟩ ⟨"b.R"⟩ ∧ SharesName tree ⟨"c.R"⟩ ⟨"d.R"⟩ ∧
      ∃ a b, run {} tree ps = .ok a ∧ run {} tree qs = .ok b ∧ a.registry = b.registry ∧
        a.dependencies = b.dependencies ∧ a.files.Perm b.files := by
  intro tree ps qs
  have hperm : ps.Perm qs := by decide +kernel
  have hfiles : ∀ p ∈ ps, tree.isFile p := by decide +kernel
  have hdistinct : ps.Pairwise fun p q => p.components ≠ q.components := by decide +kernel
  have horder : ps.Pairwise fun p q => SharesName tree p q → [p, q].Sublist qs := by
    decide +kernel
  refine ⟨hperm, hfiles, hdistinct, horder, by decide +kernel, by decide +kernel, ?_⟩
  rcases run_perm {} tree hperm hfiles hdistinct horder with
    ⟨hps, -⟩ | ⟨a, b, ha, hb, hregistry, hdependencies, -, hparts, -⟩
  · exact absurd hps (List.cons_ne_nil _ _)
  · exact ⟨a, b, ha, hb, hregistry, hdependencies, hparts⟩

end Analysis

end CallAtlas
