import Mathlib.Data.List.Dedup
import CallAtlas.Proofs.FileTree

/-!
# Scanning

`Found` says which paths a scan is to find: those of the files at or below its root that have an
extension which is looked for. A scan lists them (`mem_scan_iff`) in the strict order of their
components. They lead to the files (`find?_of_found`), and no two of them have the same components
(`Found.eq_of_components_eq`), so the set of paths that puts them in order loses none.

`IsWalk` is what is known of the order in which a walk yields the entries. Sorting what any walk
yields gives the scan (`mergeSort_filesOf`). `mem_scan_iff_and_ordered` states all this.
-/

namespace CallAtlas

namespace Path

variable {p q r : Path}

/-- The order of paths by their components. -/
def isLE (p q : Path) : Bool :=
  (compare p.components q.components).isLE

theorem isLE_trans (hpq : p.isLE q) (hqr : q.isLE r) : p.isLE r :=
  Std.TransCmp.isLE_trans hpq hqr

theorem isLE_total (p q : Path) : p.isLE q || q.isLE p := by
  have hswap : compare p.components q.components =
      (compare q.components p.components).swap := Std.OrientedCmp.eq_swap
  rw [isLE, isLE, hswap]
  cases compare q.components p.components <;> rfl

end Path

namespace FileTree

variable {t : FileTree} {p q root : Path} {l : Location} {names : List String} {e : Entry}
  {extensions : NameSet}

/-! ## What is found -/

/-- The path is that of a file at or below a root, and its extension is one of those looked for. -/
def Found (t : FileTree) (extensions : NameSet) (root p : Path) : Prop :=
  ∃ l names content, t.locate root = .ok l ∧ t.entry? (l ++ names) = some (.file content) ∧
    p = root.below names ∧ ∃ extension ∈ extensions, p.HasExtension extension

theorem matching_iff :
    matching extensions p ↔ ∃ extension ∈ extensions, p.HasExtension extension := by
  simp only [matching, Option.any_eq_true, Path.extension?_eq_some_iff,
    Std.ExtTreeSet.contains_iff_mem, and_comm]

theorem spelling_ne_of_locate (h : t.locate p = .ok l) : p.spelling ≠ "" := by
  intro hempty
  simp [locate, hempty] at h

/-- What stands below a location stands in a folder there. -/
theorem isFolder_of_entry?_append (h : t.entry? (l ++ names) = some e) (hne : names ≠ []) :
    t.entry? l = some .folder := by
  induction names using List.reverseRecOn generalizing e with
  | nil => exact absurd rfl hne
  | append_singleton names last ih =>
    rw [← List.append_assoc] at h
    have hfolder := (placed_of_entry?_eq h).2
    by_cases hnil : names = []
    · simpa [hnil] using hfolder
    · exact ih hfolder hnil

/-- The top folder is no file, and it is not in the table. -/
theorem entry?_eq_file_iff {content : ByteArray} :
    t.entry? l = some (.file content) ↔ t.entries[l]? = some (.file content) := by
  unfold entry? entryAt
  split_ifs with hl
  · refine iff_of_false (by simp) fun h => ?_
    obtain ⟨folder, name, heq, -⟩ :=
      t.placed l (Std.ExtTreeMap.mem_iff_isSome_getElem?.mpr (by rw [h]; rfl))
    simp [hl] at heq
  · rfl

theorem mem_filesBelow_iff :
    names ∈ t.filesBelow l ↔ ∃ content, t.entry? (l ++ names) = some (.file content) := by
  simp only [entry?_eq_file_iff, filesBelow, List.mem_filterMap, Prod.exists,
    Std.ExtTreeMap.mem_toList_iff_getElem?_eq_some]
  constructor
  · rintro ⟨place, entry, hplace, hnames⟩
    cases entry with
    | folder => cases hnames
    | file content =>
      simp only [Option.ite_none_right_eq_some, Option.some.injEq] at hnames
      obtain ⟨hbelow, rfl⟩ := hnames
      obtain ⟨rest, rfl⟩ := List.isPrefixOf_iff_prefix.mp hbelow
      exact ⟨content, by simpa using hplace⟩
  · rintro ⟨content, h⟩
    exact ⟨l ++ names, .file content, h, by simp⟩

/-- A walk yields the files at or below its root. -/
theorem mem_walk_iff : p ∈ t.walk root ↔ ∃ l names content, t.locate root = .ok l ∧
    t.entry? (l ++ names) = some (.file content) ∧ p = root.below names := by
  constructor
  · intro hp
    unfold walk at hp
    split at hp
    · cases hp
    · next l hroot =>
      split at hp
      · next hfolder =>
        obtain ⟨names, hnames, rfl⟩ := List.mem_map.mp hp
        obtain ⟨content, hfile⟩ := mem_filesBelow_iff.mp hnames
        have hne : names ≠ [] := by
          rintro rfl
          simp [hfolder] at hfile
        exact ⟨l, names, content, hroot, hfile, by rw [Path.below, if_neg hne]⟩
      · next content hfile =>
        exact ⟨l, [], content, hroot, by simpa using hfile, List.mem_singleton.mp hp⟩
      · cases hp
  · rintro ⟨l, names, content, hroot, hfile, rfl⟩
    by_cases hnil : names = []
    · rw [hnil, List.append_nil] at hfile
      simp [walk, hroot, hfile, hnil, Path.below]
    · simp only [walk, hroot, isFolder_of_entry?_append hfile hnil, Path.below, if_neg hnil]
      exact List.mem_map_of_mem (mem_filesBelow_iff.mpr ⟨content, hfile⟩)

theorem found_iff : t.Found extensions root p ↔ p ∈ t.walk root ∧ matching extensions p := by
  rw [mem_walk_iff, matching_iff, Found]
  constructor
  · rintro ⟨l, names, content, hroot, hfile, hp, hextension⟩
    exact ⟨⟨l, names, content, hroot, hfile, hp⟩, hextension⟩
  · rintro ⟨⟨l, names, content, hroot, hfile, hp⟩, hextension⟩
    exact ⟨l, names, content, hroot, hfile, hp, hextension⟩

/-- A path that is found leads to its file. -/
theorem find?_of_found (h : t.Found extensions root p) :
    ∃ content, t.find? p = some (.file content) := by
  obtain ⟨l, names, content, hroot, hfile, rfl, -⟩ := h
  exact ⟨content, by rw [find?, locate_below hroot hfile]; exact hfile⟩

/-- Paths below a root with the same components lead by the same names. -/
theorem eq_of_components_below {names' : List String} {e' : Entry} (hroot : t.locate root = .ok l)
    (h : t.entry? (l ++ names) = some e) (h' : t.entry? (l ++ names') = some e')
    (heq : (root.below names).components = (root.below names').components) : names = names' := by
  have hspelling := spelling_ne_of_locate hroot
  rw [Path.components_below hspelling (isEntryName_of_entry?_eq h),
    Path.components_below hspelling (isEntryName_of_entry?_eq h'),
    List.append_cancel_left_eq] at heq
  exact List.map_injective_iff.mpr (fun _ _ hname => Component.name.inj hname) heq

theorem Found.eq_of_components_eq (hp : t.Found extensions root p)
    (hq : t.Found extensions root q) (h : p.components = q.components) : p = q := by
  obtain ⟨l, names, content, hroot, hfile, rfl, -⟩ := hp
  obtain ⟨m, names', content', hroot', hfile', rfl, -⟩ := hq
  obtain rfl : l = m := Except.ok.inj (hroot.symm.trans hroot')
  rw [eq_of_components_below hroot hfile hfile' h]

/-- A scan lists what is to be found. The set keeps the first of the paths with the same components,
and of what is to be found no two have the same. -/
theorem mem_scan_iff : p ∈ t.scan extensions root ↔ t.Found extensions root p := by
  have hfound : ∀ q, q ∈ (t.walk root).filter (matching extensions) ↔
      t.Found extensions root q := by
    intro q
    rw [List.mem_filter, found_iff]
  rw [scan, PathSet.mem_values_ofPaths_iff, ← hfound]
  constructor
  · exact List.mem_of_find?_eq_some
  · intro hp
    cases hfind : ((t.walk root).filter (matching extensions)).find?
        (fun q => q.components = p.components) with
    | none => simpa using List.find?_eq_none.mp hfind p hp
    | some q =>
      have heq : q.components = p.components := by simpa using List.find?_some hfind
      have hq := (hfound q).mp (List.mem_of_find?_eq_some hfind)
      rw [hq.eq_of_components_eq ((hfound p).mp hp) heq]

theorem find?_of_mem_scan (h : p ∈ t.scan extensions root) :
    ∃ content, t.find? p = some (.file content) :=
  find?_of_found (mem_scan_iff.mp h)

/-- A scan is in the strict order of components. -/
theorem ordered_scan (t : FileTree) (extensions : NameSet) (root : Path) :
    (t.scan extensions root).Pairwise fun p q => compare p.components q.components = .lt :=
  PathSet.ordered_values_ofPaths _

theorem nodup_scan (t : FileTree) (extensions : NameSet) (root : Path) :
    (t.scan extensions root).Nodup := by
  refine (ordered_scan t extensions root).imp ?_
  rintro p _ hlt rfl
  simp at hlt

/-! ## Walks -/

/-- A list of entries is an order in which a walk can yield what stands at or below a location: it
has every entry there once, by the names that lead to it. -/
structure IsWalk (t : FileTree) (l : Location) (yielded : List (Location × Entry)) : Prop where
  once : (yielded.map Prod.fst).Nodup
  mem_iff : ∀ names e, (names, e) ∈ yielded ↔ t.entry? (l ++ names) = some e

/-- What stands at or below a location can be walked. Of the names in the table, those count that
lead to an entry there. -/
theorem exists_isWalk (t : FileTree) (l : Location) : ∃ yielded, t.IsWalk l yielded := by
  let places : List Location := ([] :: t.entries.keys.map (List.drop l.length)).dedup
  refine ⟨places.filterMap fun names => (t.entry? (l ++ names)).map (names, ·), ?_, ?_⟩
  · have hnames : (places.filterMap fun names => (t.entry? (l ++ names)).map (names, ·)).map
        Prod.fst = places.filter fun names => (t.entry? (l ++ names)).isSome := by
      rw [List.map_filterMap, ← List.filterMap_eq_filter]
      refine List.filterMap_congr fun names _ => ?_
      cases hentry : t.entry? (l ++ names) <;> simp [Option.guard, hentry]
    rw [hnames]
    exact (List.nodup_dedup _).filter _
  · intro names e
    simp only [List.mem_filterMap, Option.map_eq_some_iff, Prod.mk.injEq]
    constructor
    · rintro ⟨_, -, _, hentry, rfl, rfl⟩
      exact hentry
    · intro hentry
      refine ⟨names, List.mem_dedup.mpr ?_, e, hentry, rfl, rfl⟩
      by_cases hnil : names = []
      · simp [hnil]
      · have hmem : l ++ names ∈ t.entries := mem_entries_of_entry?_eq hentry (by simp [hnil])
        refine List.mem_cons_of_mem _ (List.mem_map.mpr ⟨l ++ names, ?_, by simp⟩)
        exact Std.ExtTreeMap.mem_keys.mpr hmem

/-- The paths of the files among some entries below a root whose extension is looked for. -/
def filesOf (extensions : NameSet) (root : Path) (yielded : List (Location × Entry)) : List Path :=
  (yielded.filterMap fun (names, e) =>
    match e with
    | .file _ => some (root.below names)
    | .folder => none).filter (matching extensions)

section

variable {yielded : List (Location × Entry)} (hroot : t.locate root = .ok l)
  (h : t.IsWalk l yielded)
include hroot h

theorem mem_filesOf_iff : p ∈ filesOf extensions root yielded ↔ t.Found extensions root p := by
  rw [filesOf, List.mem_filter, found_iff, mem_walk_iff]
  refine and_congr_left fun _ => ?_
  simp only [List.mem_filterMap, Prod.exists, h.mem_iff]
  constructor
  · rintro ⟨names, e, hentry, hp⟩
    cases e with
    | folder => cases hp
    | file content => exact ⟨l, names, content, hroot, hentry, (Option.some.inj hp).symm⟩
  · rintro ⟨m, names, content, hroot', hfile, rfl⟩
    obtain rfl : l = m := Except.ok.inj (hroot.symm.trans hroot')
    exact ⟨names, .file content, hfile, rfl⟩

theorem nodup_filesOf : (filesOf extensions root yielded).Nodup := by
  refine List.Pairwise.filter _ ?_
  rw [List.pairwise_filterMap]
  refine (List.pairwise_map.mp h.once).imp_of_mem ?_
  rintro ⟨names, e⟩ ⟨names', e'⟩ hentry hentry' hne p hp q hq heq
  have hpath : ∀ {names : List String} {e : Entry} {p : Path},
      (match e with
        | .file _ => some (root.below names)
        | .folder => none) = some p → p = root.below names := by
    intro names e p hp
    cases e with
    | folder => cases hp
    | file content => exact (Option.some.inj hp).symm
  rw [hpath hp, hpath hq] at heq
  exact hne (eq_of_components_below hroot ((h.mem_iff _ _).mp hentry) ((h.mem_iff _ _).mp hentry')
    (congrArg Path.components heq))

/-- Sorting what a walk yields gives the scan. -/
theorem mergeSort_filesOf :
    (filesOf extensions root yielded).mergeSort Path.isLE = t.scan extensions root := by
  have hperm : ((filesOf extensions root yielded).mergeSort Path.isLE).Perm
      (t.scan extensions root) := by
    refine (List.mergeSort_perm _ _).trans ?_
    rw [List.perm_ext_iff_of_nodup (nodup_filesOf hroot h) (nodup_scan t extensions root)]
    intro p
    rw [mem_filesOf_iff hroot h, mem_scan_iff]
  have hsorted : ((filesOf extensions root yielded).mergeSort Path.isLE).Pairwise
      fun p q => p.isLE q :=
    @List.pairwise_mergeSort _ Path.isLE (fun _ _ _ => Path.isLE_trans) Path.isLE_total _
  have hscan : (t.scan extensions root).Pairwise fun p q => p.isLE q :=
    (ordered_scan t extensions root).imp fun hlt => Ordering.isLE_of_eq_lt hlt
  have hantisymm : ∀ p q, p ∈ (filesOf extensions root yielded).mergeSort Path.isLE →
      q ∈ t.scan extensions root → p.isLE q → q.isLE p → p = q := by
    intro p q hp hq hpq hqp
    have hcomponents : p.components = q.components :=
      Std.compare_eq_iff_eq.mp (Std.OrientedCmp.isLE_antisymm hpq hqp)
    have hp : t.Found extensions root p := mem_scan_iff.mp (hperm.mem_iff.mp hp)
    exact hp.eq_of_components_eq (mem_scan_iff.mp hq) hcomponents
  exact hperm.eq_of_pairwise hantisymm hsorted hscan

end

/-- A scan finds the files at or below its root whose last component has one of the extensions, and
nothing else. What it finds leads to files, so no folder is among it. It lists them in the strict
order of their components, and it is what one gets by sorting the files among the entries that a
walk yields, in whatever order it does. -/
theorem mem_scan_iff_and_ordered (t : FileTree) (extensions : NameSet) (root : Path) :
    (∀ p, p ∈ t.scan extensions root ↔ t.Found extensions root p) ∧
    (∀ p ∈ t.scan extensions root, ∃ content, t.find? p = some (.file content)) ∧
    ((t.scan extensions root).Pairwise fun p q => compare p.components q.components = .lt) ∧
    ∀ l yielded, t.locate root = .ok l → t.IsWalk l yielded →
      (filesOf extensions root yielded).mergeSort Path.isLE = t.scan extensions root :=
  ⟨fun _ => mem_scan_iff, fun _ => find?_of_mem_scan,
    ordered_scan t extensions root, fun _ _ hroot hwalk => mergeSort_filesOf hroot hwalk⟩

/-- The theorem applies to a tree with a folder whose name has the extension, names without one, and
a file that comes behind a longer path although its spelling is less. -/
theorem mem_scan_iff_and_ordered_of_texts :
    let t := ofTexts [("d/a.R", ""), ("d-e.R", ""), ("e.R/.R", ""), ("e.R/b.c.R", ""),
      ("e.R/R", ""), ("e.R/c.R.", "")]
    let extensions : NameSet := .ofList ["R"]
    let found : List Path := [⟨"./d/a.R"⟩, ⟨"./d-e.R"⟩, ⟨"./e.R/b.c.R"⟩]
    t.locate ⟨"./"⟩ = .ok [] ∧ (∃ yielded, t.IsWalk [] yielded ∧
      (filesOf extensions ⟨"./"⟩ yielded).mergeSort Path.isLE = found) ∧
      (∀ p, t.Found extensions ⟨"./"⟩ p ↔ p ∈ found) ∧ t.isFolder ⟨"./e.R"⟩ ∧
      ∀ p, t.Found extensions ⟨"d/../d-e.R"⟩ p ↔ p = ⟨"d/../d-e.R"⟩ := by
  intro t extensions found
  have hroot : t.locate ⟨"./"⟩ = .ok [] := by decide +kernel
  have hscan : t.scan extensions ⟨"./"⟩ = found := by decide +kernel
  have hfile : t.scan extensions ⟨"d/../d-e.R"⟩ = [⟨"d/../d-e.R"⟩] := by decide +kernel
  obtain ⟨yielded, hwalk⟩ := exists_isWalk t []
  obtain ⟨hmem, -, -, hsort⟩ := mem_scan_iff_and_ordered t extensions ⟨"./"⟩
  obtain ⟨hmem', -⟩ := mem_scan_iff_and_ordered t extensions ⟨"d/../d-e.R"⟩
  refine ⟨hroot, ⟨yielded, hwalk, ?_⟩, fun p => ?_, by decide +kernel, fun p => ?_⟩
  · rw [hsort [] yielded hroot hwalk, hscan]
  · rw [← hmem, hscan]
  · rw [← hmem', hfile, List.mem_singleton]

end FileTree

end CallAtlas
