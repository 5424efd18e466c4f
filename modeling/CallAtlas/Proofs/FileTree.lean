import Mathlib.Data.List.Induction
import CallAtlas.FileTree
import CallAtlas.Proofs.Path

/-!
# Where paths lead

An empty part of a path or a dot stays where it is, so a path that leads somewhere leads there by
its components alone (`locate_of_ok`). Two paths with the same components that both lead to a file
lead to the same one, and so they are read alike (`readText_eq_of_components_eq`).

Every entry stands in a folder, so the names that lead from a location to an entry below it can be
followed one by one (`foldlM_follow_of_entry?_eq`). `Path.below` is the path of an entry below a
root. It leads to the entry, however the root is spelled (`locate_below`), and its components are
those of the root and then the names (`Path.components_below`).
-/

namespace CallAtlas

namespace Path

/-- The path of what stands below a root, by the names that lead to it from there. -/
def below (root : Path) (names : List String) : Path :=
  if names = [] then root else root.join names

theorem component?_of_isEntryName {name : String} (h : IsEntryName name) :
    component? name = some (.name name) := by
  obtain ⟨hempty, hhere, hparent, -⟩ := h
  simp [component?, hempty, hhere, hparent]

/-- The components of a path below a root are those of the root and then the names. -/
theorem components_below {root : Path} {names : List String} (hroot : root.spelling ≠ "")
    (hnames : ∀ name ∈ names, IsEntryName name) :
    (root.below names).components = root.components ++ names.map .name := by
  have hcomponents : names.filterMap component? = names.map .name := by
    rw [← List.filterMap_eq_map]
    exact List.filterMap_congr fun name hname => component?_of_isEntryName (hnames name hname)
  unfold below
  split_ifs with hne
  · simp [hne]
  · rw [components_join hroot hne fun name hname => (hnames name hname).2.2.2, hcomponents]

end Path

namespace FileTree

variable {t : FileTree} {p q root : Path} {l m : Location} {names : List String} {e : Entry}

/-- The tree with some texts as files. -/
def ofTexts (files : List (String × String)) : FileTree :=
  files.foldl (fun t file => (t.makeFile ⟨file.1⟩ file.2.toUTF8).toOption.getD t) empty

/-! ## What a path leads to -/

theorem holds_iff : t.holds p ↔ t.find? p ≠ none := by
  rw [holds, Option.isSome_iff_ne_none]

theorem isFolder_iff : t.isFolder p ↔ t.find? p = some .folder := by
  unfold isFolder
  split <;> simp_all

theorem isFile_iff : t.isFile p ↔ ∃ content, t.find? p = some (.file content) := by
  unfold isFile
  split <;> simp_all

theorem holds_of_isFile (h : t.isFile p) : t.holds p := by
  obtain ⟨content, hfind⟩ := isFile_iff.mp h
  simp [holds, hfind]

/-- A part that stays where it is leads nowhere else. -/
theorem eq_of_follow {part : String} (hstays : part = "" ∨ part = ".")
    (h : t.follow l part = .ok m) : m = l := by
  unfold follow at h
  split_ifs at h
  exact (Except.ok.inj h).symm

/-- The parts that stay where they are can be left out. -/
theorem foldlM_follow_filter : ∀ {parts : List String} {l : Location},
    parts.foldlM t.follow l = .ok m →
      (parts.filter fun part => ¬(part = "" ∨ part = ".")).foldlM t.follow l = .ok m
  | [], _, h => h
  | part :: parts, l, h => by
    rw [List.foldlM_cons] at h
    cases hfollow : t.follow l part with
    | error e =>
      rw [hfollow] at h
      cases h
    | ok next =>
      rw [hfollow] at h
      have hrest := foldlM_follow_filter (h : parts.foldlM t.follow next = .ok m)
      by_cases hstays : part = "" ∨ part = "."
      · rw [List.filter_cons, if_neg (mt of_decide_eq_true (not_not.mpr hstays)),
          ← eq_of_follow hstays hfollow]
        exact hrest
      · rw [List.filter_cons, if_pos (decide_eq_true hstays), List.foldlM_cons, hfollow]
        exact hrest

/-- A path that leads somewhere leads there by its components. -/
theorem locate_of_ok (h : t.locate p = .ok l) :
    (p.components.filterMap Component.part?).foldlM t.follow
      (if p.components.head? = some .root then [] else t.home) = .ok l := by
  unfold locate at h
  split_ifs at h
  simp only [p.filterMap_part?_components, p.head?_components_iff]
  exact foldlM_follow_filter h

theorem exists_locate_of_isFile (h : t.isFile p) : ∃ l, t.locate p = .ok l := by
  unfold isFile find? at h
  cases hlocate : t.locate p with
  | error e => simp [hlocate] at h
  | ok l => exact ⟨l, rfl⟩

/-- Paths of files with the same components are read alike. -/
theorem readText_eq_of_components_eq (hp : t.isFile p) (hq : t.isFile q)
    (h : p.components = q.components) : t.readText p = t.readText q := by
  obtain ⟨l, hl⟩ := exists_locate_of_isFile hp
  obtain ⟨m, hm⟩ := exists_locate_of_isFile hq
  have hlm : l = m := by
    have hbyp := locate_of_ok hl
    rw [h, locate_of_ok hm] at hbyp
    exact (Except.ok.inj hbyp).symm
  rw [readText, readText, readBytes, readBytes, hl, hm, hlm]

/-! ## Entries below a location -/

/-- All but the top folder is in the table. -/
theorem mem_entries_of_entry?_eq (h : t.entry? l = some e) (hne : l ≠ []) : l ∈ t.entries := by
  unfold entry? entryAt at h
  rw [if_neg hne] at h
  exact Std.ExtTreeMap.mem_iff_isSome_getElem?.mpr (by rw [h]; rfl)

/-- An entry has a name and stands in a folder. -/
theorem placed_of_entry?_eq {name : String} (h : t.entry? (l ++ [name]) = some e) :
    IsEntryName name ∧ t.entry? l = some .folder := by
  obtain ⟨folder, name', heq, hname, hfolder⟩ := t.placed _ (mem_entries_of_entry?_eq h (by simp))
  obtain ⟨rfl, hnames⟩ := List.append_inj' heq rfl
  obtain rfl := List.singleton_inj.mp hnames
  exact ⟨hname, hfolder⟩

theorem isEntryName_of_entry?_eq (h : t.entry? (l ++ names) = some e) :
    ∀ name ∈ names, IsEntryName name := by
  induction names using List.reverseRecOn generalizing e with
  | nil => simp
  | append_singleton names last ih =>
    rw [← List.append_assoc] at h
    obtain ⟨hlast, hfolder⟩ := placed_of_entry?_eq h
    simpa [or_imp, forall_and] using ⟨ih hfolder, hlast⟩

theorem follow_of_entry?_eq {name : String} (h : t.entry? (l ++ [name]) = some e) :
    t.follow l name = .ok (l ++ [name]) := by
  obtain ⟨⟨hempty, hhere, hparent, -⟩, hfolder⟩ := placed_of_entry?_eq h
  simp [follow, isFolderAt_iff.mpr hfolder, hempty, hhere, hparent, h]

theorem foldlM_follow_concat (parts : List String) (part : String) (l : Location) :
    (parts ++ [part]).foldlM t.follow l = parts.foldlM t.follow l >>= (t.follow · part) := by
  simp

/-- The empty part behind a last slash stays where the parts before it lead. -/
theorem foldlM_follow_of_slash {parts : List String}
    (h : (parts ++ [""]).foldlM t.follow l = .ok m) : parts.foldlM t.follow l = .ok m := by
  rw [foldlM_follow_concat] at h
  cases hparts : parts.foldlM t.follow l with
  | error reason =>
    rw [hparts] at h
    cases h
  | ok before =>
    rw [hparts] at h
    rw [eq_of_follow (Or.inl rfl) (h : t.follow before "" = .ok m)]

/-- The names that lead from a location to an entry can be followed. -/
theorem foldlM_follow_of_entry?_eq (h : t.entry? (l ++ names) = some e) :
    names.foldlM t.follow l = .ok (l ++ names) := by
  induction names using List.reverseRecOn generalizing e with
  | nil => simp [pure, Except.pure]
  | append_singleton names last ih =>
    rw [← List.append_assoc] at h
    rw [foldlM_follow_concat, ih (placed_of_entry?_eq h).2, ← List.append_assoc]
    exact follow_of_entry?_eq h

/-- A path below a root leads to what stands there. With or without a last slash, the other parts of
the root lead where it leads. -/
theorem locate_below (hroot : t.locate root = .ok l) (h : t.entry? (l ++ names) = some e) :
    t.locate (root.below names) = .ok (l ++ names) := by
  unfold Path.below
  split_ifs with hne
  · simp [hne, hroot]
  unfold locate at hroot
  split_ifs at hroot with hspelling
  have hnames : ∀ name ∈ names, '/' ∉ name.toList := fun name hname =>
    (isEntryName_of_entry?_eq h name hname).2.2.2
  have hjoin : (root.join names).spelling ≠ "" := by
    obtain ⟨base, hjoin, -⟩ := Path.exists_toList_join hspelling names
    intro hempty
    simp [hempty] at hjoin
  obtain ⟨first, rest, hparts, hrootParts⟩ := Path.exists_parts_join hspelling hne hnames
  have hstart : t.start (root.join names) = t.start root := by
    rw [start, start, Path.head?_join hspelling]
  have hfolder : (first :: rest).foldlM t.follow (t.start root) = .ok l := by
    rcases hrootParts with ⟨hrootParts, -⟩ | hrootParts <;> rw [hrootParts] at hroot
    · exact hroot
    · exact foldlM_follow_of_slash hroot
  rw [locate, if_neg hjoin, hparts, hstart, ← List.cons_append, List.foldlM_append, hfolder]
  exact foldlM_follow_of_entry?_eq h

end FileTree

end CallAtlas
