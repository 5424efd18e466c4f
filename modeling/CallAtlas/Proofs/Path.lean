import Mathlib.Data.List.TakeWhile
import CallAtlas.Path
import CallAtlas.Proofs.Text.Pieces

/-!
# Components and sets of paths

The components of a path say where it starts (`Path.head?_components_iff`) and which of its parts
lead on (`Path.filterMap_part?_components`); empty parts and dots do not. A path that is joined from
a folder and names has the components of the folder and then those of the names
(`Path.components_join`), whether the folder ends with a slash or not. The extension of a path is
what follows the last dot of its last component (`Path.extension?_eq_some_iff`).

A set of paths holds the components of the paths that were added to it (`mem_add_iff`,
`mem_ofPaths_iff`), so paths with the same components count as one. It keeps the first of them
(`getElem?_ofPaths`) and lists them by their components (`ordered_values_ofPaths`).
-/

namespace CallAtlas

/-- The part of a path that a component leads on by, if it does. -/
def Component.part? : Component → Option String
  | root | here => none
  | parent => some ".."
  | name text => some text

namespace Path

/-! ## Components -/

theorem bind_part?_component? (part : String) :
    (component? part).bind Component.part? =
      if part = "" ∨ part = "." then none else some part := by
  unfold component?
  split_ifs with hstays hparent
  · rfl
  · rw [hparent]
    rfl
  · rfl

/-- The components of a path hold the parts that lead on, in their order. -/
theorem filterMap_part?_components (p : Path) :
    p.components.filterMap Component.part? =
      p.parts.filter fun part => ¬(part = "" ∨ part = ".") := by
  have hparts : ∀ parts : List String,
      (parts.filterMap component?).filterMap Component.part? =
        parts.filter fun part => ¬(part = "" ∨ part = ".") := by
    intro parts
    rw [List.filterMap_filterMap, ← List.filterMap_eq_filter]
    refine List.filterMap_congr fun part _ => ?_
    rw [bind_part?_component?, Option.guard]
    by_cases hstays : part = "" ∨ part = "." <;> simp [hstays]
  unfold components
  cases p.parts with
  | nil => rfl
  | cons first rest =>
    simp only [List.filterMap_append, hparts, List.filter_cons]
    by_cases hhere : first = "."
    · simp [hhere, Component.part?]
    by_cases hempty : first = ""
    · by_cases hrest : rest = [] <;> simp [hempty, hrest, Component.part?]
    · have hpart := bind_part?_component? first
      rw [if_neg (by simp [hhere, hempty])] at hpart
      obtain ⟨c, hc, hpart⟩ := Option.bind_eq_some_iff.mp hpart
      simp [hhere, hempty, hc, hpart]

/-- A path starts at the top folder if its first component is the root. -/
theorem head?_components_iff (p : Path) :
    p.components.head? = some .root ↔ p.spelling.toList.head? = some '/' := by
  unfold components parts
  cases p.spelling.toList with
  | nil => simp [Text.pieces]
  | cons c cs =>
    by_cases hc : c = '/'
    · rw [hc, Text.pieces_cons_self]
      simp [Text.pieces_ne_nil]
    · obtain ⟨piece, more, -, hpieces⟩ := Text.pieces_cons_of_ne hc cs
      have hfirst : String.ofList (c :: piece) ≠ "" := by simp
      rw [hpieces, List.map_cons, List.head?_cons, Option.some.injEq]
      refine iff_of_false ?_ hc
      simp only [hfirst, if_false, component?, false_or]
      split_ifs <;> simp

/-! ## Joining -/

/-- A joined path is spelled as the folder without its last slash, a slash, and the names. -/
theorem exists_toList_join {folder : Path} (hfolder : folder.spelling ≠ "") (names : List String) :
    ∃ base, (folder.join names).spelling.toList =
        base ++ '/' :: ['/'].intercalate (names.map String.toList) ∧
      (folder.spelling.toList = base ∧ base ≠ [] ∨ folder.spelling.toList = base ++ ['/']) := by
  by_cases hslash : folder.spelling.toList.getLast? = some '/'
  · obtain ⟨base, hbase⟩ := List.getLast?_eq_some_iff.mp hslash
    refine ⟨base, ?_, Or.inr hbase⟩
    simp [join, hbase, String.toList_intercalate]
  · refine ⟨folder.spelling.toList, ?_, Or.inl ⟨rfl, by simpa using hfolder⟩⟩
    simp [join, hslash, String.toList_intercalate]

theorem head?_join {folder : Path} (hfolder : folder.spelling ≠ "") (names : List String) :
    (folder.join names).spelling.toList.head? = folder.spelling.toList.head? := by
  obtain ⟨base, hjoin, ⟨hbase, hne⟩ | hbase⟩ := exists_toList_join hfolder names
  · rw [hjoin, hbase, List.head?_append_of_ne_nil _ hne]
  · rw [hjoin, hbase]
    cases base <;> simp

/-- The parts of a joined path are those of the folder, up to an empty one behind its last slash,
and then the names. -/
theorem exists_parts_join {folder : Path} {names : List String} (hfolder : folder.spelling ≠ "")
    (hne : names ≠ []) (hnames : ∀ name ∈ names, '/' ∉ name.toList) :
    ∃ first rest, (folder.join names).parts = first :: (rest ++ names) ∧
      (folder.parts = first :: rest ∧ first :: rest ≠ [""] ∨
        folder.parts = first :: (rest ++ [""])) := by
  obtain ⟨base, hjoin, hbase⟩ := exists_toList_join hfolder names
  obtain ⟨first, rest, hparts⟩ :
      ∃ first rest, (Text.pieces '/' base).map String.ofList = first :: rest :=
    List.exists_cons_of_ne_nil (by simp [Text.pieces_ne_nil])
  have hpieces : (Text.pieces '/' (['/'].intercalate (names.map String.toList))).map
      String.ofList = names := by
    rw [Text.pieces_intercalate (by simpa using hnames) (by simpa using hne)]
    simp
  refine ⟨first, rest, ?_, hbase.imp ?_ ?_⟩
  · rw [parts, hjoin, Text.pieces_append, List.map_append, hparts, hpieces, List.cons_append]
  · rintro ⟨hspelling, hbase⟩
    rw [← hparts]
    refine ⟨by rw [parts, hspelling], fun hempty => hbase ?_⟩
    have hinjective : Function.Injective (List.map String.ofList) :=
      List.map_injective_iff.mpr fun _ _ h => String.ofList_injective h
    exact Text.eq_nil_of_pieces (hinjective hempty : Text.pieces '/' base = [[]])
  · intro hspelling
    rw [parts, hspelling, Text.pieces_append, List.map_append, hparts]
    rfl

/-- The components that the first part of a path stands for, if more parts follow it. -/
def leading (first : String) : List Component :=
  if first = "." then [.here] else if first = "" then [.root] else (component? first).toList

theorem components_of_parts {p : Path} {first : String} {rest : List String}
    (h : p.parts = first :: rest) (hroot : first = "" → rest ≠ []) :
    p.components = leading first ++ rest.filterMap component? := by
  unfold components leading
  rw [h]
  by_cases hfirst : first = ""
  · simp [hfirst, hroot hfirst]
  · simp [hfirst]

/-- The components of a joined path are those of the folder and then those of the names. -/
theorem components_join {folder : Path} {names : List String} (hfolder : folder.spelling ≠ "")
    (hne : names ≠ []) (hnames : ∀ name ∈ names, '/' ∉ name.toList) :
    (folder.join names).components = folder.components ++ names.filterMap component? := by
  obtain ⟨first, rest, hjoin, hparts⟩ := exists_parts_join hfolder hne hnames
  have hcomponents : folder.components = leading first ++ rest.filterMap component? := by
    rcases hparts with ⟨hparts, hroot⟩ | hparts
    · exact components_of_parts hparts fun hfirst hrest => hroot (by rw [hfirst, hrest])
    · rw [components_of_parts hparts (by simp), List.filterMap_append]
      simp [component?]
  rw [components_of_parts hjoin (by simp [hne]), hcomponents, List.filterMap_append,
    List.append_assoc]

/-! ## Extensions -/

/-- The last component is a name of the form `stem.extension`, where the stem is not empty and the
extension has no dot. -/
def HasExtension (p : Path) (extension : String) : Prop :=
  ∃ stem, stem ≠ "" ∧ '.' ∉ extension.toList ∧
    p.components.getLast? = some (.name (stem ++ "." ++ extension))

theorem bne_dot_of_mem_reverse {cs : List Char} (h : '.' ∉ cs) :
    ∀ c ∈ cs.reverse, (c != '.') = true := by
  intro c hc
  simpa using ne_of_mem_of_not_mem (List.mem_reverse.mp hc) h

theorem nameExtension?_append {stem after : List Char} (h : '.' ∉ after) :
    nameExtension? (stem ++ '.' :: after) = if stem = [] then none else some after := by
  have hlast : ((stem ++ '.' :: after).reverse.takeWhile fun c => c != '.') = after.reverse := by
    rw [List.reverse_append, List.reverse_cons, List.append_assoc,
      List.takeWhile_append_of_pos (bne_dot_of_mem_reverse h)]
    simp
  simp only [nameExtension?, hlast, List.reverse_reverse]
  cases stem with
  | nil => simp
  | cons c stem =>
    have hlength : after.length + 1 < (c :: stem ++ '.' :: after).length := by
      rw [List.length_append, List.length_cons, List.length_cons]
      omega
    rw [if_pos hlength, if_neg (List.cons_ne_nil c stem)]

/-- The extension of a name stands behind its last dot, and something stands before that. -/
theorem nameExtension?_eq_some_iff {name after : List Char} :
    nameExtension? name = some after ↔
      ∃ stem, stem ≠ [] ∧ '.' ∉ after ∧ name = stem ++ '.' :: after := by
  constructor
  · intro h
    have hdot : '.' ∈ name := by
      by_contra hdot
      have hall := List.takeWhile_eq_self_iff.mpr (bne_dot_of_mem_reverse hdot)
      simp only [nameExtension?, hall, List.reverse_reverse] at h
      split_ifs at h with hlength
      omega
    obtain ⟨behind, before, hname, hbehind⟩ :=
      List.eq_append_cons_of_mem (List.mem_reverse.mpr hdot)
    have hname : name = before.reverse ++ '.' :: behind.reverse := by
      simpa using congrArg List.reverse hname
    have hbehind : '.' ∉ behind.reverse := by simpa using hbehind
    rw [hname, nameExtension?_append hbehind] at h
    split_ifs at h with hstem
    rw [← Option.some.inj h]
    exact ⟨before.reverse, hstem, hbehind, hname⟩
  · rintro ⟨stem, hstem, hafter, rfl⟩
    rw [nameExtension?_append hafter, if_neg hstem]

theorem extension?_eq_some_iff {p : Path} {extension : String} :
    p.extension? = some extension ↔ p.HasExtension extension := by
  have hname : ∀ name : String, (nameExtension? name.toList).map String.ofList = some extension ↔
      ∃ stem, stem ≠ "" ∧ '.' ∉ extension.toList ∧ name = stem ++ "." ++ extension := by
    intro name
    rw [Option.map_eq_some_iff]
    simp only [nameExtension?_eq_some_iff]
    constructor
    · rintro ⟨_, ⟨stem, hstem, hafter, hname⟩, rfl⟩
      refine ⟨String.ofList stem, by simpa using hstem, by simpa using hafter, ?_⟩
      apply String.toList_injective
      simpa using hname
    · rintro ⟨stem, hstem, hafter, rfl⟩
      refine ⟨extension.toList, ⟨stem.toList, by simpa using hstem, hafter, ?_⟩, by simp⟩
      simp
  unfold extension? HasExtension
  split
  · next text hlast =>
    rw [hname, hlast]
    simp
  · next hlast =>
    simp only [reduceCtorEq, false_iff]
    rintro ⟨stem, -, -, h⟩
    exact hlast _ h

end Path

namespace PathSet

variable {c : List Component}

/-! ## Sets -/

theorem mem_add_iff {s : PathSet} {p : Path} : c ∈ s.add p ↔ p.components = c ∨ c ∈ s := by
  rw [add, Std.ExtTreeMap.mem_insertIfNew, Std.compare_eq_iff_eq]

theorem mem_foldl_add_iff : ∀ {ps : List Path} {s : PathSet},
    c ∈ ps.foldl add s ↔ (∃ p ∈ ps, p.components = c) ∨ c ∈ s
  | [], s => by simp
  | p :: ps, s => by
    rw [List.foldl_cons, mem_foldl_add_iff, mem_add_iff, List.exists_mem_cons_iff,
      or_left_comm, or_assoc]

/-- The set of a list of paths holds the components of these paths. -/
theorem mem_ofPaths_iff {ps : List Path} : c ∈ ofPaths ps ↔ ∃ p ∈ ps, p.components = c := by
  rw [ofPaths, mem_foldl_add_iff]
  simp

theorem ofPaths_concat (ps : List Path) (p : Path) : ofPaths (ps ++ [p]) = (ofPaths ps).add p :=
  List.foldl_concat ..

theorem getElem?_foldl_add : ∀ (ps : List Path) (s : PathSet),
    (ps.foldl add s)[c]? = s[c]?.or (ps.find? fun p => p.components = c)
  | [], s => by simp
  | p :: ps, s => by
    rw [List.foldl_cons, getElem?_foldl_add ps, add, Std.ExtTreeMap.getElem?_insertIfNew]
    simp only [Std.compare_eq_iff_eq, List.find?_cons]
    by_cases hp : p.components = c
    · subst hp
      cases hget : s[p.components]? with
      | none => simp [Std.ExtTreeMap.mem_iff_isSome_getElem?, hget]
      | some q => simp [Std.ExtTreeMap.mem_iff_isSome_getElem?, hget]
    · simp [hp]

/-- The set of a list of paths keeps of those with the same components the first. -/
theorem getElem?_ofPaths (ps : List Path) (c : List Component) :
    (ofPaths ps)[c]? = ps.find? fun p => p.components = c := by
  rw [ofPaths, getElem?_foldl_add]
  simp

theorem values_eq_map_toList (s : PathSet) : s.values = s.toList.map Prod.snd := by
  have hfoldr : s.values = s.foldr (fun _ p ps => p :: ps) [] := rfl
  rw [hfoldr, Std.ExtTreeMap.foldr_eq_foldr_toList, List.map_eq_foldr]

theorem mem_values_ofPaths_iff {ps : List Path} {p : Path} : p ∈ (ofPaths ps).values ↔
    ps.find? (fun q => q.components = p.components) = some p := by
  simp only [values_eq_map_toList, List.mem_map, Prod.exists, exists_eq_right,
    Std.ExtTreeMap.mem_toList_iff_getElem?_eq_some, getElem?_ofPaths]
  constructor
  · rintro ⟨c, hc⟩
    have hp : p.components = c := by simpa using List.find?_some hc
    rwa [hp]
  · exact fun hp => ⟨_, hp⟩

/-- The paths of a set are in the strict order of their components. -/
theorem ordered_values_ofPaths (ps : List Path) :
    (ofPaths ps).values.Pairwise fun p q => compare p.components q.components = .lt := by
  rw [values_eq_map_toList, List.pairwise_map]
  refine Std.ExtTreeMap.ordered_keys_toList.imp_of_mem fun {a b} ha hb hab => ?_
  have hkey : ∀ e ∈ (ofPaths ps).toList, e.2.components = e.1 := by
    rintro ⟨c, p⟩ h
    rw [Std.ExtTreeMap.mem_toList_iff_getElem?_eq_some, getElem?_ofPaths] at h
    simpa using List.find?_some h
  rwa [hkey a ha, hkey b hb]

end PathSet

end CallAtlas
