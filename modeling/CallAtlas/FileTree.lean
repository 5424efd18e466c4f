import CallAtlas.Path
import CallAtlas.NameSet

/-!
# File trees

A file tree as a table of what stands where: a location is the list of names that leads to it
from the top folder. Every entry has a name and stands in a folder. A path starts at the top
folder if its first character is a slash, and at the working folder otherwise. Reading, writing
and scanning follow a path part by part. Every part but the last has to lead to a folder, an
empty part or a dot stays where it is, and `..` goes one folder up.
-/

namespace CallAtlas

/-- What stands at a location. -/
inductive Entry where
  | folder
  | file (content : ByteArray)

/-- The places in a file tree. -/
abbrev Location := List String

/-- Whether a text can be the name of an entry. -/
def IsEntryName (name : String) : Prop :=
  name ≠ "" ∧ name ≠ "." ∧ name ≠ ".." ∧ '/' ∉ name.toList

instance (name : String) : Decidable (IsEntryName name) :=
  inferInstanceAs (Decidable (_ ∧ _))

/-- What a table says of a location; the top folder is always there. -/
def entryAt (entries : Std.ExtTreeMap Location Entry) (l : Location) : Option Entry :=
  if l = [] then some .folder else entries[l]?

/-- The entries of a file tree below its top folder, and the working folder. -/
structure FileTree where
  entries : Std.ExtTreeMap Location Entry
  home : Location
  /-- Every entry has a name and stands in a folder. -/
  placed : ∀ l, l ∈ entries → ∃ folder name,
    l = folder ++ [name] ∧ IsEntryName name ∧ entryAt entries folder = some .folder

/-- Why a file cannot be read or written. -/
inductive AccessError where
  | missing
  | notFolder
  | isFolder
  | notText
deriving DecidableEq, Repr

/-- The wording of the reasons. -/
def AccessError.message : AccessError → String
  | missing => "No such file or directory (os error 2)"
  | notFolder => "Not a directory (os error 20)"
  | isFolder => "Is a directory (os error 21)"
  | notText => "stream did not contain valid UTF-8"

/-- Adding an entry to a folder leaves the other folders where they are, unless it takes the
place of one. -/
theorem entryAt_insert_of_folder {entries : Std.ExtTreeMap Location Entry} {l folder : Location}
    {e : Entry} (h : entryAt entries l ≠ some .folder)
    (hf : entryAt entries folder = some .folder) :
    entryAt (entries.insert l e) folder = some .folder := by
  have hne : l ≠ folder := fun heq => h (heq ▸ hf)
  unfold entryAt at hf ⊢
  split
  · rfl
  · rename_i hn
    rw [if_neg hn] at hf
    rw [Std.ExtTreeMap.getElem?_insert, if_neg (by simpa using hne)]
    exact hf

namespace FileTree

/-- The tree with nothing in it. -/
def empty : FileTree where
  entries := ∅
  home := []
  placed := by simp

/-- What stands at a location. -/
def entry? (t : FileTree) (l : Location) : Option Entry :=
  entryAt t.entries l

/-- Whether a folder stands at a location. -/
def isFolderAt (t : FileTree) (l : Location) : Bool :=
  match t.entry? l with
  | some .folder => true
  | _ => false

theorem isFolderAt_iff {t : FileTree} {l : Location} :
    t.isFolderAt l = true ↔ t.entry? l = some .folder := by
  unfold isFolderAt
  split <;> simp_all

/-- Follows one part of a path from a location. -/
def follow (t : FileTree) (l : Location) (part : String) : Except AccessError Location :=
  if t.isFolderAt l then
    if part = "" ∨ part = "." then .ok l
    else if part = ".." then .ok l.dropLast
    else if (t.entry? (l ++ [part])).isSome then .ok (l ++ [part])
    else .error .missing
  else .error .notFolder

/-- The location that a path starts at. -/
def start (t : FileTree) (p : Path) : Location :=
  if p.spelling.toList.head? = some '/' then [] else t.home

/-- The location that a path leads to. -/
def locate (t : FileTree) (p : Path) : Except AccessError Location :=
  if p.spelling = "" then .error .missing else p.parts.foldlM t.follow (t.start p)

/-- What a path leads to. -/
def find? (t : FileTree) (p : Path) : Option Entry :=
  match t.locate p with
  | .ok l => t.entry? l
  | .error _ => none

/-- Whether a path leads to anything. -/
def holds (t : FileTree) (p : Path) : Bool :=
  (t.find? p).isSome

/-- Whether a path leads to a folder. -/
def isFolder (t : FileTree) (p : Path) : Bool :=
  match t.find? p with
  | some .folder => true
  | _ => false

/-- Whether a path leads to a file. -/
def isFile (t : FileTree) (p : Path) : Bool :=
  match t.find? p with
  | some (.file _) => true
  | _ => false

/-! ## Reading and writing -/

/-- The bytes of a file. -/
def readBytes (t : FileTree) (p : Path) : Except AccessError ByteArray := do
  match t.entry? (← t.locate p) with
  | some (.file content) => return content
  | some .folder => throw .isFolder
  | none => throw .missing

/-- The text of a file. -/
def readText (t : FileTree) (p : Path) : Except AccessError String := do
  match String.fromUTF8? (← t.readBytes p) with
  | some text => return text
  | none => throw .notText

/-- Puts an entry into a folder, where no folder has its name. -/
def put (t : FileTree) (folder : Location) (name : String) (e : Entry) (hn : IsEntryName name)
    (hf : t.isFolderAt folder = true) (hl : t.isFolderAt (folder ++ [name]) = false) :
    FileTree where
  entries := t.entries.insert (folder ++ [name]) e
  home := t.home
  placed := by
    have hl : entryAt t.entries (folder ++ [name]) ≠ some .folder := fun h =>
      Bool.false_ne_true (hl.symm.trans (isFolderAt_iff.2 h))
    intro l h
    rcases Std.ExtTreeMap.mem_insert.1 h with h | h
    · refine ⟨folder, name, ?_, hn, entryAt_insert_of_folder hl (isFolderAt_iff.1 hf)⟩
      exact (Std.compare_eq_iff_eq.1 h).symm
    · obtain ⟨folder', name', heq, hn', hf'⟩ := t.placed l h
      exact ⟨folder', name', heq, hn', entryAt_insert_of_folder hl hf'⟩

/-- Puts a file into a folder, over the one that has its name. -/
def putFile (t : FileTree) (folder : Location) (name : String) (content : ByteArray) :
    Except AccessError FileTree :=
  if hf : t.isFolderAt folder = true then
    if h : IsEntryName name ∧ t.isFolderAt (folder ++ [name]) = false then
      .ok (t.put folder name (.file content) h.1 hf h.2)
    else .error .isFolder
  else .error .notFolder

/-- The parts of a path up to its last name, that name, and whether slashes follow it. -/
def splitLast (p : Path) : List String × String × Bool :=
  let trailing := p.parts.reverse.takeWhile (fun part => part = "")
  match p.parts.reverse.drop trailing.length with
  | last :: before => (before.reverse, last, !trailing.isEmpty)
  | [] => ([], "", true)

/-- Writes a file into a folder that is there, over the one that has its name. -/
def write (t : FileTree) (p : Path) (text : String) : Except AccessError FileTree := do
  if p.spelling = "" then throw .missing
  let (before, last, slashed) := splitLast p
  let folder ← before.foldlM t.follow (t.start p)
  if slashed && t.isFolderAt folder then throw .isFolder
  t.putFile folder last text.toUTF8

/-! ## Building -/

/-- Follows one part of a path, and makes a folder where nothing stands. -/
def makeWay (way : FileTree × Location) (part : String) :
    Except AccessError (FileTree × Location) :=
  let (t, l) := way
  if part = "" ∨ part = "." then .ok (t, l)
  else if part = ".." then .ok (t, l.dropLast)
  else if hl : t.isFolderAt (l ++ [part]) = true then .ok (t, l ++ [part])
  else if h : IsEntryName part ∧ t.isFolderAt l = true ∧ (t.entry? (l ++ [part])).isNone then
    .ok (t.put l part .folder h.1 h.2.1 (eq_false_of_ne_true hl), l ++ [part])
  else .error .notFolder

/-- Makes a folder, with the folders on the way to it. -/
def makeFolder (t : FileTree) (p : Path) : Except AccessError FileTree := do
  return (← p.parts.foldlM makeWay (t, t.start p)).1

/-- Makes a folder and works in it. -/
def enter (t : FileTree) (p : Path) : Except AccessError FileTree := do
  let (t, l) ← p.parts.foldlM makeWay (t, t.start p)
  return { t with home := l }

/-- Makes a file, with the folders on the way to it. -/
def makeFile (t : FileTree) (p : Path) (content : ByteArray) : Except AccessError FileTree := do
  let (before, last, _) := splitLast p
  let (t, l) ← before.foldlM makeWay (t, t.start p)
  t.putFile l last content

/-! ## Scanning -/

/-- The files below a location, each by the names that lead to it from there. -/
def filesBelow (t : FileTree) (l : Location) : List Location :=
  t.entries.toList.filterMap fun (place, entry) =>
    match entry with
    | .file _ => if l.isPrefixOf place then some (place.drop l.length) else none
    | .folder => none

/-- Whether the extension of a path is among those looked for. -/
def matching (extensions : NameSet) (p : Path) : Bool :=
  p.extension?.any extensions.contains

/-- The files at or below a path, as paths. -/
def walk (t : FileTree) (root : Path) : List Path :=
  match t.locate root with
  | .error _ => []
  | .ok l =>
    match t.entry? l with
    | some .folder => (t.filesBelow l).map root.join
    | some (.file _) => [root]
    | none => []

/-- The files at or below a path whose extension is among those looked for, in the order of
paths. -/
def scan (t : FileTree) (extensions : NameSet) (root : Path) : List Path :=
  (PathSet.ofPaths ((t.walk root).filter (matching extensions))).values

/-- The paths with each folder among them replaced by the files found in it. -/
def expand (t : FileTree) (extensions : NameSet) (inputs : List Path) : List Path :=
  inputs.flatMap fun input => if t.isFolder input then t.scan extensions input else [input]

end FileTree

end CallAtlas
