import CallAtlas.Text.Pieces
import Std.Data.ExtTreeMap

/-!
# Paths

A path keeps its spelling, which is how reports show it. Two paths are the same, and one comes
before the other, by their components alone: `d//a`, `d/./a` and `d/a` have the same ones. A
leading dot is a component, and `..` is kept as it is. A set of paths keeps the spelling that
came first.
-/

namespace CallAtlas

/-- A path as it is written. -/
structure Path where
  spelling : String
deriving DecidableEq, Repr

/-- A component of a path. -/
inductive Component where
  /-- The slash that an absolute path starts with. -/
  | root
  /-- The dot that a relative path may start with. -/
  | here
  /-- `..` -/
  | parent
  | name (text : String)
deriving DecidableEq, Repr

namespace Component

/-- The place of a component among those of another kind. -/
def rank : Component → Nat
  | root => 0
  | here => 1
  | parent => 2
  | name _ => 3

/-- The place of a component among those of its kind. -/
def label : Component → String
  | name text => text
  | _ => ""

/-- The special components come first, and names are in the order of their characters. -/
instance : Ord Component where
  compare := compareLex (compareOn rank) (compareOn label)

instance : Std.TransOrd Component :=
  inferInstanceAs (Std.TransCmp (compareLex (compareOn rank) (compareOn label)))

instance : Std.LawfulEqOrd Component where
  eq_of_compare {a b} h := by
    have h : compareLex (compareOn rank) (compareOn label) a b = .eq := h
    simp only [compareLex, compareOn, Ordering.then_eq_eq, Std.compare_eq_iff_eq] at h
    cases a <;> cases b <;> simp_all [rank, label]

end Component

namespace Path

/-- The parts of a path between its slashes, empty ones included. -/
def parts (p : Path) : List String :=
  (Text.pieces '/' p.spelling.toList).map String.ofList

/-- The component that a part of a path stands for, unless it is passed over. -/
def component? (part : String) : Option Component :=
  if part = "" ∨ part = "." then none
  else if part = ".." then some .parent
  else some (.name part)

/-- The components of a path. -/
def components (p : Path) : List Component :=
  match p.parts with
  | [] => []
  | first :: rest =>
    let lead :=
      if first = "." then [.here]
      else if first = "" then (if rest = [] then [] else [.root])
      else (component? first).toList
    lead ++ rest.filterMap component?

/-- The text behind the last dot of a name, if that dot is not its first character. -/
def nameExtension? (name : List Char) : Option (List Char) :=
  let after := (name.reverse.takeWhile (fun c => c != '.')).reverse
  if after.length + 1 < name.length then some after else none

/-- The extension of the last component. -/
def extension? (p : Path) : Option String :=
  match p.components.getLast? with
  | some (.name text) => (nameExtension? text.toList).map String.ofList
  | _ => none

/-- A path below a folder. No slash is added behind one. -/
def join (folder : Path) (names : List String) : Path :=
  let slash := if folder.spelling.toList.getLast? = some '/' then "" else "/"
  ⟨folder.spelling ++ slash ++ "/".intercalate names⟩

end Path

/-- A set of paths in their order, each in the spelling that came first. -/
abbrev PathSet := Std.ExtTreeMap (List Component) Path

namespace PathSet

/-- Adds a path, unless the set holds it in some spelling. -/
def add (s : PathSet) (p : Path) : PathSet :=
  s.insertIfNew p.components p

/-- The set of the paths in a list. -/
def ofPaths (ps : List Path) : PathSet :=
  ps.foldl add ∅

end PathSet

end CallAtlas
