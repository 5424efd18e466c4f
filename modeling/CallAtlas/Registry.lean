import CallAtlas.Definition

/-!
# The registry of functions

Definitions are folded into a registry in the order they are found. The last definition of a
name counts, and the files that defined it before are kept as its duplicates.
-/

namespace CallAtlas

/-- The definition that counts for each name, and the files of the earlier ones. -/
structure Registry where
  definitions : Std.ExtTreeMap String Definition
  duplicates : Std.ExtTreeMap String PathSet

namespace Registry

/-- The registry without definitions. -/
def empty : Registry := ⟨∅, ∅⟩

/-- The definition that counts for a name. -/
def get? (r : Registry) (name : String) : Option Definition :=
  r.definitions[name]?

/-- Whether a name is defined. -/
def contains (r : Registry) (name : String) : Bool :=
  r.definitions.contains name

/-- The names that are defined, in order. -/
def names (r : Registry) : List String :=
  r.definitions.keys

/-- The files of the earlier definitions of a name. -/
def earlier? (r : Registry) (name : String) : Option PathSet :=
  r.duplicates[name]?

/-- Adds a definition. The file of the one it replaces joins the duplicates of the name. -/
def bind (r : Registry) (d : Definition) : Registry where
  definitions := r.definitions.insert d.name d
  duplicates :=
    match r.get? d.name with
    | none => r.duplicates
    | some previous =>
      r.duplicates.insert d.name (((r.earlier? d.name).getD ∅).add previous.sourceFile)

/-- Adds definitions one after the other. -/
def bindAll (r : Registry) (ds : List Definition) : Registry :=
  ds.foldl bind r

/-- The registry of a list of definitions. -/
def ofDefinitions (ds : List Definition) : Registry :=
  empty.bindAll ds

end Registry

end CallAtlas
