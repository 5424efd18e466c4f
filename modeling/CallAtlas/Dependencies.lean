import CallAtlas.CallTarget
import CallAtlas.Registry

/-!
# Dependencies

Which functions each function calls, as a map from names to sets of names. `Registry.resolve`
makes the map of a registry: a call counts if its target is registered.
-/

namespace CallAtlas

/-- The callees of each caller. -/
structure Dependencies where
  callees : Std.ExtTreeMap String NameSet

namespace Dependencies

/-- The map of a list of callers with their callees, where a caller's last entry counts. -/
def ofCalls (calls : List (String × List String)) : Dependencies where
  callees := calls.foldl (fun m (caller, names) => m.insert caller (.ofList names)) ∅

/-- The callees of a caller. -/
def get? (m : Dependencies) (caller : String) : Option NameSet :=
  m.callees[caller]?

/-- The callers with their callees, all in order. -/
def entries (m : Dependencies) : List (String × List String) :=
  m.callees.toList.map fun (caller, names) => (caller, names.toList)

/-- The calls, in the order of their callers and then of their callees. -/
def pairs (m : Dependencies) : List (String × String) :=
  m.entries.flatMap fun (caller, names) => names.map (caller, ·)

/-- The number of calls. -/
def callCount (m : Dependencies) : Nat :=
  (m.entries.map (fun entry => entry.2.length)).foldr (· + ·) 0

/-- All callers and callees. -/
def names (m : Dependencies) : NameSet :=
  .ofList (m.entries.flatMap fun (caller, names) => caller :: names)

/-- Adds a call. -/
def addCall (m : Dependencies) (caller callee : String) : Dependencies where
  callees := m.callees.insert caller ((m.callees.getD caller ∅).insert callee)

end Dependencies

/-- The registered functions that each registered function calls, where `targets` gives the
names that a function literal may call. -/
def Registry.resolve (r : Registry) (targets : FunctionLiteral → NameSet) : Dependencies where
  callees := r.definitions.map fun _ d => (targets d.literal).filter r.contains

end CallAtlas
