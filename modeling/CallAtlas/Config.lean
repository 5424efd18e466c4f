import CallAtlas.FileTree
import CallAtlas.Json.Reader

/-!
# Configuration

What a run can be told: whether functions that are not connected with the center are kept,
which extensions source files have, and which functions call their arguments. A configuration
file is a JSON object with a field for each, or a JSON list with the three values in order.
What is not given takes its default value, and nothing else may be given.
-/

namespace CallAtlas

/-- The settings of a run. -/
structure Config where
  includeDisconnected : Bool := true
  extensions : List String := ["R", "r"]
  higherOrder : List String :=
    ["lapply", "sapply", "vapply", "mapply", "Map", "Reduce", "Filter", "Find", "Position",
     "do.call", "match.fun", "outer", "apply", "tapply"]
deriving DecidableEq, Repr

/-- Why there is no configuration: the file cannot be read, or holds something else. -/
inductive ConfigError where
  | unreadable (path : Path) (reason : AccessError)
  | invalid (path : Path) (reason : String)
deriving DecidableEq, Repr

namespace ConfigError

/-- The reason alone. -/
def reason : ConfigError → String
  | unreadable _ reason => reason.message
  | invalid _ reason => reason

/-- The wording of the error. -/
def message : ConfigError → String
  | unreadable path reason => "failed to read " ++ path.spelling ++ ": " ++ reason.message
  | invalid path reason => "invalid configuration in " ++ path.spelling ++ ": " ++ reason

end ConfigError

namespace Config

open Json (Cause Fault Read Reading skip faultAt faultOf length_skip_le length_lt_of_skip
  length_lt_of_skip_append)

/-! ## Values -/

/-- Reads a truth value. -/
def readBool (s : List Char) : Reading Bool s :=
  match hs : skip s with
  | [] => faultOf .endInValue []
  | 't' :: 'r' :: 'u' :: 'e' :: rest =>
    .ok ⟨true, rest, length_lt_of_skip_append ['r', 'u', 'e'] hs⟩
  | 'f' :: 'a' :: 'l' :: 's' :: 'e' :: rest =>
    .ok ⟨false, rest, length_lt_of_skip_append ['a', 'l', 's', 'e'] hs⟩
  | started => Json.unwanted "a boolean" started

/-- Reads a text. -/
def readText (s : List Char) : Reading String s :=
  match hs : skip s with
  | [] => faultOf .endInValue []
  | '"' :: rest => do
    have := length_lt_of_skip hs
    let ⟨text, rest, h⟩ ← Json.stringRest [] rest
    return ⟨text, rest, by omega⟩
  | started => Json.unwanted "a string" started

/-- The bytes from the next element of a list on, if it does not close first. The first one
has no comma before it. -/
def nextElement? (first : Bool) (s : List Char) :
    Except Fault (Option { r : List Char // r.length ≤ s.length }) :=
  match hs : skip s with
  | [] => faultOf .endInList []
  | ']' :: _ => .ok none
  | c :: rest =>
    have h := length_skip_le s
    if c = ',' && !first then
      have h₁ := length_lt_of_skip hs
      have h₂ := length_skip_le rest
      match hr : skip rest with
      | [] => faultOf .endInValue []
      | ']' :: after => faultOf .trailingComma (']' :: after)
      | started => .ok (some ⟨started, by rw [hr] at h₂; omega⟩)
    else if first then .ok (some ⟨c :: rest, hs ▸ h⟩)
    else faultOf .expectedListEnd (c :: rest)

/-- Reads the texts of a list behind its bracket, after those in `texts`, which are in reverse
order. -/
def readElements (first : Bool) (texts : List String) (s : List Char) :
    Except Fault (List String × { r : List Char // r.length ≤ s.length }) := do
  match ← nextElement? first s with
  | none => return (texts.reverse, ⟨s, Nat.le_refl _⟩)
  | some ⟨started, h⟩ =>
    let ⟨text, rest, h₁⟩ ← readText started
    let ⟨texts, rest, h₂⟩ ← readElements false (text :: texts) rest
    return (texts, ⟨rest, by omega⟩)
termination_by s.length

/-- Reads the end of a list whose elements have been read. -/
def endList (s : List Char) : Reading Unit s :=
  match hs : skip s with
  | [] => faultOf .endInList []
  | ']' :: rest => .ok ⟨(), rest, length_lt_of_skip hs⟩
  | ',' :: rest =>
    match skip rest with
    | ']' :: after => faultOf .trailingComma (']' :: after)
    | started => faultOf .trailingCharacters started
  | started => faultOf .trailingCharacters started

/-- Reads a list of texts. -/
def readTexts (s : List Char) : Reading (List String) s :=
  match hs : skip s with
  | [] => faultOf .endInValue []
  | '[' :: rest => do
    have := length_lt_of_skip hs
    let ⟨texts, ⟨rest, h⟩⟩ ← readElements true [] rest
    let ⟨_, rest, h₁⟩ ← endList rest
    return ⟨texts, rest, by omega⟩
  | started => Json.unwanted "a sequence" started

/-! ## Fields -/

/-- The fields of a configuration. -/
inductive Field where
  | includeDisconnected
  | extensions
  | higherOrder
deriving DecidableEq, Repr

/-- The fields in order, with their keys. -/
def fields : List (String × Field) :=
  [("include_disconnected", .includeDisconnected), ("extensions", .extensions),
   ("higher_order_functions", .higherOrder)]

/-- The settings read so far. -/
structure Draft where
  includeDisconnected : Option Bool := none
  extensions : Option (List String) := none
  higherOrder : Option (List String) := none

/-- Whether a field has been read. -/
def Draft.has (d : Draft) : Field → Bool
  | .includeDisconnected => d.includeDisconnected.isSome
  | .extensions => d.extensions.isSome
  | .higherOrder => d.higherOrder.isSome

/-- The configuration, with default values for what has not been read. -/
def Draft.finish (d : Draft) : Config :=
  let standard : Config := {}
  { includeDisconnected := d.includeDisconnected.getD standard.includeDisconnected
    extensions := d.extensions.getD standard.extensions
    higherOrder := d.higherOrder.getD standard.higherOrder }

/-- Reads the value of a field. -/
def readField (d : Draft) (field : Field) (s : List Char) : Reading Draft s := do
  match field with
  | .includeDisconnected =>
    let ⟨value, rest, h⟩ ← readBool s
    return ⟨{ d with includeDisconnected := some value }, rest, h⟩
  | .extensions =>
    let ⟨value, rest, h⟩ ← readTexts s
    return ⟨{ d with extensions := some value }, rest, h⟩
  | .higherOrder =>
    let ⟨value, rest, h⟩ ← readTexts s
    return ⟨{ d with higherOrder := some value }, rest, h⟩

/-- Reads the values of some fields from a list. -/
def readValues (first : Bool) (d : Draft) : List Field → List Char →
    Except Fault (Draft × List Char)
  | [], s => .ok (d, s)
  | field :: more, s => do
    match ← nextElement? first s with
    | none => return (d, s)
    | some ⟨started, _⟩ =>
      let ⟨d, rest, _⟩ ← readField d field started
      readValues false d more rest

/-- The bytes behind the quote that the next key of an object starts with, if the object does
not close first. -/
def nextKey? (first : Bool) (s : List Char) :
    Except Fault (Option { r : List Char // r.length < s.length }) :=
  match hs : skip s with
  | [] => faultOf .endInObject []
  | '}' :: _ => .ok none
  | c :: rest =>
    have h := length_lt_of_skip hs
    if c = ',' && !first then
      have h₁ := length_skip_le rest
      match hr : skip rest with
      | [] => faultOf .endInValue []
      | '"' :: rest' => .ok (some ⟨rest', by rw [hr] at h₁; simp only [List.length_cons] at h₁; omega⟩)
      | '}' :: after => faultOf .trailingComma ('}' :: after)
      | other => faultOf .keyNotText other
    else if !first then faultOf .expectedObjectEnd (c :: rest)
    else if c = '"' then .ok (some ⟨rest, h⟩)
    else faultOf .keyNotText (c :: rest)

/-- A fault of a key is placed behind it and the blanks that follow, or behind the bracket that
closes the object there. -/
def faultOfKey {α : Type} (cause : Cause) (s : List Char) : Except Fault α :=
  match skip s with
  | '}' :: rest => faultAt cause rest
  | rest => faultAt cause rest

/-- Reads the colon behind a key. -/
def readColon (s : List Char) : Reading Unit s :=
  match hs : skip s with
  | [] => faultOf .endInObject []
  | ':' :: rest => .ok ⟨(), rest, length_lt_of_skip hs⟩
  | other => faultOf .expectedColon other

/-- Reads the fields of an object behind its bracket. -/
def readFields (first : Bool) (d : Draft) (s : List Char) : Except Fault (Draft × List Char) := do
  match ← nextKey? first s with
  | none => return (d, s)
  | some ⟨started, _⟩ =>
    let ⟨key, rest, _⟩ ← Json.stringRest [] started
    match fields.lookup key with
    | none => faultOfKey (.unknownField key (fields.map Prod.fst)) rest
    | some field =>
      if d.has field then faultOfKey (.duplicateField key) rest
      else
        let ⟨_, rest, _⟩ ← readColon rest
        let ⟨d, rest, _⟩ ← readField d field rest
        readFields false d rest
termination_by s.length

/-- Reads a whole configuration. -/
def read (s : List Char) : Except Fault Config := do
  let (d, rest) ← match skip s with
    | [] => faultOf .endInValue []
    | '[' :: rest => do
      let (d, rest) ← readValues true {} (fields.map Prod.snd) rest
      let ⟨_, rest, _⟩ ← endList rest
      pure (d, rest)
    | '{' :: rest => do
      let (d, rest) ← readFields true {} rest
      pure (d, (skip rest).tail)
    | other => Json.unwanted "struct AnalysisConfig" other
  if (skip rest).isEmpty then return d.finish
  else faultOf .trailingCharacters (skip rest)

/-- The configuration that a text describes, or what is wrong with the text. -/
def ofText (text : String) : Except String Config :=
  let bytes := Json.bytesOf text
  (read bytes).mapError (Fault.message bytes)

/-- The configuration in a file. -/
def load (tree : FileTree) (path : Path) : Except ConfigError Config := do
  let text ← (tree.readText path).mapError (.unreadable path)
  (ofText text).mapError (.invalid path)

end Config

end CallAtlas
