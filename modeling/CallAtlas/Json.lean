import Std.Data.ExtTreeMap

/-!
# JSON documents

The values that reports are made of, and the two ways of writing them: on one line, or with
every element on a line of its own and an indentation of two spaces. `Json.object` puts its
fields in the order of their keys.
-/

namespace CallAtlas

/-- A JSON value. All numbers in reports are natural. -/
inductive Json where
  | null
  | bool (value : Bool)
  | number (value : Nat)
  | text (value : String)
  | list (elements : List Json)
  | record (fields : List (String × Json))
deriving Repr

namespace Json

/-- An object with its fields in the order of their keys. -/
def object (fields : List (String × Json)) : Json :=
  record (Std.ExtTreeMap.ofList fields).toList

/-- A list of texts. -/
def texts (values : List String) : Json :=
  list (values.map text)

/-- A value that may be missing. -/
def orNull {α : Type} (f : α → Json) : Option α → Json
  | some a => f a
  | none => null

/-- The two lower-case hexadecimal digits of a number below 256. -/
def hexPair (n : Nat) : List Char :=
  [Nat.digitChar (n / 16), Nat.digitChar (n % 16)]

/-- A character as it stands in a quoted text. -/
def escapeChar (c : Char) : List Char :=
  match c with
  | '"' => ['\\', '"']
  | '\\' => ['\\', '\\']
  | '\n' => ['\\', 'n']
  | '\r' => ['\\', 'r']
  | '\t' => ['\\', 't']
  | '\x08' => ['\\', 'b']
  | '\x0c' => ['\\', 'f']
  | c => if c.toNat < 0x20 then ['\\', 'u', '0', '0'] ++ hexPair c.toNat else [c]

/-- A text in quotes. -/
def quoted (value : String) : String :=
  "\"" ++ String.ofList (value.toList.flatMap escapeChar) ++ "\""

mutual

/-- A value on one line. -/
def compact : Json → String
  | null => "null"
  | bool b => if b then "true" else "false"
  | number n => toString n
  | text s => quoted s
  | list es => "[" ++ ",".intercalate (compactAll es) ++ "]"
  | record fs => "\x7b" ++ ",".intercalate (compactFields fs) ++ "\x7d"

/-- Values on one line each. -/
def compactAll : List Json → List String
  | [] => []
  | e :: es => e.compact :: compactAll es

/-- Fields on one line each. -/
def compactFields : List (String × Json) → List String
  | [] => []
  | (key, value) :: fs => (quoted key ++ ":" ++ value.compact) :: compactFields fs

end

/-- The beginning of a line at a depth of nesting. -/
def indentation (depth : Nat) : String :=
  "\n" ++ String.ofList (List.replicate (2 * depth) ' ')

/-- Elements between brackets, each on a line of its own. -/
def spread (depth : Nat) (left right : String) (elements : List String) : String :=
  if elements = [] then left ++ right
  else
    left ++ indentation (depth + 1) ++ ("," ++ indentation (depth + 1)).intercalate elements ++
      indentation depth ++ right

mutual

/-- A value at a depth of nesting, with every element on a line of its own. -/
def prettyAt (depth : Nat) : Json → String
  | null => "null"
  | bool b => if b then "true" else "false"
  | number n => toString n
  | text s => quoted s
  | list es => spread depth "[" "]" (prettyAll (depth + 1) es)
  | record fs => spread depth "\x7b" "\x7d" (prettyFields (depth + 1) fs)

/-- Values at a depth of nesting. -/
def prettyAll (depth : Nat) : List Json → List String
  | [] => []
  | e :: es => e.prettyAt depth :: prettyAll depth es

/-- Fields at a depth of nesting. -/
def prettyFields (depth : Nat) : List (String × Json) → List String
  | [] => []
  | (key, value) :: fs => (quoted key ++ ": " ++ value.prettyAt depth) :: prettyFields depth fs

end

/-- A value with every element on a line of its own. -/
def pretty (j : Json) : String :=
  j.prettyAt 0

end Json

end CallAtlas
