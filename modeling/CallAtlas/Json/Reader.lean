import CallAtlas.Decimal.Shortest
import CallAtlas.Text.Printable

/-!
# Reading JSON

A reader goes through the bytes of a text and knows what type of value it wants. Here is what
all of them share: the faults, with their wording and the place they are reported at, and the
reading of strings, numbers and of values of another type than the wanted one.

A byte is held as the character with its number. A fault is placed by the bytes left behind
it. Most are found by looking at a byte without taking it, and their place is behind that byte
all the same.
-/

namespace CallAtlas.Json

/-- The type of a value. -/
inductive Shape where
  | null
  | bool (value : Bool)
  | integer (value : Int)
  | float (digits : String)
  | text (value : String)
  | list
  | record

/-- The wording of a shape. -/
def Shape.describe : Shape → String
  | null => "null"
  | bool true => "boolean `true`"
  | bool false => "boolean `false`"
  | integer value => "integer `" ++ toString value ++ "`"
  | float digits => "floating point `" ++ digits ++ "`"
  | text value => "string " ++ Text.visible value
  | list => "sequence"
  | record => "map"

/-- What can be wrong with a text. -/
inductive Cause where
  | endInValue
  | endInObject
  | endInList
  | endInString
  | trailingComma
  | trailingCharacters
  | keyNotText
  | expectedColon
  | expectedObjectEnd
  | expectedListEnd
  | expectedValue
  | expectedIdent
  | invalidEscape
  | invalidNumber
  | numberOutOfRange
  | loneSurrogate
  | endOfHexEscape
  | controlCharacter
  | wrongType (got : Shape) (want : String)
  | unknownField (name : String) (fields : List String)
  | duplicateField (name : String)

/-- The wording of what is wrong. -/
def Cause.message : Cause → String
  | endInValue => "EOF while parsing a value"
  | endInObject => "EOF while parsing an object"
  | endInList => "EOF while parsing a list"
  | endInString => "EOF while parsing a string"
  | trailingComma => "trailing comma"
  | trailingCharacters => "trailing characters"
  | keyNotText => "key must be a string"
  | expectedColon => "expected `:`"
  | expectedObjectEnd => "expected `,` or `\x7d`"
  | expectedListEnd => "expected `,` or `]`"
  | expectedValue => "expected value"
  | expectedIdent => "expected ident"
  | invalidEscape => "invalid escape"
  | invalidNumber => "invalid number"
  | numberOutOfRange => "number out of range"
  | loneSurrogate => "lone leading surrogate in hex escape"
  | endOfHexEscape => "unexpected end of hex escape"
  | controlCharacter => "control character (\\u0000-\\u001F) found while parsing a string"
  | wrongType got want => "invalid type: " ++ got.describe ++ ", expected " ++ want
  | unknownField name fields =>
    "unknown field `" ++ name ++ "`, expected one of " ++
      ", ".intercalate (fields.map fun field => "`" ++ field ++ "`")
  | duplicateField name => "duplicate field `" ++ name ++ "`"

/-- What is wrong, and the number of bytes behind the place where it is. -/
structure Fault where
  cause : Cause
  left : Nat

/-- The message of a fault in a text of the given bytes: lines count from one, and columns
count the bytes of the line up to the place. -/
def Fault.message (bytes : List Char) (f : Fault) : String :=
  let read := bytes.take (bytes.length - f.left)
  let column := (read.reverse.takeWhile (fun c => c != '\n')).length
  f.cause.message ++ " at line " ++ toString (1 + read.count '\n') ++ " column " ++
    toString column

/-- What a reader read of the bytes `s`, and the fewer bytes behind it. -/
structure Read (α : Type) (s : List Char) where
  value : α
  rest : List Char
  shorter : rest.length < s.length

/-- A reader fails, or reads something off the bytes `s`. -/
abbrev Reading (α : Type) (s : List Char) := Except Fault (Read α s)

/-- A fault before the bytes `s`. -/
def faultAt {α : Type} (cause : Cause) (s : List Char) : Except Fault α :=
  .error ⟨cause, s.length⟩

/-- A fault of the first of the bytes `s`, or at their end. -/
def faultOf {α : Type} (cause : Cause) (s : List Char) : Except Fault α :=
  .error ⟨cause, s.length - 1⟩

/-- The bytes of a text. -/
def bytesOf (text : String) : List Char :=
  text.toUTF8.toList.map fun b => Char.ofNat b.toNat

/-- The text of some bytes. -/
def textOf (bytes : List Char) : String :=
  let array := ByteArray.mk (bytes.map fun c => c.toNat.toUInt8).toArray
  (String.fromUTF8? array).getD ""

/-- The bytes behind the blanks in front. -/
def skip (s : List Char) : List Char :=
  s.dropWhile (fun c => c == ' ' || c == '\n' || c == '\t' || c == '\r')

theorem length_skip_le (s : List Char) : (skip s).length ≤ s.length :=
  (List.dropWhile_sublist _).length_le

theorem length_lt_of_skip {c : Char} {rest s : List Char} (h : skip s = c :: rest) :
    rest.length < s.length := by
  have := length_skip_le s
  rw [h] at this
  exact this

/-- What follows a word is shorter than the input that starts with it. -/
theorem length_lt_of_skip_append {c : Char} {rest s : List Char} (word : List Char)
    (h : skip s = c :: (word ++ rest)) : rest.length < s.length :=
  Nat.lt_of_le_of_lt (List.sublist_append_right word rest).length_le (length_lt_of_skip h)

/-! ## Strings -/

/-- The value of a hexadecimal digit. -/
def hexValue? (c : Char) : Option Nat :=
  if c.isDigit then some (c.toNat - '0'.toNat)
  else if 'a' ≤ c ∧ c ≤ 'f' then some (c.toNat - 'a'.toNat + 10)
  else if 'A' ≤ c ∧ c ≤ 'F' then some (c.toNat - 'A'.toNat + 10)
  else none

/-- Reads the four digits of a hexadecimal escape. -/
def hexEscape (s : List Char) : Reading Nat s :=
  match s with
  | a :: b :: c :: d :: rest =>
    match [a, b, c, d].mapM hexValue? with
    | some digits =>
      .ok ⟨digits.foldl (fun n digit => 16 * n + digit) 0, rest, by simp; omega⟩
    | none => faultAt .invalidEscape rest
  | _ => faultAt .endInString []

/-- The bytes of the character with a number. -/
def encode (n : Nat) : List Char :=
  bytesOf (String.singleton (Char.ofNat n))

/-- Reads an escaped character by its number. A number of the first half of a pair is followed
by an escape with the second half. -/
def unicodeEscape (s : List Char) : Reading (List Char) s := do
  let ⟨n, rest, h⟩ ← hexEscape s
  if 0xDC00 ≤ n ∧ n ≤ 0xDFFF then faultAt .loneSurrogate rest
  else if n < 0xD800 ∨ 0xDBFF < n then return ⟨encode n, rest, h⟩
  else
    match rest, h with
    | '\\' :: 'u' :: rest', h => do
      let ⟨n', rest'', h'⟩ ← hexEscape rest'
      if n' < 0xDC00 ∨ 0xDFFF < n' then faultAt .loneSurrogate rest''
      else
        return ⟨encode (0x10000 + (n - 0xD800) * 0x400 + (n' - 0xDC00)), rest'', by
          simp only [List.length_cons] at h; omega⟩
    | '\\' :: [], _ | [], _ => faultAt .endInString []
    | '\\' :: _ :: rest', _ | _ :: rest', _ => faultAt .endOfHexEscape rest'

/-- The character that a letter behind a backslash stands for. -/
def escapeLetter? : Char → Option Char
  | '"' => some '"'
  | '\\' => some '\\'
  | '/' => some '/'
  | 'b' => some '\x08'
  | 'f' => some '\x0c'
  | 'n' => some '\n'
  | 'r' => some '\r'
  | 't' => some '\t'
  | _ => none

/-- Reads what stands behind a backslash. -/
def escape (s : List Char) : Reading (List Char) s :=
  match s with
  | [] => faultAt .endInString []
  | 'u' :: rest => do
    let ⟨bytes, rest', h⟩ ← unicodeEscape rest
    return ⟨bytes, rest', Nat.lt_succ_of_lt h⟩
  | c :: rest =>
    match escapeLetter? c with
    | some b => .ok ⟨[b], rest, by simp⟩
    | none => faultAt .invalidEscape rest

/-- Reads the rest of a string whose first bytes are in `read`, in reverse order. -/
def stringRest (read : List Char) (s : List Char) : Reading String s :=
  match s with
  | [] => faultAt .endInString []
  | '"' :: rest => .ok ⟨textOf read.reverse, rest, by simp⟩
  | '\\' :: rest => do
    let ⟨bytes, rest', h⟩ ← escape rest
    let ⟨value, rest'', h'⟩ ← stringRest (bytes.reverse ++ read) rest'
    return ⟨value, rest'', by simp; omega⟩
  | c :: rest =>
    if c.toNat < 0x20 then faultAt .controlCharacter rest
    else do
      let ⟨value, rest', h⟩ ← stringRest (c :: read) rest
      return ⟨value, rest', by simp; omega⟩
termination_by s.length

/-! ## Numbers -/

/-- How the decimals of a binary number are written: with a point and no exponent if the point
stands at most five places before the first digit and sixteen behind it, else with an exponent
and without a point that has nothing behind it. -/
def floatText (x : Float) : String :=
  let sign := if x.toBits.toNat / Nat.pow 2 63 = 1 then "-" else ""
  if x == 0 then sign ++ "0.0"
  else
    let (d, exponent) := Decimal.shortest x
    let digits := Nat.toDigits 10 d
    let point := digits.length + exponent
    let zeros := fun (n : Int) => List.replicate n.toNat '0'
    let body :=
      if 0 ≤ exponent ∧ point ≤ 16 then digits ++ zeros exponent ++ ['.', '0']
      else if 0 < point ∧ point ≤ 16 then
        digits.take point.toNat ++ ['.'] ++ digits.drop point.toNat
      else if -5 < point ∧ point ≤ 0 then ['0', '.'] ++ zeros (-point) ++ digits
      else
        let fraction := if digits.length = 1 then [] else '.' :: digits.tail
        digits.take 1 ++ fraction ++ ['e'] ++ (toString (point - 1)).toList
    sign ++ String.ofList body

/-- The largest number that digits are read into. -/
def maxSignificand : Nat := Nat.pow 2 64 - 1

/-- Reads digits into a number until the next one would make it too large; the number of
digits read is counted. -/
def absorb (n count : Nat) : List Char → Nat × Nat × List Char
  | [] => (n, count, [])
  | c :: rest =>
    let next := 10 * n + (c.toNat - '0'.toNat)
    if c.isDigit ∧ next ≤ maxSignificand then absorb next (count + 1) rest
    else (n, count, c :: rest)

/-- The number `n * 10 ^ exponent` with one rounding of the power and one of the product or
quotient, or none if it is too large. Very small powers are divided off in steps. -/
def scaled? (n : Nat) (exponent : Int) : Option Float :=
  let power := fun (k : Nat) => Float.ofScientific 1 false k
  let rec shrink : Nat → Float → Nat → Float
    | 0, x, _ => x
    | fuel + 1, x, k =>
      if x == 0 then x
      else if k ≤ 308 then x / power k
      else shrink fuel (x / power 308) (k - 308)
  if 0 ≤ exponent then
    if exponent ≤ 308 then
      let x := Float.ofNat n * power exponent.toNat
      if x.isInf then none else some x
    else if n = 0 then some 0 else none
  else some (shrink 4 (Float.ofNat n) (-exponent).toNat)

/-- A number with a fraction or a power of ten. -/
def floatShape (negative : Bool) (n : Nat) (exponent : Int) (rest : List Char) :
    Except Fault (Shape × List Char) :=
  match scaled? n exponent with
  | some x => .ok (.float (floatText (if negative then -x else x)), rest)
  | none => faultAt .numberOutOfRange rest

/-- The largest power of ten that is read. -/
def maxPower : Nat := Nat.pow 2 31 - 1

/-- Reads the power of ten behind the letter `e`. -/
def powerOf (negative : Bool) (n : Nat) (exponent : Int) (s : List Char) :
    Except Fault (Shape × List Char) :=
  let (small, s) := match s with
    | '+' :: rest => (false, rest)
    | '-' :: rest => (true, rest)
    | s => (false, s)
  match s with
  | [] => faultAt .endInValue []
  | c :: rest =>
    if !c.isDigit then faultAt .invalidNumber rest
    else
      let digits := (c :: rest).takeWhile Char.isDigit
      let after := (c :: rest).dropWhile Char.isDigit
      let value := fun (ds : List Char) => ds.foldl (fun k d => 10 * k + (d.toNat - '0'.toNat)) 0
      if value digits ≤ maxPower then
        floatShape negative n (if small then exponent - value digits else exponent + value digits)
          after
      else if n = 0 ∨ small then floatShape negative 0 0 after
      else
        let past := (List.range (digits.length + 1)).find? fun k => maxPower < value (digits.take k)
        faultAt .numberOutOfRange (digits.drop (past.getD 0) ++ after)

/-- Reads the fraction behind a point. -/
def fractionOf (negative : Bool) (n : Nat) (exponent : Int) (s : List Char) :
    Except Fault (Shape × List Char) :=
  let (n', count, rest) := absorb n 0 s
  let after := rest.dropWhile Char.isDigit
  if count = 0 ∧ rest.length = after.length then
    if rest.isEmpty then faultAt .endInValue [] else faultOf .invalidNumber rest
  else
    match after with
    | 'e' :: power | 'E' :: power => powerOf negative n' (exponent - count) power
    | _ => floatShape negative n' (exponent - count) after

/-- Reads what may follow the digits of a whole number. -/
def wholeOf (negative : Bool) (n : Nat) (s : List Char) : Except Fault (Shape × List Char) :=
  let after := s.dropWhile Char.isDigit
  let dropped := s.length - after.length
  match after with
  | '.' :: fraction => fractionOf negative n dropped fraction
  | 'e' :: power | 'E' :: power => powerOf negative n dropped power
  | _ =>
    if dropped ≠ 0 then floatShape negative n dropped after
    else if !negative then .ok (.integer n, after)
    else if 0 < n ∧ n ≤ Nat.pow 2 63 then .ok (.integer (-n), after)
    else .ok (.float (floatText (-(Float.ofNat n))), after)

/-- Reads a number behind its sign. -/
def numberOf (negative : Bool) (s : List Char) : Except Fault (Shape × List Char) :=
  match s with
  | [] => faultAt .endInValue []
  | '0' :: rest =>
    if rest.head?.any Char.isDigit then faultOf .invalidNumber rest else wholeOf negative 0 rest
  | c :: rest =>
    if c.isDigit then
      let (n, _, after) := absorb 0 0 (c :: rest)
      wholeOf negative n after
    else faultAt .invalidNumber rest

/-! ## Words and unwanted values -/

/-- Reads the rest of a word. -/
def ident : List Char → List Char → Except Fault (List Char)
  | [], s => .ok s
  | _ :: _, [] => faultAt .endInValue []
  | c :: word, d :: s => if c = d then ident word s else faultAt .expectedIdent s

/-- The fault of a value of another type than the wanted one, which is read to know its type. -/
def unwanted {α : Type} (want : String) (s : List Char) : Except Fault α := do
  let word := fun (shape : Shape) (letters : List Char) (s : List Char) => do
    return (shape, ← ident letters s)
  let (shape, rest) ← match s with
    | 'n' :: s => word .null ['u', 'l', 'l'] s
    | 't' :: s => word (.bool true) ['r', 'u', 'e'] s
    | 'f' :: s => word (.bool false) ['a', 'l', 's', 'e'] s
    | '-' :: s => numberOf true s
    | '"' :: s => do
      let ⟨value, rest, _⟩ ← stringRest [] s
      pure (Shape.text value, rest)
    | '[' :: _ => .ok (.list, s)
    | '{' :: _ => .ok (.record, s)
    | c :: _ => if c.isDigit then numberOf false s else faultOf .expectedValue s
    | [] => faultOf .expectedValue s
  faultAt (.wrongType shape want) rest

end CallAtlas.Json
