/-!
# Tokens of R

What the scanner hands to the parser: words, literals, operators, brackets and separators,
each with the place it stands at. Blanks and comments are no tokens. A newline is one, because
only the parser knows whether it separates statements or is a blank.
-/

namespace CallAtlas

/-- The operators of the language. Those that play the same part are one constructor. -/
inductive Operator where
  /-- `?` -/
  | help
  /-- `<-` -/
  | assign
  /-- `<<-` -/
  | superAssign
  /-- `:=` -/
  | walrus
  /-- `=` -/
  | equals
  /-- `->` -/
  | assignTo
  /-- `->>` -/
  | superAssignTo
  /-- `~` -/
  | formula
  /-- `|` and `||` -/
  | or
  /-- `&` and `&&` -/
  | and
  /-- `!` -/
  | not
  /-- `<`, `<=`, `>`, `>=`, `==` and `!=` -/
  | compare
  /-- `+` and `-` -/
  | sum
  /-- `*` and `/` -/
  | product
  /-- An operator between percent signs. -/
  | special
  /-- `|>` -/
  | pipe
  /-- `:` -/
  | range
  /-- `^` and `**` -/
  | power
  /-- `::` and `:::` -/
  | package
  /-- `$` and `@` -/
  | member
deriving DecidableEq, Repr

namespace Operator

/-- The level of a binary operator and the least level of its right side, which is the same
level if the operator groups to the right and the next one if it groups to the left. -/
def binary? : Operator → Option (Nat × Nat)
  | help => some (1, 2)
  | assign | superAssign | walrus => some (4, 4)
  | equals => some (5, 5)
  | assignTo | superAssignTo => some (6, 7)
  | formula => some (7, 8)
  | or => some (8, 9)
  | and => some (9, 10)
  | compare => some (11, 12)
  | sum => some (12, 13)
  | product => some (13, 14)
  | special | pipe => some (14, 15)
  | range => some (15, 16)
  | power => some (17, 17)
  | not | package | member => none

/-- The least level of the operand of a unary operator. -/
def unary? : Operator → Option Nat
  | help => some 2
  | formula => some 8
  | not => some 11
  | sum => some 17
  | _ => none

/-- The fixed spellings. One that another starts with comes after it. -/
def spellings : List (List Char × Operator) :=
  [(['<', '<', '-'], superAssign), (['-', '>', '>'], superAssignTo), ([':', ':', ':'], package),
   (['<', '-'], assign), (['-', '>'], assignTo), ([':', '='], walrus), ([':', ':'], package),
   (['|', '|'], or), (['&', '&'], and), (['|', '>'], pipe), (['*', '*'], power),
   (['<', '='], compare), (['>', '='], compare), (['=', '='], compare), (['!', '='], compare),
   (['?'], help), (['='], equals), (['~'], formula), (['|'], or), (['&'], and), (['!'], not),
   (['<'], compare), (['>'], compare), (['+'], sum), (['-'], sum), (['*'], product),
   (['/'], product), ([':'], range), (['^'], power), (['$'], member), (['@'], member)]

end Operator

/-- The pairs of brackets. A double square bracket opens as one token and closes as two single
ones that touch. -/
inductive Bracket where
  | round
  | square
  | double
  | curly
deriving DecidableEq, Repr

/-- What a token is. -/
inductive Token.Kind where
  | newline
  | semicolon
  | comma
  | opening (bracket : Bracket)
  | closing (bracket : Bracket)
  /-- A bare word, which may be a keyword. -/
  | word (spelling : String)
  /-- A name between backticks, given without them. -/
  | quoted (name : String)
  /-- A number without the letter that may follow it. -/
  | number
  /-- A string, given without its quotes and with its escapes as written. -/
  | text (content : String)
  /-- A raw string. -/
  | rawText
  | operator (op : Operator)
  /-- The backslash that stands for `function`. -/
  | lambda
  /-- Something that is no token of the language. -/
  | illegal
deriving DecidableEq, Repr

/-- A token and the offsets at which it starts and stops. -/
structure Token where
  kind : Token.Kind
  start : Nat
  stop : Nat
deriving DecidableEq, Repr

namespace Token

/-- The words that are no names where an expression may start. -/
def keywords : List String :=
  ["function", "if", "for", "while", "repeat", "next", "break", "TRUE", "FALSE", "NULL", "Inf",
   "NaN", "NA", "NA_integer_", "NA_real_", "NA_complex_", "NA_character_"]

/-- Whether a bare word is a keyword. -/
def isKeyword (word : String) : Bool :=
  keywords.contains word

/-- `...`, and `..` followed by digits alone: words that stand for arguments, not for names. -/
def isDots (word : String) : Bool :=
  match word.toList with
  | '.' :: '.' :: rest => rest == ['.'] || (!rest.isEmpty && rest.all Char.isDigit)
  | _ => false

/-- The tokens without the newlines they start with. -/
def dropNewlines (ts : List Token) : List Token :=
  ts.dropWhile (fun t => t.kind = .newline)

theorem length_dropNewlines_le (ts : List Token) : (dropNewlines ts).length ≤ ts.length :=
  (List.dropWhile_sublist _).length_le

end Token

end CallAtlas
