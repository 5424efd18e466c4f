import CallAtlas.Token
import CallAtlas.Text.Identifier

/-!
# Scanning a text into tokens

`Token.scan` cuts a whole text into tokens, always taking the longest one. Each step looks at
one character and says how many of those behind it belong with it, so the text left over gets
shorter by at least one. What fits no token is an `illegal` token, which no expression holds.
-/

namespace CallAtlas.Token

/-- The null character, which only a raw string may hold. -/
def null : Char := Char.ofNat 0

/-- The blanks between tokens, newlines aside. -/
def isSpace (c : Char) : Bool :=
  c == ' ' || c == '\t' || c == '\r' || c == '\x0b' || c == '\x0c'

/-- Digits of base sixteen. -/
def isHexDigit (c : Char) : Bool :=
  c.isDigit || ('a' ≤ c && c ≤ 'f') || ('A' ≤ c && c ≤ 'F')

/-- Digits of base eight. -/
def isOctalDigit (c : Char) : Bool :=
  '0' ≤ c && c ≤ '7'

/-! ## Words -/

/-- What a word may start with, the dot aside. -/
def isWordStart (c : Char) : Bool :=
  Text.isIdentifierStart c || c == '_'

/-- What a word may go on with. -/
def isWordRest (c : Char) : Bool :=
  Text.isIdentifierRest c || c == '.'

/-- How many characters belong to the word that starts with `c`, if one does. -/
def wordLength? (c : Char) (rest : List Char) : Option Nat :=
  let length := (rest.takeWhile isWordRest).length
  if isWordStart c then some length
  else if c = '.' then
    some (if rest.head?.any (fun d => isWordStart d || d == '.') then length else 0)
  else none

/-! ## Numbers -/

/-- The number of decimal digits in front. -/
def digitCount (cs : List Char) : Nat :=
  (cs.takeWhile Char.isDigit).length

/-- The number of hexadecimal digits in front. -/
def hexCount (cs : List Char) : Nat :=
  (cs.takeWhile isHexDigit).length

/-- One if a sign stands in front. -/
def signCount (cs : List Char) : Nat :=
  if cs.head?.any (fun c => c == '+' || c == '-') then 1 else 0

/-- The length of digits, a point and digits: both sides may be empty, and so may the point. -/
def mantissaLength (count : List Char → Nat) (cs : List Char) : Nat :=
  let whole := count cs
  match cs.drop whole with
  | '.' :: fraction => whole + 1 + count fraction
  | _ => whole

/-- The length of a power of ten, whose digits may be missing. -/
def decimalPowerLength (cs : List Char) : Nat :=
  match cs with
  | e :: rest =>
    if e = 'e' ∨ e = 'E' then 1 + signCount rest + digitCount (rest.drop (signCount rest)) else 0
  | [] => 0

/-- The length of a power of two, which has at least one digit. -/
def binaryPowerLength (cs : List Char) : Nat :=
  match cs with
  | p :: rest =>
    let digits := digitCount (rest.drop (signCount rest))
    if (p = 'p' ∨ p = 'P') ∧ digits ≠ 0 then 1 + signCount rest + digits else 0
  | [] => 0

/-- The length of a hexadecimal number in front, or zero if there is none. -/
def hexNumberLength (cs : List Char) : Nat :=
  match cs with
  | '0' :: x :: rest =>
    let mantissa := mantissaLength hexCount rest
    if (x = 'x' ∨ x = 'X') ∧ mantissa ≠ 0 then
      2 + mantissa + binaryPowerLength (rest.drop mantissa)
    else 0
  | _ => 0

/-- The length of the number in front, which is hexadecimal if it can be. -/
def numberLength (cs : List Char) : Nat :=
  let hex := hexNumberLength cs
  if hex ≠ 0 then hex
  else
    let mantissa := mantissaLength digitCount cs
    mantissa + decimalPowerLength (cs.drop mantissa)

/-! ## Strings and quoted names -/

/-- Hexadecimal digits in braces, from one of them to `most`. -/
def bracedHex (most : Nat) (cs : List Char) : Bool :=
  let n := hexCount cs
  0 < n && n ≤ most && (cs.drop n).head? == some '}'

/-- Whether a backslash may be followed by `e` and then `rest`. What belongs to the escape
behind `e` could as well be plain content, so only its first characters matter. -/
def isEscape (e : Char) (rest : List Char) : Bool :=
  if e.isDigit then isOctalDigit e
  else if e = 'x' then rest.head?.any isHexDigit
  else if e = 'u' ∨ e = 'U' then
    match rest with
    | '{' :: digits => bracedHex (if e = 'u' then 4 else 8) digits
    | _ => rest.head?.any isHexDigit
  else e ≠ null

/-- How many characters follow up to the closing quote and with it, if it comes; `read` of
them are behind us. -/
def quoteEnd? (quote : Char) (escape : Char → List Char → Bool) (read : Nat) :
    List Char → Option Nat
  | [] => none
  | '\\' :: e :: rest => if escape e rest then quoteEnd? quote escape (read + 2) rest else none
  | c :: rest =>
    if c = quote then some (read + 1)
    else if c = null then none
    else quoteEnd? quote escape (read + 1) rest

/-- The name that an identifier spells: a backtick at each end is dropped if both are there. -/
def unquote (spelling : List Char) : List Char :=
  match spelling with
  | '\x60' :: rest => if rest.getLast? = some '\x60' then rest.dropLast else spelling
  | _ => spelling

/-- The bracket that ends a raw string, for the one that starts it. -/
def rawCloser? : Char → Option Char
  | '(' => some ')'
  | '[' => some ']'
  | '{' => some '}'
  | _ => none

/-- The opening of a raw string behind its first letter: the text that will close it, and the
length of the opening. There are fewer than 256 hyphens. -/
def rawOpening? : List Char → Option (List Char × Nat)
  | [] => none
  | quote :: rest =>
    let hyphens := (rest.takeWhile (fun c => c == '-')).length
    if (quote = '"' ∨ quote = '\x27') ∧ hyphens < 256 then
      ((rest.drop hyphens).head? >>= rawCloser?).map fun closer =>
        (closer :: List.replicate hyphens '-' ++ [quote], hyphens + 2)
    else none

/-- How many characters follow up to the first `closer` and with it, if it comes; `read` of
them are behind us. -/
def rawEnd? (closer : List Char) (read : Nat) : List Char → Option Nat
  | [] => none
  | c :: rest =>
    if closer.isPrefixOf (c :: rest) then some (read + closer.length)
    else rawEnd? closer (read + 1) rest

/-! ## One token -/

/-- What a scanning step finds. -/
inductive Lexeme where
  | blank
  | comment
  | token (kind : Kind)

/-- What starts with a quote. Its kind is that of the characters up to the closing quote and with
it, if that comes. -/
def quoteLexeme (quote : Char) (escape : Char → List Char → Bool) (kindOf : List Char → Kind)
    (rest : List Char) : Lexeme × Nat :=
  match quoteEnd? quote escape 0 rest with
  | some n => (.token (kindOf (rest.take n)), n)
  | none => (.token .illegal, 0)

/-- A string that starts with the quote `c`. -/
def textLexeme (c : Char) : List Char → Lexeme × Nat :=
  quoteLexeme c isEscape fun body => .text (String.ofList body.dropLast)

/-- A quoted name that starts with the backtick `c`. Anything may be escaped in it. -/
def nameLexeme (c : Char) : List Char → Lexeme × Nat :=
  quoteLexeme c (fun e _ => e != null) fun body => .quoted (String.ofList (unquote (c :: body)))

/-- Brackets, separators and operators. -/
def signLexeme (c : Char) (rest : List Char) : Lexeme × Nat :=
  match c with
  | '(' => (.token (.opening .round), 0)
  | ')' => (.token (.closing .round), 0)
  | '{' => (.token (.opening .curly), 0)
  | '}' => (.token (.closing .curly), 0)
  | '[' => if rest.head? = some '[' then (.token (.opening .double), 1)
           else (.token (.opening .square), 0)
  | ']' => (.token (.closing .square), 0)
  | ',' => (.token .comma, 0)
  | ';' => (.token .semicolon, 0)
  | '\\' => (.token .lambda, 0)
  | '%' =>
    let n := (rest.takeWhile (fun d => d != '%' && d != '\\' && d != '\n' && d != null)).length
    if (rest.drop n).head? = some '%' then (.token (.operator .special), n + 1)
    else (.token .illegal, 0)
  | _ =>
    match Operator.spellings.find? (fun s => s.1.isPrefixOf (c :: rest)) with
    | some (spelling, op) => (.token (.operator op), spelling.length - 1)
    | none => (.token .illegal, 0)

/-- What starts with the character `c`, and how many characters behind it belong to it. -/
def lexeme (c : Char) (rest : List Char) : Lexeme × Nat :=
  if c = '\n' then (.token .newline, 0)
  else if isSpace c then (.blank, 0)
  else if c = '#' then
    (.comment, (rest.takeWhile (fun d => d != '\r' && d != '\n' && d != null)).length)
  else if c = '"' ∨ c = '\x27' then textLexeme c rest
  else if c = '\x60' then nameLexeme c rest
  else if c.isDigit || (c == '.' && rest.head?.any Char.isDigit) then
    (.token .number, numberLength (c :: rest) - 1)
  else
    match if c = 'r' ∨ c = 'R' then rawOpening? rest else none with
    | some (closer, opening) =>
      match rawEnd? closer opening (rest.drop opening) with
      | some n => (.token .rawText, n)
      | none => (.token .illegal, 0)
    | none =>
      match wordLength? c rest with
      | some n => (.token (.word (String.ofList (c :: rest.take n))), n)
      | none => signLexeme c rest

/-! ## The whole text -/

/-- The tokens of a text, and the offset behind the last token or comment. -/
structure Scan where
  tokens : List Token
  finish : Nat

/-- Goes on from the offset `start`, with the tokens so far in reverse order. -/
def scanFrom (start finish : Nat) (found : List Token) : List Char → Scan
  | [] => ⟨found.reverse, finish⟩
  | c :: rest =>
    let (lexeme, n) := lexeme c rest
    let stop := start + 1 + n
    match lexeme with
    | .blank => scanFrom stop finish found (rest.drop n)
    | .comment => scanFrom stop stop found (rest.drop n)
    | .token kind => scanFrom stop stop (⟨kind, start, stop⟩ :: found) (rest.drop n)
termination_by cs => cs.length
decreasing_by all_goals simp only [List.length_drop, List.length_cons]; omega

/-- The tokens of a text. A byte order mark in front is skipped. -/
def scan : List Char → Scan
  | '\uFEFF' :: rest => scanFrom 1 0 [] rest
  | cs => scanFrom 0 0 [] cs

end CallAtlas.Token
