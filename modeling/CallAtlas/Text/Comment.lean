import CallAtlas.Text.Blank

/-!
# Comment lines

A comment line is one whose first character that is not blank is `#`. Some comment lines are
boundaries: rulers and section headings that separate a comment from the text above it. The
documentation of a line is the block of comment lines right above it, read from the last
boundary down and up to the first line whose text starts with `@`.

* `isBoundary` recognises `^\s*(?:#!|#+\s*[-=#]{4,}|#.*-{4,}\s*$)`.
* `commentText` is the group of `^\s*#'?\s?(.*?)\s*$`.
* `docAbove` is the documentation of a numbered line.
-/

namespace CallAtlas.Text

/-- The characters rulers are drawn with. -/
def isRule (c : Char) : Bool :=
  c == '-' || c == '=' || c == '#'

/-- At least four ruler characters in a row. -/
def startsRuler (cs : List Char) : Bool :=
  4 ≤ (cs.takeWhile isRule).length

/-- At least four dashes at the end, blanks behind them aside. -/
def endsDashed (cs : List Char) : Bool :=
  4 ≤ ((trimRight cs).reverse.takeWhile (fun c => c == '-')).length

/-- A comment line that no documentation reaches across: `#!`, a ruler, or dashes at the end. -/
def isBoundary (line : List Char) : Bool :=
  match trimLeft line with
  | '#' :: rest =>
    rest.head? == some '!' || startsRuler rest ||
      startsRuler (trimLeft (rest.dropWhile (fun c => c == '#'))) || endsDashed rest
  | _ => false

/-- A comment line that can be part of a documentation block. -/
def isDocLine (line : List Char) : Bool :=
  (trimLeft line).head? == some '#' && !isBoundary line

/-- What a comment line says: an apostrophe and then one blank after the `#` are dropped, and
so are the blanks at the end. A line that is no comment says nothing. -/
def commentText (line : List Char) : List Char :=
  match trimLeft line with
  | '#' :: rest =>
    let rest := if rest.head? = some '\x27' then rest.tail else rest
    let rest := if rest.head?.any isBlank then rest.tail else rest
    trimRight rest
  | _ => []

/-- The text of a block of comment lines: what they say before the first tag, or nothing. -/
def blockText (block : List (List Char)) : Option (List Char) :=
  let said := (block.map commentText).takeWhile (fun text => text.head? != some '@')
  let text := trim (List.intercalate ['\n'] said)
  if text.isEmpty then none else some text

/-- The documentation above the `n`-th line, counted from one. -/
def docAbove (lines : List (List Char)) (n : Nat) : Option (List Char) :=
  if n - 1 ≤ lines.length then
    blockText ((lines.take (n - 1)).reverse.takeWhile isDocLine).reverse
  else
    none

end CallAtlas.Text
