import CallAtlas.Text.Pieces

/-!
# Lines, line numbers and columns

A text is cut into pieces at its newlines. All pieces but the last are lines, less one
carriage return at their end; the last piece is a line only if it holds something, and keeps
its carriage return. Offsets count characters from the start of the text, line numbers and
columns count from one, and columns are in bytes of the UTF-8 form.
-/

namespace CallAtlas.Text

/-- A line without the carriage return that stands before its newline. -/
def dropReturn (line : List Char) : List Char :=
  if line.getLast? = some '\r' then line.dropLast else line

/-- The lines of a text. -/
def lines (cs : List Char) : List (List Char) :=
  let ps := pieces '\n' cs
  ps.dropLast.map dropReturn ++ ps.getLast?.toList.filter (fun last => !last.isEmpty)

/-- The number of the line that an offset lies on. -/
def lineAt (cs : List Char) (offset : Nat) : Nat :=
  1 + (cs.take offset).count '\n'

/-- The column, in bytes, of an offset within its line. -/
def columnAt (cs : List Char) (offset : Nat) : Nat :=
  let before := (cs.take offset).reverse.takeWhile (fun c => c != '\n')
  before.foldl (fun n c => n + c.utf8Size) 1

/-- The characters from one offset up to another. -/
def slice (cs : List Char) (start stop : Nat) : List Char :=
  (cs.drop start).take (stop - start)

end CallAtlas.Text
