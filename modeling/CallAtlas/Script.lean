import CallAtlas.Expr.Parser
import CallAtlas.Token.Scan

/-!
# Scripts

A script is a text that parses: a sequence of top-level statements, each with the place it
stands at. Newlines and semicolons between statements may come in any number, also in none.
-/

namespace CallAtlas

/-- A top-level expression and the offsets at which it starts and stops. -/
structure Statement where
  expr : Expr
  start : Nat
  stop : Nat
deriving Repr

/-- A text and its top-level statements in order. -/
structure Script where
  chars : List Char
  statements : List Statement

namespace Script

open Expr.Parser in
/-- Reads statements to the end of the tokens, after those in `found`, which are in reverse
order. -/
def readStatements (src : Source) (found : List Statement) (ts : List Token) :
    Except SyntaxError (List Statement) :=
  match ts with
  | [] => .ok found.reverse
  | ⟨.newline, _, _⟩ :: rest | ⟨.semicolon, _, _⟩ :: rest => readStatements src found rest
  | t :: ts => do
    let ⟨e, stop, rest, _⟩ ← Expr.parse src ⟨.top, 0⟩ 0 (t :: ts)
    readStatements src (⟨e, t.start, stop⟩ :: found) rest
termination_by ts.length
decreasing_by
  · simp
  · simp
  · assumption

/-- The script that a text holds, if it has no syntax error. -/
def parse (text : String) : Except SyntaxError Script := do
  let chars := text.toList
  let scan := Token.scan chars
  let statements ← readStatements ⟨chars, scan.finish⟩ [] scan.tokens
  return ⟨chars, statements⟩

/-- The number of the line a statement starts on. -/
def line (script : Script) (s : Statement) : Nat :=
  Text.lineAt script.chars s.start

/-- The number of the line a statement ends on. -/
def endLine (script : Script) (s : Statement) : Nat :=
  Text.lineAt script.chars s.stop

/-- The text of a statement. -/
def text (script : Script) (s : Statement) : String :=
  String.ofList (Text.slice script.chars s.start s.stop)

end Script

/-- What is wrong with a text, with the line and the column in bytes. -/
def SyntaxError.message (text : String) (e : SyntaxError) : String :=
  let chars := text.toList
  s!"syntax error at line {Text.lineAt chars e.offset}, column {Text.columnAt chars e.offset}"

end CallAtlas
