import CallAtlas.Binding
import CallAtlas.Path
import CallAtlas.Script
import CallAtlas.Text.Comment

/-!
# Function definitions

What a source file defines: one definition for each statement that binds a function, in the
order of the file, with the place it stands at and the comment above it.
-/

namespace CallAtlas

/-- A source file and its text. -/
structure SourceFile where
  path : Path
  text : String
deriving DecidableEq, Repr

namespace SourceFile

/-- The lines of the file. -/
def lines (file : SourceFile) : List String :=
  (Text.lines file.text.toList).map String.ofList

/-- The `n`-th line, counted from one. -/
def line? (file : SourceFile) (n : Nat) : Option String :=
  if n = 0 then none else file.lines[n - 1]?

/-- The number of lines. -/
def lineCount (file : SourceFile) : Nat :=
  (Text.lines file.text.toList).length

/-- The documentation above the `n`-th line. -/
def docAbove (file : SourceFile) (n : Nat) : Option String :=
  (Text.docAbove (Text.lines file.text.toList) n).map String.ofList

end SourceFile

/-- A function bound to a name at the top level of a file. -/
structure Definition where
  name : String
  sourceFile : Path
  line : Nat
  endLine : Nat
  signature : String
  doc : Option String
  literal : FunctionLiteral
deriving Repr

/-- The text of the function literal. -/
def Definition.body (d : Definition) : String :=
  d.literal.text.whole

namespace SourceFile

/-- The definition that a statement of a script makes, in a file with the given lines. -/
def definition? (path : Path) (script : Script) (lines : List (List Char)) (s : Statement) :
    Option Definition :=
  (Binding.ofExpr? s.expr).map fun b =>
    let line := script.line s
    { name := b.name
      sourceFile := path
      line
      endLine := script.endLine s
      signature := b.signature
      doc := (Text.docAbove lines line).map String.ofList
      literal := b.literal }

/-- The definitions in a file whose text is a script. -/
def definitions (path : Path) (script : Script) : List Definition :=
  script.statements.filterMap (definition? path script (Text.lines script.chars))

/-- The definitions in a file. -/
def extract (file : SourceFile) : Except SyntaxError (List Definition) := do
  return definitions file.path (← Script.parse file.text)

end SourceFile

end CallAtlas
