import CallAtlas.Expr

/-!
# Function bindings

A statement binds a function when it assigns a function literal to a name: `f <- function(x) x`,
`f = function(x) x` or `(function(x) x) -> f`. Round brackets around the literal do not matter,
and the name may be a string.
-/

namespace CallAtlas

/-- A function literal. -/
structure FunctionLiteral where
  params : List String
  defaults : List Expr
  body : Expr
  text : FunctionText
deriving Repr

/-- The function literal that an expression is. -/
def Expr.literal? : Expr → Option FunctionLiteral
  | .function params defaults body excerpt => some ⟨params, defaults, body, excerpt⟩
  | _ => none

/-- How a function is bound to its name. -/
inductive Arrow where
  /-- `<-` and `<<-` -/
  | left
  /-- `=` -/
  | equals
  /-- `->` and `->>` -/
  | right
deriving DecidableEq, Repr

/-- A function literal and the name it is bound to. -/
structure Binding where
  name : String
  arrow : Arrow
  literal : FunctionLiteral
deriving Repr

namespace Binding

/-- The arrow, target and value of an assignment. -/
def sides? (op : Operator) (left right : Expr) : Option (Arrow × Expr × Expr) :=
  match op with
  | .assign | .superAssign => some (.left, left, right)
  | .equals => some (.equals, left, right)
  | .assignTo | .superAssignTo => some (.right, right, left)
  | _ => none

/-- The binding that a statement makes. -/
def ofExpr? : Expr → Option Binding
  | .binary op left right => do
    let (arrow, target, value) ← sides? op left right
    let literal ← value.stripParens.literal?
    let name ← target.name?
    if name = "" then none else some ⟨name, arrow, literal⟩
  | _ => none

/-- The name followed by the parameter list as it is written. -/
def signature (b : Binding) : String :=
  b.name ++ b.literal.text.header

end Binding

end CallAtlas
