import CallAtlas.Token

/-!
# Expressions of R

The syntax tree keeps what the analysis of calls needs: names, assignments, calls, function
literals and the nesting of all else. A function literal also keeps its text, because reports
show it. Comments, empty arguments and the names of arguments leave no trace.
-/

namespace CallAtlas

/-- The parts of the source text that a function literal is reported with. -/
structure FunctionText where
  /-- The parameter list from its opening to its closing bracket. -/
  header : String
  /-- The whole literal. -/
  whole : String
deriving DecidableEq, Repr

/-- An expression. -/
inductive Expr where
  /-- A literal or keyword without a name in it. -/
  | atom
  /-- An identifier, given without its backticks. -/
  | ident (name : String)
  /-- A string, given without its quotes. Raw strings are atoms. -/
  | text (content : String)
  /-- A name looked up in a package, `p::x`. -/
  | qualified
  /-- A member of a value, `x$y` or `x@y`. -/
  | member (object : Expr)
  | unary (operand : Expr)
  | binary (op : Operator) (left right : Expr)
  /-- An expression in round brackets. -/
  | paren (inner : Expr)
  /-- Statements in curly brackets. -/
  | block (body : List Expr)
  /-- A function literal: parameter names, the defaults that are given, and the body. -/
  | function (params : List String) (defaults : List Expr) (body : Expr) (text : FunctionText)
  /-- A call with the values of its arguments. -/
  | call (callee : Expr) (args : List Expr)
  /-- `x[...]` or `x[[...]]`. -/
  | index (object : Expr) (args : List Expr)
  | ifThen (condition yes : Expr)
  | ifElse (condition yes no : Expr)
  | forLoop (name : String) (sequence body : Expr)
  | whileLoop (condition body : Expr)
  | repeatLoop (body : Expr)
deriving Repr

namespace Expr

/-- The name that an expression spells out: an identifier or a string. -/
def name? : Expr → Option String
  | ident name => some name
  | text content => some content
  | _ => none

/-- The expression inside any number of round brackets. -/
def stripParens : Expr → Expr
  | paren inner => inner.stripParens
  | e => e

end Expr

end CallAtlas
