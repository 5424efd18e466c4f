import CallAtlas.Binding
import CallAtlas.NameSet

/-!
# Call targets

The names that a function literal may call. A call mentions the name in front of its
arguments. A call of a higher-order function such as `lapply` also mentions the names among
its arguments. Calls in nested literals and in the defaults of parameters count.

A name is local to a literal if it is a parameter, a loop variable, or assigned to anywhere in
the literal outside nested ones. What is local to the literal around a call, or to a literal
further out, is no target.
-/

namespace CallAtlas

namespace Expr

/-- The name that an assignment gives a local value to. Assignments that reach further out, and
those whose target is no identifier, give none. -/
def assignedName? (op : Operator) (left right : Expr) : Option String :=
  match op, left, right with
  | .assign, .ident name, _ | .equals, .ident name, _ | .assignTo, _, .ident name => some name
  | _, _, _ => none

mutual

/-- The names assigned or looped over in an expression, nested function literals aside. -/
def assigned : Expr → List String
  | atom | ident _ | text _ | qualified | function .. => []
  | member e | unary e | paren e | repeatLoop e => e.assigned
  | binary op left right =>
    (assignedName? op left right).toList ++ left.assigned ++ right.assigned
  | block es => assignedAll es
  | call e es | index e es => e.assigned ++ assignedAll es
  | ifThen c e | whileLoop c e => c.assigned ++ e.assigned
  | ifElse c e f => c.assigned ++ e.assigned ++ f.assigned
  | forLoop name e f => name :: e.assigned ++ f.assigned

/-- The names assigned or looped over in a list of expressions. -/
def assignedAll : List Expr → List String
  | [] => []
  | e :: es => e.assigned ++ assignedAll es

end

/-- The local names of a function literal, added to those of the literals around it. -/
def localNames (outer : NameSet) (params : List String) (defaults : List Expr) (body : Expr) :
    NameSet :=
  outer.insertMany (params ++ assignedAll defaults ++ body.assigned)

/-- The name as a target, if it is one. -/
def target (locals : NameSet) (name : String) : List String :=
  if name = "" || locals.contains name then [] else [name]

/-- The targets that a call mentions itself. -/
def callTargets (higher locals : NameSet) (callee : Expr) (args : List Expr) : List String :=
  match callee.name? with
  | none => []
  | some name =>
    (if higher.contains name then (args.filterMap name?).flatMap (target locals) else []) ++
      target locals name

mutual

/-- The targets of all calls in an expression, where `locals` are the names that are local. -/
def targets (higher locals : NameSet) : Expr → List String
  | atom | ident _ | text _ | qualified => []
  | member e | unary e | paren e | repeatLoop e => e.targets higher locals
  | binary _ e f | ifThen e f | whileLoop e f | forLoop _ e f =>
    e.targets higher locals ++ f.targets higher locals
  | ifElse c e f =>
    c.targets higher locals ++ e.targets higher locals ++ f.targets higher locals
  | block es => targetsAll higher locals es
  | index e es => e.targets higher locals ++ targetsAll higher locals es
  | call e es =>
    callTargets higher locals e es ++ e.targets higher locals ++ targetsAll higher locals es
  | function params defaults body _ =>
    let inner := localNames locals params defaults body
    targetsAll higher inner defaults ++ body.targets higher inner

/-- The targets of all calls in a list of expressions. -/
def targetsAll (higher locals : NameSet) : List Expr → List String
  | [] => []
  | e :: es => e.targets higher locals ++ targetsAll higher locals es

end

end Expr

/-- The call targets of a function literal that stands where the names in `outer` are local. -/
def FunctionLiteral.targetsWithin (higher outer : NameSet) (f : FunctionLiteral) : NameSet :=
  .ofList (Expr.targets higher outer (.function f.params f.defaults f.body f.text))

/-- The call targets of a function literal. -/
def FunctionLiteral.targets (higher : NameSet) (f : FunctionLiteral) : NameSet :=
  f.targetsWithin higher ∅

end CallAtlas
