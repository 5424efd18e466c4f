import Mathlib.Logic.Function.Iterate
import CallAtlas.Definition
import CallAtlas.Proofs.CallTarget

/-!
# Which statements bind a function

A statement binds a function literal to a name if it is an assignment whose value is the literal in
any number of round brackets, and whose target spells the name (`Binding.MadeBy`).
`Binding.ofExpr?_eq_some_iff` states that these are the statements that `Binding.ofExpr?` accepts,
and that it finds the literal inside the brackets.

The definition that is made of such a statement shows the literal under the name
(`Definition.Describes`), whatever the operator, the brackets and the spelling of the name are.
-/

namespace CallAtlas

/-- The operators that bind a function, each with its arrow. -/
inductive Operator.BindsWith : Operator → Arrow → Prop
  | assign : BindsWith .assign .left
  | superAssign : BindsWith .superAssign .left
  | equals : BindsWith .equals .equals
  | assignTo : BindsWith .assignTo .right
  | superAssignTo : BindsWith .superAssignTo .right

namespace Expr

variable {e : Expr} {f : FunctionLiteral}

/-- The assignment of a value to a target. In front of a right arrow stands the value. -/
def assignment (arrow : Arrow) (op : Operator) (target value : Expr) : Expr :=
  match arrow with
  | .left | .equals => binary op target value
  | .right => binary op value target

theorem stripParens_paren_iterate (k : ℕ) (e : Expr) :
    (paren^[k] e).stripParens = e.stripParens := by
  induction k with
  | zero => rfl
  | succ k ih =>
    rw [Function.iterate_succ_apply']
    exact ih

theorem exists_paren_iterate (e : Expr) : ∃ k, e = paren^[k] e.stripParens := by
  fun_induction stripParens e with
  | case1 inner ih =>
    obtain ⟨k, hk⟩ := ih
    refine ⟨k + 1, ?_⟩
    rw [Function.iterate_succ_apply', ← hk]
  | case2 e => exact ⟨0, rfl⟩

theorem literal?_eq_some_iff : e.literal? = some f ↔ e = f.expr := by
  constructor
  · intro h
    unfold literal? at h
    split at h
    · cases h
      rfl
    · cases h
  · rintro rfl
    rfl

/-- Round brackets around a function literal are stripped, all of them and nothing else. -/
theorem literal?_stripParens_iff :
    e.stripParens.literal? = some f ↔ ∃ k, e = paren^[k] f.expr := by
  rw [literal?_eq_some_iff]
  constructor
  · intro h
    obtain ⟨k, hk⟩ := exists_paren_iterate e
    exact ⟨k, h ▸ hk⟩
  · rintro ⟨k, rfl⟩
    exact stripParens_paren_iterate k f.expr

end Expr

namespace Binding

variable {b : Binding} {e : Expr}

/-- The statement assigns the literal of the binding, in some round brackets, to its name. -/
def MadeBy (b : Binding) (e : Expr) : Prop :=
  ∃ op target k, op.BindsWith b.arrow ∧ Expr.Spells b.name target ∧ b.name ≠ "" ∧
    e = .assignment b.arrow op target (Expr.paren^[k] b.literal.expr)

theorem sides?_eq_some_iff {op : Operator} {left right target value : Expr} {arrow : Arrow} :
    sides? op left right = some (arrow, target, value) ↔
      op.BindsWith arrow ∧ Expr.binary op left right = .assignment arrow op target value := by
  constructor
  · intro h
    unfold sides? at h
    split at h
    all_goals cases h
    · exact ⟨.assign, rfl⟩
    · exact ⟨.superAssign, rfl⟩
    · exact ⟨.equals, rfl⟩
    · exact ⟨.assignTo, rfl⟩
    · exact ⟨.superAssignTo, rfl⟩
  · rintro ⟨hop, hsides⟩
    cases hop <;> cases hsides <;> rfl

/-- The bindings are made by the assignments of function literals to names. -/
theorem ofExpr?_eq_some_iff : ofExpr? e = some b ↔ b.MadeBy e := by
  constructor
  · intro h
    unfold ofExpr? at h
    split at h
    · next op left right =>
      simp only [bind, Option.bind_eq_some_iff, Option.ite_none_left_eq_some] at h
      obtain ⟨⟨arrow, target, value⟩, hsides, literal, hliteral, name, hname, hne, h⟩ := h
      cases h
      obtain ⟨hop, hsides⟩ := sides?_eq_some_iff.mp hsides
      obtain ⟨k, rfl⟩ := Expr.literal?_stripParens_iff.mp hliteral
      exact ⟨op, target, k, hop, Expr.name?_eq_some_iff.mp hname, hne, hsides⟩
    · cases h
  · rintro ⟨op, target, k, hop, hname, hne, rfl⟩
    obtain ⟨left, right, hbinary⟩ : ∃ left right, Expr.assignment b.arrow op target
        (Expr.paren^[k] b.literal.expr) = .binary op left right := by
      unfold Expr.assignment
      split <;> exact ⟨_, _, rfl⟩
    have hsides := sides?_eq_some_iff.mpr ⟨hop, hbinary.symm⟩
    have hliteral : (Expr.paren^[k] b.literal.expr).stripParens.literal? = some b.literal :=
      Expr.literal?_stripParens_iff.mpr ⟨k, rfl⟩
    simp [hbinary, ofExpr?, hsides, hliteral, Expr.name?_eq_some_iff.mpr hname, hne]

end Binding

/-- The definition shows the function literal under the name. -/
structure Definition.Describes (d : Definition) (n : String) (f : FunctionLiteral) : Prop where
  name : d.name = n
  params : d.literal.params = f.params
  signature : d.signature = n ++ f.text.header
  body : d.body = f.text.whole
  targets : ∀ higher, d.literal.targets higher = f.targets higher

/-- A statement that binds a function makes a definition of it, wherever the statement stands. -/
theorem SourceFile.exists_definition?_of_madeBy {b : Binding} {s : Statement}
    (h : b.MadeBy s.expr) (path : Path) (script : Script) (lines : List (List Char)) :
    ∃ d, definition? path script lines s = some d ∧ d.Describes b.name b.literal := by
  rw [definition?, Binding.ofExpr?_eq_some_iff.mpr h]
  exact ⟨_, rfl, rfl, rfl, rfl, rfl, fun _ => rfl⟩

end CallAtlas
