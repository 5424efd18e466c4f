import Mathlib.Data.List.Basic
import CallAtlas.CallTarget

/-!
# The scope of call targets

An expression occurs in another below a chain of function literals, those that are entered on
the way down to it (`Expr.Below`). A name is local to a literal if it is a parameter, or if an
expression binds it that occurs in the literal below no other literal (`IsLocal`).

The names assigned in an expression are those bound in it outside nested literals
(`Expr.mem_assigned_iff`). The targets of an expression are the names that a call in it
mentions, if they are neither local around the expression nor local to a literal of the chain
above the call (`Expr.mem_targets_iff`). Both follow the parts of an expression: one lemma says
what an expression adds to what its parts give (`Expr.mem_assigned_iff_parts`,
`Expr.mem_targets_iff_parts`), and the rest is an induction on the size.
`mem_targetsWithin_iff` states the rule for function literals.
-/

namespace CallAtlas

/-- The literal as an expression. -/
def FunctionLiteral.expr (f : FunctionLiteral) : Expr :=
  .function f.params f.defaults f.body f.text

namespace Expr

variable {e d b : Expr} {n : String} {higher locals : NameSet} {chain : List FunctionLiteral}

/-! ## Occurrences -/

/-- The expressions that an expression is put together from. -/
def parts : Expr → List Expr
  | atom | ident _ | text _ | qualified => []
  | member e | unary e | paren e | repeatLoop e => [e]
  | binary _ e f | ifThen e f | whileLoop e f | forLoop _ e f => [e, f]
  | ifElse c e f => [c, e, f]
  | block es => es
  | function _ defaults body _ => defaults ++ [body]
  | call e es | index e es => e :: es

/-- The last expression occurs in the first, or is it, below the function literals of a chain.
The chain lists the literals from the outside in. -/
inductive Below : Expr → List FunctionLiteral → Expr → Prop
  | self (e : Expr) : Below e [] e
  | part {e d b : Expr} {chain : List FunctionLiteral} :
      d ∈ e.parts → Below d chain b → Below e (e.literal?.toList ++ chain) b

theorem below_iff : Below e chain b ↔ chain = [] ∧ b = e ∨
    ∃ d ∈ e.parts, ∃ rest, chain = e.literal?.toList ++ rest ∧ Below d rest b := by
  constructor
  · intro h
    cases h with
    | self => exact Or.inl ⟨rfl, rfl⟩
    | part hd hb => exact Or.inr ⟨_, hd, _, rfl, hb⟩
  · rintro (⟨rfl, rfl⟩ | ⟨d, hd, rest, rfl, hb⟩)
    · exact Below.self b
    · exact Below.part hd hb

theorem sizeOf_lt_of_mem_parts (h : d ∈ e.parts) : sizeOf d < sizeOf e := by
  cases e with
  | atom | ident _ | text _ | qualified => simp [parts] at h
  | member e | unary e | paren e | repeatLoop e =>
    obtain rfl := List.mem_singleton.mp h
    simp
  | binary _ e f | ifThen e f | whileLoop e f | forLoop _ e f =>
    simp only [binary.sizeOf_spec, ifThen.sizeOf_spec, whileLoop.sizeOf_spec, forLoop.sizeOf_spec]
    rcases List.mem_pair.mp h with rfl | rfl <;> omega
  | ifElse c e f =>
    simp only [ifElse.sizeOf_spec]
    rcases List.mem_cons.mp h with rfl | h
    · omega
    · rcases List.mem_pair.mp h with rfl | rfl <;> omega
  | block es =>
    have : sizeOf d < sizeOf es := List.sizeOf_lt_of_mem h
    simp
    omega
  | function params defaults body excerpt =>
    simp only [function.sizeOf_spec]
    rcases List.mem_append.mp h with h | h
    · have := List.sizeOf_lt_of_mem h
      omega
    · rw [List.mem_singleton.mp h]
      omega
  | call e es | index e es =>
    simp only [call.sizeOf_spec, index.sizeOf_spec]
    rcases List.mem_cons.mp h with rfl | h
    · omega
    · have := List.sizeOf_lt_of_mem h
      omega

/-! ## Local names -/

/-- The expression gives a local value to a name: it assigns to it as an identifier with an arrow
that does not reach further out, or it loops over it. -/
def Binds (n : String) : Expr → Prop
  | binary op left right =>
    (op = .assign ∨ op = .equals) ∧ left = ident n ∨ op = .assignTo ∧ right = ident n
  | forLoop name _ _ => name = n
  | _ => False

theorem literal?_of_binds (h : Binds n e) : e.literal? = none := by
  cases e with
  | function => cases h
  | _ => rfl

theorem mem_assignedAll_iff : ∀ es : List Expr, n ∈ assignedAll es ↔ ∃ e ∈ es, n ∈ e.assigned
  | [] => by simp [assignedAll]
  | e :: es => by
    rw [assignedAll, List.mem_append, mem_assignedAll_iff es]
    simp

theorem assignedName?_eq_some_iff {op : Operator} {left right : Expr} :
    assignedName? op left right = some n ↔ Binds n (binary op left right) := by
  unfold assignedName?
  split
  · simp [Binds]
  · simp [Binds]
  · simp [Binds]
  · next hassign hequals hassignTo =>
    simp only [reduceCtorEq, false_iff]
    rintro (⟨rfl | rfl, rfl⟩ | ⟨rfl, rfl⟩)
    · exact hassign n rfl rfl
    · exact hequals n rfl rfl
    · exact hassignTo n rfl rfl

/-- An expression that is no literal assigns what it binds and what its parts assign. -/
theorem mem_assigned_iff_parts (e : Expr) : n ∈ e.assigned ↔
    e.literal? = none ∧ (Binds n e ∨ ∃ d ∈ e.parts, n ∈ d.assigned) := by
  cases e with
  | binary op left right => simp [assigned, parts, literal?, ← assignedName?_eq_some_iff]
  | forLoop name sequence body => simp [assigned, parts, literal?, Binds, eq_comm]
  | _ => simp [assigned, parts, literal?, Binds, mem_assignedAll_iff]

/-- The names assigned in an expression are those bound in it below no literal. -/
theorem mem_assigned_iff (e : Expr) : n ∈ e.assigned ↔ ∃ b, Below e [] b ∧ Binds n b := by
  rw [mem_assigned_iff_parts]
  constructor
  · rintro ⟨hliteral, hbinds | ⟨d, hd, hassigned⟩⟩
    · exact ⟨e, Below.self e, hbinds⟩
    · obtain ⟨b, hb, hbinds⟩ := (mem_assigned_iff d).mp hassigned
      have h := Below.part hd hb
      rw [hliteral] at h
      exact ⟨b, h, hbinds⟩
  · rintro ⟨b, hb, hbinds⟩
    rcases below_iff.mp hb with ⟨-, rfl⟩ | ⟨d, hd, rest, hchain, hb⟩
    · exact ⟨literal?_of_binds hbinds, Or.inl hbinds⟩
    · obtain ⟨hliteral, hrest⟩ := List.append_eq_nil_iff.mp hchain.symm
      rw [hrest] at hb
      exact ⟨Option.toList_eq_nil_iff.mp hliteral,
        Or.inr ⟨d, hd, (mem_assigned_iff d).mpr ⟨b, hb, hbinds⟩⟩⟩
termination_by sizeOf e
decreasing_by all_goals exact sizeOf_lt_of_mem_parts hd

end Expr

namespace FunctionLiteral

variable {f : FunctionLiteral} {n : String}

/-- The name is a parameter of the literal, or it is bound in the literal outside nested ones. -/
def IsLocal (f : FunctionLiteral) (n : String) : Prop :=
  n ∈ f.params ∨ ∃ b, Expr.Below f.expr [f] b ∧ Expr.Binds n b

theorem literal?_expr (f : FunctionLiteral) : f.expr.literal? = some f :=
  rfl

theorem isLocal_iff : f.IsLocal n ↔ n ∈ f.params ∨ ∃ d ∈ f.expr.parts, n ∈ d.assigned := by
  refine or_congr_right ⟨?_, ?_⟩
  · rintro ⟨b, hb, hbinds⟩
    rcases Expr.below_iff.mp hb with ⟨hchain, -⟩ | ⟨d, hd, rest, hchain, hb⟩
    · cases hchain
    · obtain rfl : rest = [] := by simpa [literal?_expr] using hchain.symm
      exact ⟨d, hd, (Expr.mem_assigned_iff d).mpr ⟨b, hb, hbinds⟩⟩
  · rintro ⟨d, hd, hassigned⟩
    obtain ⟨b, hb, hbinds⟩ := (Expr.mem_assigned_iff d).mp hassigned
    exact ⟨b, Expr.Below.part hd hb, hbinds⟩

theorem mem_localNames_iff {outer : NameSet} :
    n ∈ Expr.localNames outer f.params f.defaults f.body ↔ n ∈ outer ∨ f.IsLocal n := by
  rw [Expr.localNames, Std.ExtTreeSet.mem_insertMany_list, List.contains_iff_mem, isLocal_iff]
  simp [expr, Expr.parts, Expr.mem_assignedAll_iff, or_and_right, exists_or]

end FunctionLiteral

namespace Expr

variable {e : Expr} {n : String} {higher locals : NameSet}

/-! ## Targets -/

/-- The expression is the name, as an identifier or as a string. -/
def Spells (n : String) (e : Expr) : Prop :=
  e = ident n ∨ e = text n

/-- The expression is a call that mentions the name: it calls it, or it calls a higher-order
function and passes it as an argument. -/
def Mentions (higher : NameSet) (n : String) : Expr → Prop
  | call callee args => Spells n callee ∨
    (∃ h ∈ higher, Spells h callee) ∧ ∃ arg ∈ args, Spells n arg
  | _ => False

theorem name?_eq_some_iff : e.name? = some n ↔ Spells n e := by
  cases e <;> simp [name?, Spells]

theorem mem_target_iff {name : String} :
    n ∈ target locals name ↔ n = name ∧ n ≠ "" ∧ n ∉ locals := by
  unfold target
  split_ifs with h
  · simp only [List.not_mem_nil, false_iff]
    rintro ⟨rfl, hne, hlocal⟩
    simp [hne, Std.ExtTreeSet.contains_iff_mem, hlocal] at h
  · simp only [Bool.or_eq_true, decide_eq_true_eq, not_or, Std.ExtTreeSet.contains_iff_mem] at h
    rw [List.mem_singleton]
    refine ⟨?_, And.left⟩
    rintro rfl
    exact ⟨rfl, h⟩

theorem mem_callTargets_iff {callee : Expr} {args : List Expr} :
    n ∈ callTargets higher locals callee args ↔
      Mentions higher n (call callee args) ∧ n ≠ "" ∧ n ∉ locals := by
  unfold callTargets
  cases hname : callee.name? with
  | none =>
    have hcallee : ∀ x, ¬Spells x callee := by
      intro x hx
      rw [name?_eq_some_iff.mpr hx] at hname
      cases hname
    simp [Mentions, hcallee]
  | some name =>
    have hcallee : ∀ x, Spells x callee ↔ x = name := by
      intro x
      rw [← name?_eq_some_iff, hname, Option.some.injEq, eq_comm]
    have hargs : n ∈ (args.filterMap name?).flatMap (target locals) ↔
        (∃ arg ∈ args, Spells n arg) ∧ n ≠ "" ∧ n ∉ locals := by
      simp only [List.mem_flatMap, List.mem_filterMap, name?_eq_some_iff, mem_target_iff]
      constructor
      · rintro ⟨_, ⟨arg, harg, hspells⟩, rfl, hn⟩
        exact ⟨⟨arg, harg, hspells⟩, hn⟩
      · rintro ⟨⟨arg, harg, hspells⟩, hn⟩
        exact ⟨n, ⟨arg, harg, hspells⟩, rfl, hn⟩
    by_cases hhigher : name ∈ higher
    · simp only [Std.ExtTreeSet.contains_iff_mem.mpr hhigher]
      simp only [if_true, List.mem_append, hargs, mem_target_iff, Mentions, hcallee]
      grind
    · simp only [Std.ExtTreeSet.contains_iff_mem, hhigher, if_false, List.nil_append,
        mem_target_iff, Mentions, hcallee]
      grind

theorem mem_targetsAll_iff : ∀ es : List Expr,
    n ∈ targetsAll higher locals es ↔ ∃ e ∈ es, n ∈ e.targets higher locals
  | [] => by simp [targetsAll]
  | e :: es => by
    rw [targetsAll, List.mem_append, mem_targetsAll_iff es]
    simp

/-- The local names inside an expression, where `locals` are those around it. -/
def scope (locals : NameSet) (e : Expr) : NameSet :=
  match e.literal? with
  | none => locals
  | some f => localNames locals f.params f.defaults f.body

theorem mem_scope_iff : n ∈ e.scope locals ↔ n ∈ locals ∨ ∃ f ∈ e.literal?, f.IsLocal n := by
  unfold scope
  cases e.literal? with
  | none => simp
  | some f => simp [FunctionLiteral.mem_localNames_iff]

/-- The targets of an expression are those that it mentions itself and those of its parts. -/
theorem mem_targets_iff_parts (e : Expr) : n ∈ e.targets higher locals ↔
    Mentions higher n e ∧ n ≠ "" ∧ n ∉ locals ∨
      ∃ d ∈ e.parts, n ∈ d.targets higher (e.scope locals) := by
  cases e with
  | call callee args =>
    simp [targets, parts, scope, literal?, mem_callTargets_iff, mem_targetsAll_iff]
  | function params defaults body excerpt =>
    simp [targets, parts, scope, literal?, Mentions, mem_targetsAll_iff, or_and_right, exists_or]
  | _ => simp [targets, parts, scope, literal?, Mentions, mem_targetsAll_iff]

/-- The targets of an expression are the names that a call in it mentions and that are local
neither around the expression nor to a literal above the call. -/
theorem mem_targets_iff (e : Expr) (locals : NameSet) : n ∈ e.targets higher locals ↔
    n ≠ "" ∧ n ∉ locals ∧
      ∃ chain b, Below e chain b ∧ Mentions higher n b ∧ ∀ f ∈ chain, ¬f.IsLocal n := by
  have hscope : n ∉ e.scope locals ↔ n ∉ locals ∧ ∀ f ∈ e.literal?.toList, ¬f.IsLocal n := by
    rw [mem_scope_iff, not_or]
    simp
  rw [mem_targets_iff_parts]
  constructor
  · rintro (⟨hmentions, hne, hlocals⟩ | ⟨d, hd, htarget⟩)
    · exact ⟨hne, hlocals, [], e, Below.self e, hmentions, by simp⟩
    · obtain ⟨hne, hn, chain, b, hb, hmentions, hchain⟩ :=
        (mem_targets_iff d (e.scope locals)).mp htarget
      obtain ⟨hlocals, hliteral⟩ := hscope.mp hn
      exact ⟨hne, hlocals, _, b, Below.part hd hb, hmentions,
        List.forall_mem_append.mpr ⟨hliteral, hchain⟩⟩
  · rintro ⟨hne, hlocals, chain, b, hbelow, hmentions, hchain⟩
    rcases below_iff.mp hbelow with ⟨-, rfl⟩ | ⟨d, hd, rest, rfl, hb⟩
    · exact Or.inl ⟨hmentions, hne, hlocals⟩
    · obtain ⟨hliteral, hrest⟩ := List.forall_mem_append.mp hchain
      exact Or.inr ⟨d, hd, (mem_targets_iff d (e.scope locals)).mpr
        ⟨hne, hscope.mpr ⟨hlocals, hliteral⟩, rest, b, hb, hmentions, hrest⟩⟩
termination_by sizeOf e
decreasing_by all_goals exact sizeOf_lt_of_mem_parts hd

end Expr

/-- The targets collected from a function literal, where the names in `outer` are local around
it, are the names other than the empty one and those in `outer` that some call in the literal
mentions, however deep, and that are local to no literal on the way from it down to that call.
Without names around it they are the targets of the literal. -/
theorem FunctionLiteral.mem_targetsWithin_iff (higher outer : NameSet) (f : FunctionLiteral)
    (n : String) :
    (n ∈ f.targetsWithin higher outer ↔ n ≠ "" ∧ n ∉ outer ∧
      ∃ chain b, Expr.Below f.expr chain b ∧ b.Mentions higher n ∧ ∀ g ∈ chain, ¬g.IsLocal n) ∧
    f.targets higher = f.targetsWithin higher ∅ := by
  refine ⟨?_, rfl⟩
  rw [← Expr.mem_targets_iff, targetsWithin, Std.ExtTreeSet.mem_ofList, List.contains_iff_mem]
  rfl

end CallAtlas
