import CallAtlas.Proofs.CallTarget

/-!
# The order of statements

Call targets do not depend on the order in which statements run. `Expr.Rearranged` is the least
congruence of expressions that lets the statements of a block change places and be repeated. The
text of a literal is written anew when a block inside it changes, so the congruence does not look
at texts.

Rearranging keeps which names an expression spells (`Rearranged.spells_iff`), which it assigns
(`Rearranged.mem_assigned_iff`) and so which are local to a literal (`Rearranged.localNames_eq`).
The targets follow by induction on the rearrangement, for all names that are local around the
expression at once (`Rearranged.mem_targets_iff`), because a nested literal is visited with the
names of the literals around it. `FunctionLiteral.targets_of_rearranged` is the law for literals.
-/

namespace CallAtlas

namespace Expr

/-- The second expression is the first with statements of blocks in other places or repeated, at
any depth. -/
inductive Rearranged : Expr → Expr → Prop
  | refl (e : Expr) : Rearranged e e
  | symm {e f : Expr} : Rearranged e f → Rearranged f e
  | trans {e f g : Expr} : Rearranged e f → Rearranged f g → Rearranged e g
  /-- The statements of a block change places. -/
  | permute {es fs : List Expr} : es.Perm fs → Rearranged (.block es) (.block fs)
  /-- A statement of a block is repeated. -/
  | repeated {e : Expr} {es : List Expr} : e ∈ es → Rearranged (.block es) (.block (e :: es))
  | statement {e f : Expr} (before after : List Expr) : Rearranged e f →
      Rearranged (.block (before ++ e :: after)) (.block (before ++ f :: after))
  | member {e f : Expr} : Rearranged e f → Rearranged (.member e) (.member f)
  | unary {e f : Expr} : Rearranged e f → Rearranged (.unary e) (.unary f)
  | binary {e f e' f' : Expr} (op : Operator) : Rearranged e f → Rearranged e' f' →
      Rearranged (.binary op e e') (.binary op f f')
  | paren {e f : Expr} : Rearranged e f → Rearranged (.paren e) (.paren f)
  | default {d d' : Expr} (params : List String) (before after : List Expr) (body : Expr)
      (excerpt excerpt' : FunctionText) : Rearranged d d' →
      Rearranged (.function params (before ++ d :: after) body excerpt)
        (.function params (before ++ d' :: after) body excerpt')
  | body {b b' : Expr} (params : List String) (defaults : List Expr)
      (excerpt excerpt' : FunctionText) : Rearranged b b' →
      Rearranged (.function params defaults b excerpt) (.function params defaults b' excerpt')
  | callee {e f : Expr} (args : List Expr) : Rearranged e f →
      Rearranged (.call e args) (.call f args)
  | argument {e f : Expr} (callee : Expr) (before after : List Expr) : Rearranged e f →
      Rearranged (.call callee (before ++ e :: after)) (.call callee (before ++ f :: after))
  | object {e f : Expr} (args : List Expr) : Rearranged e f →
      Rearranged (.index e args) (.index f args)
  | subscript {e f : Expr} (object : Expr) (before after : List Expr) : Rearranged e f →
      Rearranged (.index object (before ++ e :: after)) (.index object (before ++ f :: after))
  | ifThen {e f e' f' : Expr} : Rearranged e f → Rearranged e' f' →
      Rearranged (.ifThen e e') (.ifThen f f')
  | ifElse {e f e' f' e'' f'' : Expr} : Rearranged e f → Rearranged e' f' → Rearranged e'' f'' →
      Rearranged (.ifElse e e' e'') (.ifElse f f' f'')
  | forLoop {e f e' f' : Expr} (name : String) : Rearranged e f → Rearranged e' f' →
      Rearranged (.forLoop name e e') (.forLoop name f f')
  | whileLoop {e f e' f' : Expr} : Rearranged e f → Rearranged e' f' →
      Rearranged (.whileLoop e e') (.whileLoop f f')
  | repeatLoop {e f : Expr} : Rearranged e f → Rearranged (.repeatLoop e) (.repeatLoop f)

namespace Rearranged

variable {e f : Expr} {n : String} {higher locals : NameSet}

/-! ## Names -/

theorem eq_ident_iff (h : Rearranged e f) : e = ident n ↔ f = ident n := by
  induction h with
  | refl => rfl
  | symm _ ih => exact ih.symm
  | trans _ _ ih ih' => exact ih.trans ih'
  | _ => simp

theorem eq_text_iff (h : Rearranged e f) : e = text n ↔ f = text n := by
  induction h with
  | refl => rfl
  | symm _ ih => exact ih.symm
  | trans _ _ ih ih' => exact ih.trans ih'
  | _ => simp

theorem spells_iff (h : Rearranged e f) : Spells n e ↔ Spells n f :=
  or_congr h.eq_ident_iff h.eq_text_iff

theorem binds_binary_iff {e' f' : Expr} {op : Operator} (h : Rearranged e f)
    (h' : Rearranged e' f') : Binds n (.binary op e e') ↔ Binds n (.binary op f f') := by
  simp only [Binds, h.eq_ident_iff, h'.eq_ident_iff]

theorem exists_mem_append_cons_iff {p : Expr → Prop} (h : p e ↔ p f) (before after : List Expr) :
    (∃ d ∈ before ++ e :: after, p d) ↔ ∃ d ∈ before ++ f :: after, p d := by
  simp only [List.mem_append, List.mem_cons, or_and_right, exists_or, exists_eq_left, h]

theorem mem_assignedAll_append_cons_iff (h : n ∈ e.assigned ↔ n ∈ f.assigned)
    (before after : List Expr) :
    n ∈ assignedAll (before ++ e :: after) ↔ n ∈ assignedAll (before ++ f :: after) := by
  rw [mem_assignedAll_iff, mem_assignedAll_iff]
  exact exists_mem_append_cons_iff h before after

theorem mem_assigned_iff (h : Rearranged e f) : n ∈ e.assigned ↔ n ∈ f.assigned := by
  induction h with
  | refl => rfl
  | symm _ ih => exact ih.symm
  | trans _ _ ih ih' => exact ih.trans ih'
  | permute hperm => simp only [assigned, mem_assignedAll_iff, hperm.mem_iff]
  | repeated hmem =>
    simp only [assigned, mem_assignedAll_iff, List.mem_cons, exists_eq_or_imp]
    exact ⟨Or.inr, fun h => h.elim (fun h => ⟨_, hmem, h⟩) id⟩
  | statement before after _ ih => exact mem_assignedAll_append_cons_iff ih before after
  | binary op h h' ih ih' =>
    simp only [assigned, List.mem_append, Option.mem_toList, assignedName?_eq_some_iff,
      h.binds_binary_iff h', ih, ih']
  | argument callee before after _ ih | subscript callee before after _ ih =>
    simp only [assigned, List.mem_append, mem_assignedAll_append_cons_iff ih before after]
  | _ => simp_all only [assigned, List.mem_append, List.mem_cons]

/-- The local names of a literal come from its parameters and from what its defaults and its body
assign. -/
theorem localNames_eq (locals : NameSet) (params : List String) {ds ds' : List Expr} {b b' : Expr}
    (hdefaults : ∀ n, n ∈ assignedAll ds ↔ n ∈ assignedAll ds')
    (hbody : ∀ n, n ∈ b.assigned ↔ n ∈ b'.assigned) :
    localNames locals params ds b = localNames locals params ds' b' := by
  ext n
  simp only [localNames, Std.ExtTreeSet.mem_insertMany_list, List.contains_iff_mem,
    List.mem_append, hdefaults, hbody]

/-! ## Targets -/

theorem mentions_call_iff {callee callee' : Expr} {args args' : List Expr}
    (hcallee : ∀ n, Spells n callee ↔ Spells n callee')
    (hargs : (∃ arg ∈ args, Spells n arg) ↔ ∃ arg ∈ args', Spells n arg) :
    Mentions higher n (.call callee args) ↔ Mentions higher n (.call callee' args') := by
  simp only [Mentions, hcallee, hargs]

theorem mem_targetsAll_append_cons_iff
    (h : n ∈ e.targets higher locals ↔ n ∈ f.targets higher locals) (before after : List Expr) :
    n ∈ targetsAll higher locals (before ++ e :: after) ↔
      n ∈ targetsAll higher locals (before ++ f :: after) := by
  rw [mem_targetsAll_iff, mem_targetsAll_iff]
  exact exists_mem_append_cons_iff h before after

/-- Rearranging keeps the targets, whatever names are local around the expression. A literal keeps
its local names, so its parts are visited with the same ones. -/
theorem mem_targets_iff (h : Rearranged e f) (locals : NameSet) :
    n ∈ e.targets higher locals ↔ n ∈ f.targets higher locals := by
  induction h generalizing locals with
  | refl => rfl
  | symm _ ih => exact (ih locals).symm
  | trans _ _ ih ih' => exact (ih locals).trans (ih' locals)
  | permute hperm => simp only [targets, mem_targetsAll_iff, hperm.mem_iff]
  | repeated hmem =>
    simp only [targets, mem_targetsAll_iff, List.mem_cons, exists_eq_or_imp]
    exact ⟨Or.inr, fun h => h.elim (fun h => ⟨_, hmem, h⟩) id⟩
  | statement before after _ ih => exact mem_targetsAll_append_cons_iff (ih locals) before after
  | @default d d' params before after body excerpt excerpt' h ih =>
    have hlocals : localNames locals params (before ++ d :: after) body =
        localNames locals params (before ++ d' :: after) body :=
      localNames_eq locals params
        (fun n => mem_assignedAll_append_cons_iff h.mem_assigned_iff before after) fun n => Iff.rfl
    simp only [targets, List.mem_append, hlocals,
      mem_targetsAll_append_cons_iff (ih _) before after]
  | @body b b' params defaults excerpt excerpt' h ih =>
    have hlocals : localNames locals params defaults b = localNames locals params defaults b' :=
      localNames_eq locals params (fun n => Iff.rfl) fun n => h.mem_assigned_iff
    simp only [targets, List.mem_append, hlocals, ih]
  | callee args h ih =>
    simp only [targets, List.mem_append, mem_callTargets_iff,
      mentions_call_iff (fun n => h.spells_iff) Iff.rfl, ih]
  | argument callee before after h ih =>
    simp only [targets, List.mem_append, mem_callTargets_iff,
      mentions_call_iff (fun n => Iff.rfl) (exists_mem_append_cons_iff h.spells_iff before after),
      mem_targetsAll_append_cons_iff (ih locals) before after]
  | subscript object before after _ ih =>
    simp only [targets, List.mem_append, mem_targetsAll_append_cons_iff (ih locals) before after]
  | _ => simp_all only [targets, List.mem_append]

end Rearranged

end Expr

namespace FunctionLiteral

variable {f g : FunctionLiteral} {n : String} {higher outer : NameSet}

theorem mem_targetsWithin_iff_targets :
    n ∈ f.targetsWithin higher outer ↔ n ∈ f.expr.targets higher outer := by
  rw [targetsWithin, Std.ExtTreeSet.mem_ofList, List.contains_iff_mem]
  rfl

/-- A name that is local to a literal is no target of it. -/
theorem not_mem_targetsWithin_of_isLocal (h : f.IsLocal n) :
    n ∉ f.targetsWithin higher outer := by
  rw [mem_targetsWithin_iff_targets, Expr.mem_targets_iff_parts]
  rintro (⟨hmentions, -⟩ | ⟨d, -, htarget⟩)
  · exact hmentions
  · have hscope : n ∈ f.expr.scope outer := Expr.mem_scope_iff.mpr (Or.inr ⟨f, rfl, h⟩)
    exact ((Expr.mem_targets_iff d _).mp htarget).2.1 hscope

/-- Call targets do not depend on the order of statements: a literal that differs only in the order
and the repetition of the statements of blocks, at any depth, has the same targets. A name that is
bound anywhere in a literal, outside nested ones, is no target of any call in the literal, before
or behind the place that binds it. -/
theorem targets_of_rearranged (higher outer : NameSet) (f : FunctionLiteral) :
    (∀ g : FunctionLiteral, f.expr.Rearranged g.expr →
      g.targetsWithin higher outer = f.targetsWithin higher outer ∧
      g.targets higher = f.targets higher) ∧
    ∀ n b, Expr.Below f.expr [f] b → b.Binds n →
      n ∉ f.targetsWithin higher outer ∧ n ∉ f.targets higher := by
  have hwithin : ∀ (g : FunctionLiteral) (outer : NameSet), f.expr.Rearranged g.expr →
      g.targetsWithin higher outer = f.targetsWithin higher outer := by
    intro g outer h
    ext n
    rw [mem_targetsWithin_iff_targets, mem_targetsWithin_iff_targets, h.mem_targets_iff]
  refine ⟨fun g h => ⟨hwithin g outer h, hwithin g ∅ h⟩, fun n b hb hbinds => ?_⟩
  have hlocal : f.IsLocal n := Or.inr ⟨b, hb, hbinds⟩
  exact ⟨not_mem_targetsWithin_of_isLocal hlocal, not_mem_targetsWithin_of_isLocal hlocal⟩

/-- The theorem applies to a literal that calls a name before assigning to it and holds a literal
that does the same, when the statements of both change places and a call is repeated. -/
theorem targets_of_rearranged_of_blocks :
    let call (name : String) := Expr.call (.ident name) []
    let assign (name : String) (e : Expr) := Expr.binary .assign (.ident name) e
    let inner := Expr.function [] [] (.block [call "a", assign "a" .atom, call "b"]) ⟨"", "f"⟩
    let inner' := Expr.function [] []
      (.block [call "b", call "a", assign "a" .atom, call "b"]) ⟨"", "g"⟩
    let f : FunctionLiteral := ⟨["x"], [], .block [call "c", inner, assign "c" .atom], ⟨"", ""⟩⟩
    let g : FunctionLiteral := ⟨["x"], [], .block [assign "c" .atom, call "c", inner'], ⟨"", ""⟩⟩
    f.expr.Rearranged g.expr ∧ g.targets ∅ = f.targets ∅ ∧ "c" ∉ f.targets ∅ ∧
      (f.targets ∅).toList = ["b"] := by
  intro call assign inner inner' f g
  have hinner : inner.Rearranged inner' := .body _ _ _ _ (.repeated (by simp))
  have hplaces : [call "c", inner', assign "c" .atom].Perm [assign "c" .atom, call "c", inner'] :=
    List.perm_append_singleton (assign "c" .atom) [call "c", inner']
  have h : f.expr.Rearranged g.expr :=
    .body _ _ _ _ (.trans (.statement [call "c"] [assign "c" .atom] hinner) (.permute hplaces))
  have hbelow : Expr.Below f.expr [f] (assign "c" .atom) :=
    .part (List.mem_singleton.mpr rfl) (.part (List.mem_append_right [_, _] (by simp)) (.self _))
  obtain ⟨hsame, hbound⟩ := targets_of_rearranged ∅ ∅ f
  exact ⟨h, (hsame g h).2, (hbound "c" _ hbelow (Or.inl ⟨Or.inl rfl, rfl⟩)).2, by decide +kernel⟩

end FunctionLiteral

end CallAtlas
