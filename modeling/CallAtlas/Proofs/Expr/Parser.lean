import Mathlib.Data.List.Infix
import Mathlib.Data.List.TakeWhile
import CallAtlas.Expr.Parser

/-!
# What a parser reads

A parser reads some tokens of the language from the front of a list (`Left`) and ends where the last
of them stops (`Parsed.EndsIn`). This holds of every part of the grammar if it holds of the parser
of nested expressions, so it holds of `Expr.parse` (`parse_endsIn`).
-/

namespace CallAtlas

/-- A computation that succeeds does so in both of its steps. -/
theorem bind_eq_ok {ε α β : Type} {x : Except ε α} {f : α → Except ε β} {b : β}
    (h : x >>= f = .ok b) : ∃ a, x = .ok a ∧ f a = .ok b := by
  cases x with
  | error e => cases h
  | ok a => exact ⟨a, rfl, h⟩

namespace Expr.Parser

/-- The first list is what is left of the second behind some tokens of the language. -/
def Left (rest ts : List Token) : Prop :=
  ∃ read, ts = read ++ rest ∧ ∀ t ∈ read, t.kind ≠ .illegal

theorem Left.refl (ts : List Token) : Left ts ts :=
  ⟨[], rfl, by simp⟩

theorem Left.cons {t : Token} (h : t.kind ≠ .illegal) (ts : List Token) : Left ts (t :: ts) :=
  ⟨[t], rfl, by simpa using h⟩

/-- What is left of what is left is left of the whole. -/
theorem Left.trans {rest ts ts' : List Token} (h : Left rest ts) (h' : Left ts ts') :
    Left rest ts' := by
  obtain ⟨read, rfl, hread⟩ := h
  obtain ⟨read', rfl, hread'⟩ := h'
  exact ⟨read' ++ read, by simp, List.forall_mem_append.mpr ⟨hread', hread⟩⟩

theorem Left.suffix {rest ts : List Token} (h : Left rest ts) : rest <:+ ts := by
  obtain ⟨read, rfl, -⟩ := h
  exact List.suffix_append read rest

/-- What was read ends with a token of the list, and what is left over stands behind that token. The
token is a newline only where it follows a member operator. -/
def Parsed.EndsIn {α : Type} {n : ℕ} (p : Parsed α n) (ts : List Token) : Prop :=
  ∃ t : Token, t.stop = p.stop ∧ Left (t :: p.rest) ts ∧ t.kind ≠ .illegal ∧
    (t.kind = .newline → ∃ s : Token, s.kind = .operator .member ∧ Left (s :: t :: p.rest) ts)

section

variable {α : Type} {n : ℕ} {p : Parsed α n} {ts ts' : List Token}

/-- Where the last token is no newline, no member operator has to stand before it. -/
theorem Parsed.EndsIn.of_kind {t : Token} (hstop : t.stop = p.stop) (hrest : Left (t :: p.rest) ts)
    (hkind : t.kind ≠ .newline ∧ t.kind ≠ .illegal) : p.EndsIn ts :=
  ⟨t, hstop, hrest, hkind.2, fun h => absurd h hkind.1⟩

/-- What ends in the tokens left over ends in all of them. -/
theorem Parsed.EndsIn.mono (h : p.EndsIn ts) (hts : Left ts ts') : p.EndsIn ts' := by
  obtain ⟨t, hstop, hrest, hlegal, hmember⟩ := h
  refine ⟨t, hstop, hrest.trans hts, hlegal, fun hkind => ?_⟩
  obtain ⟨s, hs, hrest⟩ := hmember hkind
  exact ⟨s, hs, hrest.trans hts⟩

/-- What is left over stands behind tokens of the language. -/
theorem Parsed.EndsIn.left (h : p.EndsIn ts) : Left p.rest ts := by
  obtain ⟨t, -, hrest, hlegal, -⟩ := h
  exact (Left.cons hlegal p.rest).trans hrest

/-- Newlines are tokens of the language, so they may be dropped. -/
theorem left_dropNewlines (ts : List Token) : Left (Token.dropNewlines ts) ts := by
  refine ⟨ts.takeWhile fun t => t.kind = .newline, ?_, fun t ht hkind => ?_⟩
  · exact List.takeWhile_append_dropWhile.symm
  · simpa [hkind] using List.mem_takeWhile_imp ht

theorem Context.left_skip (ctx : Context) (ts : List Token) : Left (ctx.skip ts) ts := by
  unfold Context.skip
  split_ifs
  · exact left_dropNewlines ts
  · exact Left.refl ts

theorem Context.left_of_skip {ctx : Context} (h : ctx.skip ts = ts') : Left ts' ts :=
  h ▸ ctx.left_skip ts

theorem Context.tail_left_of_skip {ctx : Context} {t : Token} (h : ctx.skip ts = t :: ts')
    (ht : t.kind ≠ .illegal) : Left ts' ts :=
  (Left.cons ht ts').trans (Context.left_of_skip h)

end

/-- Nested expressions end with a token of their list. -/
def Nested.Ends {n : ℕ} (nested : Nested n) : Prop :=
  ∀ ⦃ctx m ts h p⦄, nested ctx m ts h = .ok p → p.EndsIn ts

section

variable {src : Source} {ctx inner : Context} {n : ℕ} {nested : Nested n} {ts : List Token}

/-- What is expected is the one token that is read. -/
theorem expect_endsIn {kind : Token.Kind} {p : Parsed Unit ts.length}
    (h : expect src kind ts = .ok p) (hkind : kind ≠ .newline ∧ kind ≠ .illegal) : p.EndsIn ts := by
  unfold expect at h
  split at h
  · split_ifs at h with ht
    · cases h
      exact .of_kind rfl (Left.refl _) (ht ▸ hkind)
    · cases h
  · cases h

theorem word_endsIn {p : Parsed String ts.length} (h : word src ts = .ok p) : p.EndsIn ts := by
  unfold word at h
  split at h
  · cases h
    exact .of_kind rfl (Left.refl _) (by simp)
  · cases h
    exact .of_kind rfl (Left.refl _) (by simp)
  · cases h

/-! ## Brackets -/

/-- An expression in brackets ends with the closing one. -/
theorem bracketed_endsIn (hnested : nested.Ends) {hts : ts.length ≤ n} {p : Parsed Expr ts.length}
    (h : bracketed src ctx nested ts hts = .ok p) : p.EndsIn ts := by
  unfold bracketed at h
  obtain ⟨inner, -, h⟩ := bind_eq_ok h
  obtain ⟨⟨_, _, opened, _⟩, hopened, h⟩ := bind_eq_ok h
  obtain ⟨⟨e, _, read, _⟩, hread, h⟩ := bind_eq_ok h
  obtain ⟨⟨_, stop, rest, _⟩, hclosed, h⟩ := bind_eq_ok h
  cases h
  have hopened := (expect_endsIn hopened (by simp)).left
  have hread := (hnested hread).left.trans hopened
  exact (expect_endsIn hclosed (by simp)).mono ((inner.left_skip read).trans hread)

/-- Statements in curly brackets end with the closing one. -/
theorem statements_endsIn (hnested : nested.Ends) {body : List Expr} {hts : ts.length < n}
    {p : Parsed (List Expr) n} (h : statements inner nested body ts hts = .ok p) : p.EndsIn ts := by
  fun_induction statements inner nested body ts hts with
  | case1 =>
    cases h
    exact .of_kind rfl (Left.refl _) (by simp)
  | case2 _ _ _ _ _ _ ih | case3 _ _ _ _ _ _ ih => exact (ih h).mono (Left.cons (by simp) _)
  | case4 _ _ _ _ _ _ _ ih =>
    obtain ⟨⟨e, _, rest, hlt⟩, hread, h⟩ := bind_eq_ok h
    exact (ih e rest hlt h).mono (hnested hread).left

/-- A doubled bracket ends with the second of its tokens. -/
theorem closing?_endsIn {bracket : Bracket} {p : Parsed Unit ts.length}
    (h : closing? bracket ts = some p) : p.EndsIn ts := by
  unfold closing? at h
  split at h
  · split_ifs at h
    cases h
    exact .of_kind rfl (Left.cons (by simp) _) (by simp)
  · cases h
  · split_ifs at h with ht
    cases h
    exact .of_kind rfl (Left.refl _) (by simp [ht])
  · cases h

/-- The name of an argument ends with the equals sign. -/
theorem argumentName?_endsIn {p : Parsed Unit ts.length} (h : argumentName? inner ts = some p) :
    p.EndsIn ts := by
  unfold argumentName? at h
  split at h
  · cases h
  · split at h
    · next t _ _ _ _ hs =>
      split_ifs at h with hname
      cases h
      have ht : t.kind ≠ .illegal := fun hkind => by simp [hkind, isArgumentName] at hname
      exact .of_kind rfl ((Context.left_of_skip hs).trans (Left.cons ht _)) (by simp)
    · cases h

/-- An argument ends with its expression, or with the equals sign if it has none. -/
theorem argument_endsIn (hnested : nested.Ends) {hts : ts.length < n}
    {p : Parsed (List Expr) ts.length} (h : argument inner nested ts hts = .ok p) :
    p.EndsIn ts := by
  unfold argument at h
  split at h
  · obtain ⟨⟨e, stop, rest, _⟩, hread, h⟩ := bind_eq_ok h
    cases h
    exact hnested hread
  · next hname =>
    have hname := argumentName?_endsIn hname
    split at h
    · cases h
      exact hname
    · cases h
      exact hname
    · obtain ⟨⟨e, stop, rest, _⟩, hread, h⟩ := bind_eq_ok h
      cases h
      exact (hnested hread).mono hname.left

/-- Arguments end with the closing bracket, whether an argument or a comma stands before it. -/
theorem arguments_endsIn {bracket : Bracket} (hnested : nested.Ends) {args : List Expr}
    {hts : ts.length < n} {p : Parsed (List Expr) n}
    (h : arguments src bracket inner nested args ts hts = .ok p) : p.EndsIn ts := by
  fun_induction arguments src bracket inner nested args ts hts with
  | case1 _ _ _ _ _ _ _ hs _ ih =>
    exact (ih h).mono (Context.tail_left_of_skip hs (by simp))
  | case2 _ ts _ _ _ _ _ _ _ _ hclosed =>
    cases h
    exact (closing?_endsIn hclosed).mono (inner.left_skip ts)
  | case3 _ ts _ _ _ _ _ ih =>
    obtain ⟨⟨arg, _, read, hlt⟩, hread, h⟩ := bind_eq_ok h
    have hread := (argument_endsIn hnested hread).left.trans (inner.left_skip ts)
    dsimp only at h
    split at h
    · next hclosed =>
      cases h
      exact (closing?_endsIn hclosed).mono ((inner.left_skip read).trans hread)
    · split at h
      · next hs =>
        have hleft := (Context.tail_left_of_skip hs (by simp)).trans hread
        exact (ih arg read hlt _ _ _ hs h).mono hleft
      · cases h

/-! ## Function literals -/

/-- A default ends with its expression. Without one nothing is read. -/
theorem left_of_default? (hnested : nested.Ends) {hts : ts.length < n}
    {r : List Expr × { r : List Token // r.length < n }}
    (h : default? inner nested ts hts = .ok r) : Left r.2.1 ts := by
  unfold default? at h
  split at h
  · next hs =>
    obtain ⟨⟨e, _, rest, _⟩, hread, h⟩ := bind_eq_ok h
    cases h
    exact (hnested hread).left.trans (Context.tail_left_of_skip hs (by simp))
  · cases h
    exact Left.refl _

/-- Parameters end with the closing bracket. -/
theorem parameters_endsIn (hnested : nested.Ends) {names : List String} {defaults : List Expr}
    {hts : ts.length < n} {p : Parsed (List String × List Expr) n}
    (h : parameters src inner nested names defaults ts hts = .ok p) : p.EndsIn ts := by
  fun_induction parameters src inner nested names defaults ts hts with
  | case1 names defaults ts _ _ ih =>
    obtain ⟨⟨name, _, named, _⟩, hnamed, h⟩ := bind_eq_ok h
    obtain ⟨⟨default, read, hlt⟩, hread, h⟩ := bind_eq_ok h
    have hnamed := (word_endsIn hnamed).left.trans (inner.left_skip ts)
    have hread := (left_of_default? (fun _ _ _ _ _ h => hnested h) hread).trans hnamed
    dsimp only at h
    split at h
    · next hs =>
      cases h
      exact .of_kind rfl ((Context.left_of_skip hs).trans hread) (by simp)
    · next hs =>
      have hrest := (Context.tail_left_of_skip hs (by simp)).trans hread
      exact (ih name named default read hlt _ _ _ hs h).mono hrest
    · cases h

theorem parameterList_endsIn (hnested : nested.Ends) {hts : ts.length < n}
    {p : Parsed (List String × List Expr) n}
    (h : parameterList src inner nested ts hts = .ok p) : p.EndsIn ts := by
  unfold parameterList at h
  split at h
  · next hs =>
    cases h
    exact .of_kind rfl (Context.left_of_skip hs) (by simp)
  · exact parameters_endsIn hnested h

/-- A function literal ends with its body. -/
theorem functionLiteral_endsIn (hnested : nested.Ends) {start : ℕ} {hts : ts.length < n}
    {p : Parsed Expr n} (h : functionLiteral src ctx nested start ts hts = .ok p) :
    p.EndsIn ts := by
  unfold functionLiteral at h
  obtain ⟨inner, -, h⟩ := bind_eq_ok h
  obtain ⟨⟨_, _, opened, _⟩, hopened, h⟩ := bind_eq_ok h
  obtain ⟨⟨⟨names, defaults⟩, _, read, _⟩, hread, h⟩ := bind_eq_ok h
  obtain ⟨⟨body, stop, rest, _⟩, hbody, h⟩ := bind_eq_ok h
  cases h
  have hopened := (expect_endsIn hopened (by simp)).left
  have hread := (parameterList_endsIn hnested hread).left
  exact (hnested hbody).mono (((left_dropNewlines read).trans hread).trans hopened)

/-! ## Control flow -/

theorem left_of_else? {r : { rest : List Token // rest.length < ts.length }}
    (h : else? ctx ts = some r) : Left r.1 ts := by
  unfold else? at h
  extract_lets inside at h
  split at h
  · next hs =>
    cases h
    exact Context.tail_left_of_skip hs (by simp)
  · cases h

/-- A conditional ends with its second branch, or with its first if it has no other. -/
theorem conditional_endsIn (hnested : nested.Ends) {hts : ts.length < n} {p : Parsed Expr n}
    (h : conditional src ctx nested ts hts = .ok p) : p.EndsIn ts := by
  unfold conditional at h
  obtain ⟨⟨condition, _, read, _⟩, hread, h⟩ := bind_eq_ok h
  obtain ⟨⟨yes, stop, rest, _⟩, hyes, h⟩ := bind_eq_ok h
  have hread := (bracketed_endsIn hnested hread).left
  have hyes := (hnested hyes).mono ((left_dropNewlines read).trans hread)
  dsimp only at h
  split at h
  · cases h
    exact hyes
  · next helse =>
    obtain ⟨⟨no, stop, rest, _⟩, hno, h⟩ := bind_eq_ok h
    cases h
    have helse := (left_of_else? helse).trans hyes.left
    exact (hnested hno).mono ((left_dropNewlines _).trans helse)

/-- A loop ends with its body, whatever stands in its brackets. -/
theorem forLoop_endsIn (hnested : nested.Ends) {hts : ts.length < n} {p : Parsed Expr n}
    (h : forLoop src ctx nested ts hts = .ok p) : p.EndsIn ts := by
  unfold forLoop at h
  obtain ⟨inner, -, h⟩ := bind_eq_ok h
  obtain ⟨⟨_, _, opened, _⟩, hopened, h⟩ := bind_eq_ok h
  obtain ⟨⟨name, _, named, _⟩, hnamed, h⟩ := bind_eq_ok h
  obtain ⟨⟨_, _, started, _⟩, hstarted, h⟩ := bind_eq_ok h
  obtain ⟨⟨sequence, _, read, _⟩, hread, h⟩ := bind_eq_ok h
  obtain ⟨⟨_, _, closed, _⟩, hclosed, h⟩ := bind_eq_ok h
  obtain ⟨⟨body, stop, rest, _⟩, hbody, h⟩ := bind_eq_ok h
  cases h
  have hopened := (expect_endsIn hopened (by simp)).left
  have hnamed := (word_endsIn hnamed).left.trans ((inner.left_skip _).trans hopened)
  have hstarted := (expect_endsIn hstarted (by simp)).left.trans
    ((inner.left_skip _).trans hnamed)
  have hread := (hnested hread).left.trans hstarted
  have hclosed := (expect_endsIn hclosed (by simp)).left.trans
    ((inner.left_skip _).trans hread)
  exact (hnested hbody).mono ((left_dropNewlines _).trans hclosed)

theorem whileLoop_endsIn (hnested : nested.Ends) {hts : ts.length < n} {p : Parsed Expr n}
    (h : whileLoop src ctx nested ts hts = .ok p) : p.EndsIn ts := by
  unfold whileLoop at h
  obtain ⟨⟨condition, _, read, _⟩, hread, h⟩ := bind_eq_ok h
  obtain ⟨⟨body, stop, rest, _⟩, hbody, h⟩ := bind_eq_ok h
  cases h
  have hread := (bracketed_endsIn hnested hread).left
  exact (hnested hbody).mono ((left_dropNewlines read).trans hread)

theorem repeatLoop_endsIn (hnested : nested.Ends) {hts : ts.length < n} {p : Parsed Expr n}
    (h : repeatLoop ctx nested ts hts = .ok p) : p.EndsIn ts := by
  unfold repeatLoop at h
  obtain ⟨⟨body, stop, rest, _⟩, hbody, h⟩ := bind_eq_ok h
  cases h
  exact hnested hbody

/-! ## Names and numbers -/

/-- A name is one token, and no newline. -/
theorem memberName?_endsIn {p : Parsed Unit ts.length} (h : memberName? ctx ts = some p) :
    p.EndsIn ts := by
  unfold memberName? at h
  split at h
  · next hs =>
    split_ifs at h with hname
    cases h
    refine .of_kind rfl (Context.left_of_skip hs) ⟨fun hkind => ?_, fun hkind => ?_⟩
    · simp [hkind, isMemberName] at hname
    · simp [hkind, isMemberName] at hname
  · cases h

/-- A name in a package ends with the second name, or with the operator if none comes. -/
theorem qualify_endsIn {p : Parsed Expr n} (hp : p.EndsIn ts) : (qualify ctx p).EndsIn ts := by
  unfold qualify
  split
  · next hs =>
    have hrest := (Context.left_of_skip hs).trans hp.left
    split
    · next hname =>
      exact (memberName?_endsIn hname).mono ((Left.cons (by simp) _).trans hrest)
    · exact .of_kind rfl hrest (by simp)
  · exact hp

theorem numberSuffix_endsIn {p : Parsed Expr n} (hp : p.EndsIn ts) :
    (numberSuffix ctx p).EndsIn ts := by
  unfold numberSuffix
  split
  · next hs =>
    split_ifs
    · exact .of_kind rfl ((Context.left_of_skip hs).trans hp.left) (by simp)
    · exact hp
  · exact hp

/-! ## Expressions -/

/-- A keyword leaves the rest to its part of the grammar, and any other word may be a package. -/
theorem wordExpr_endsIn (hnested : nested.Ends) {name : String} {start stop : ℕ}
    {rest : List Token} {hrest : rest.length < n}
    (hts : Left (⟨.word name, start, stop⟩ :: rest) ts) {p : Parsed Expr n}
    (h : wordExpr src ctx nested name start stop rest hrest = .ok p) : p.EndsIn ts := by
  have hnext := (left_dropNewlines rest).trans ((Left.cons (by simp) rest).trans hts)
  unfold wordExpr at h
  extract_lets next hn at h
  split_ifs at h
  · exact (functionLiteral_endsIn hnested h).mono hnext
  · exact (conditional_endsIn hnested h).mono hnext
  · exact (forLoop_endsIn hnested h).mono hnext
  · exact (whileLoop_endsIn hnested h).mono hnext
  · exact (repeatLoop_endsIn hnested h).mono hnext
  · cases h
    exact .of_kind rfl hts (by simp)
  · cases h
    exact qualify_endsIn (.of_kind rfl hts (by simp))
  · cases h
    exact qualify_endsIn (.of_kind rfl hts (by simp))

/-- Each kind of token starts an expression that ends in the list, or none. -/
theorem primary_endsIn (hnested : nested.Ends) {hts : ts.length ≤ n} {p : Parsed Expr n}
    (h : primary src ctx nested ts hts = .ok p) : p.EndsIn ts := by
  unfold primary at h
  extract_lets h₁ at h
  split at h
  · cases h
  · next t rest hs =>
    have hs := Context.left_of_skip hs
    have hrest : t.kind ≠ .illegal → Left rest ts := fun ht => (Left.cons ht rest).trans hs
    obtain ⟨kind, start, stop⟩ := t
    dsimp only at h
    split at h
    · cases h
      exact numberSuffix_endsIn (.of_kind rfl hs (by simp))
    · cases h
      exact qualify_endsIn (.of_kind rfl hs (by simp))
    · cases h
      exact qualify_endsIn (.of_kind rfl hs (by simp))
    · cases h
      exact qualify_endsIn (.of_kind rfl hs (by simp))
    · exact wordExpr_endsIn hnested hs h
    · have hleft := (left_dropNewlines rest).trans (hrest (by simp))
      exact (functionLiteral_endsIn hnested h).mono hleft
    · obtain ⟨⟨e, stop, rest, _⟩, hread, h⟩ := bind_eq_ok h
      cases h
      exact (bracketed_endsIn hnested hread).mono hs
    · obtain ⟨inner, -, h⟩ := bind_eq_ok h
      obtain ⟨⟨body, stop, rest, _⟩, hread, h⟩ := bind_eq_ok h
      cases h
      exact (statements_endsIn hnested hread).mono (hrest (by simp))
    · split at h
      · cases h
      · obtain ⟨⟨e, stop, rest, _⟩, hread, h⟩ := bind_eq_ok h
        cases h
        exact (hnested hread).mono ((left_dropNewlines _).trans (hrest (by simp)))
    · cases h

/-- A member expression without a name ends with its operator, or with the newline behind it. -/
theorem endsIn_of_memberGap {α : Type} {start stop stop' : ℕ} {rest rest' : List Token}
    {hrest : rest'.length ≤ rest.length} (hgap : memberGap ctx stop rest = (stop', ⟨rest', hrest⟩))
    (hts : Left (⟨.operator .member, start, stop⟩ :: rest) ts) (value : α)
    (hlt : rest'.length < n) :
    (⟨value, stop', rest', hlt⟩ : Parsed α n).EndsIn ts := by
  unfold memberGap at hgap
  split at hgap
  · split_ifs at hgap
    · cases hgap
      exact .of_kind rfl hts (by simp)
    · cases hgap
      exact ⟨_, rfl, (Left.cons (by simp) _).trans hts, by simp, fun _ => ⟨_, rfl, hts⟩⟩
  · cases hgap
    exact .of_kind rfl hts (by simp)

/-- Calls and indices end with a bracket. Members end with a name, or without one with the operator
or the newline behind it. -/
theorem suffixes_endsIn (hnested : nested.Ends) {p q : Parsed Expr n} (hp : p.EndsIn ts)
    (h : suffixes src ctx nested p = .ok q) : q.EndsIn ts := by
  fun_induction suffixes src ctx nested p with
  | case1 =>
    cases h
    exact hp
  | case2 p _ bracket _ _ rest _ hs _ ih =>
    obtain ⟨inner, -, h⟩ := bind_eq_ok h
    obtain ⟨⟨args, stop, rest, hlt⟩, hread, h⟩ := bind_eq_ok h
    have hread := arguments_endsIn (fun _ _ _ _ _ h => hnested h) hread
    refine ih args stop rest hlt (hread.mono ?_) h
    exact (Context.tail_left_of_skip hs (by simp)).trans hp.left
  | case3 p _ _ _ _ hs _ _ _ _ hgap _ _ _ _ hname ih =>
    have hts := (Context.left_of_skip hs).trans hp.left
    have hmember := endsIn_of_memberGap hgap hts p.value (Nat.lt_succ_self _)
    exact ih ((memberName?_endsIn hname).mono hmember.left) h
  | case4 p _ _ _ _ hs _ _ _ _ hgap _ ih =>
    have hts := (Context.left_of_skip hs).trans hp.left
    exact ih (endsIn_of_memberGap hgap hts _ _) h
  | case5 =>
    cases h
    exact hp

/-- An expression with binary operators ends with the last operand. -/
theorem climb_endsIn (hnested : nested.Ends) {m : ℕ} {p q : Parsed Expr n} (hp : p.EndsIn ts)
    (h : climb ctx m nested p = .ok q) : q.EndsIn ts := by
  fun_induction climb ctx m nested p with
  | case1 p _ _ _ _ rest hs _ _ _ _ _ _ ih =>
    obtain ⟨⟨e, stop, rest', hlt⟩, hread, h⟩ := bind_eq_ok h
    have hrest := (Context.tail_left_of_skip hs (by simp)).trans hp.left
    have hread := (hnested hread).mono ((left_dropNewlines rest).trans hrest)
    exact ih e stop rest' hlt hread h
  | case2 | case3 | case4 =>
    cases h
    exact hp

end

/-- An expression ends with one of the tokens it was read from. The proof goes by the number of
tokens, since nested expressions are read from fewer. -/
theorem parse_endsIn {src : Source} (ctx : Context) (m : ℕ) (ts : List Token)
    {p : Parsed Expr ts.length} (h : parse src ctx m ts = .ok p) : p.EndsIn ts := by
  rw [parse] at h
  have hnested : Nested.Ends (n := ts.length) fun ctx m shorter _ => parse src ctx m shorter :=
    fun ctx m shorter _ _ => parse_endsIn ctx m shorter
  obtain ⟨p₀, hprimary, h⟩ := bind_eq_ok h
  obtain ⟨p₁, hsuffixes, h⟩ := bind_eq_ok h
  exact climb_endsIn hnested (suffixes_endsIn hnested (primary_endsIn hnested hprimary) hsuffixes) h
termination_by ts.length

end Expr.Parser

end CallAtlas
