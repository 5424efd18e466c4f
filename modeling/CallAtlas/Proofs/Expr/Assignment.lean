import Mathlib.Logic.Function.Iterate
import CallAtlas.Proofs.Binding
import CallAtlas.Proofs.Expr.Relocation.Parse

/-!
# Reading assignments

An expression that is read from some tokens on their own is read from them in any number of round
brackets too, with newlines inside the brackets (`parse_enclosed`). So a name, an operator and such
an expression are read as an assignment to the left (`parse_assignment_left`), and the expression,
an operator and a name as one to the right (`parse_assignment_right`). In front of a right arrow
there is at least one bracket, which keeps the arrow out of the expression.

A function literal is no operand of what follows it, so it is read in the same way whatever the
level of the operators around it is (`primary_of_parse`). No literal stands in front of a right
arrow without brackets (`ne_assignment_of_parse`).
-/

namespace CallAtlas

/-- The tokens that spell a name: words that are no keywords, quoted names and strings. -/
inductive Token.Kind.Names (name : String) : Token.Kind → Prop
  | word : isKeyword name = false → isDots name = false → Names name (.word name)
  | quoted : Names name (.quoted name)
  | text : Names name (.text name)

/-- The expression that such a token is. -/
def Token.Kind.nameExpr : Token.Kind → Expr
  | .word name | .quoted name => .ident name
  | .text content => .text content
  | _ => .atom

theorem Token.Kind.Names.spells {name : String} {kind : Token.Kind} (h : kind.Names name) :
    Expr.Spells name kind.nameExpr := by
  cases h with
  | word | quoted => exact Or.inl rfl
  | text => exact Or.inr rfl

namespace Expr.Parser

open Token (dropNewlines)

/-- Reads nested expressions from fewer than `n` tokens. -/
abbrev nestedParse (src : Source) (n : ℕ) : Nested n :=
  fun ctx m ts _ => parse src ctx m ts

section

variable {src : Source} {ctx : Context} {m n : ℕ} {ts ts' rest before behind : List Token}
  {p : Parsed Expr ts.length}

theorem dropNewlines_append (h : ∀ t ∈ before, t.kind = .newline) (ts : List Token) :
    dropNewlines (before ++ ts) = dropNewlines ts :=
  List.dropWhile_append_of_pos (by simpa using h)

theorem dropNewlines_of_head (h : ∀ t ∈ ts.head?, t.kind ≠ .newline) : dropNewlines ts = ts := by
  cases ts with
  | nil => rfl
  | cons t ts => exact List.dropWhile_cons_of_neg (by simpa using h t rfl)

theorem Context.skip_append (h : ∀ t ∈ before, t.kind = .newline)
    (hbefore : before ≠ [] → ctx.scope = .group) (ts : List Token) :
    ctx.skip (before ++ ts) = ctx.skip ts := by
  by_cases hnil : before = []
  · rw [hnil, List.nil_append]
  · rw [skip_of_group (hbefore hnil), skip_of_group (hbefore hnil), dropNewlines_append h]

@[simp]
theorem Context.skip_top (depth : ℕ) (ts : List Token) :
    (⟨.top, depth⟩ : Context).skip ts = ts :=
  rfl

theorem Context.skip_of_head (h : ∀ t ∈ ts.head?, t.kind ≠ .newline) : ctx.skip ts = ts := by
  unfold skip
  split_ifs
  · exact dropNewlines_of_head h
  · rfl

/-- An expression that nothing follows which it could go on with. -/
theorem parse_of_primary (h : primary src ctx (nestedParse src ts.length) ts le_rfl = .ok p)
    (hsuffixes : ∀ t ∈ (ctx.skip p.rest).head?, EndsSuffixes t.kind)
    (hclimb : ∀ t ∈ (ctx.skip p.rest).head?, EndsClimb m t.kind) :
    parse src ctx m ts = .ok p := by
  rw [parse]
  exact bind_ok h (bind_ok (suffixes_of_ends hsuffixes) (climb_of_ends hclimb))

/-- An expression behind which stand a binary operator and another expression. -/
theorem parse_binary {op : Operator} {level right start stop : ℕ} {d e : Expr}
    (hleft : ∃ stop hlt, primary src ctx (nestedParse src ts.length) ts le_rfl =
      .ok ⟨d, stop, rest, hlt⟩)
    (hs : ctx.skip rest = ⟨.operator op, start, stop⟩ :: ts')
    (hop : op.binary? = some (level, right)) (hm : m ≤ level)
    (hright : ∃ stop hlt, parse src ctx right (dropNewlines ts') = .ok ⟨e, stop, behind, hlt⟩)
    (hbehind : ∀ t ∈ (ctx.skip behind).head?, EndsClimb m t.kind) :
    ∃ stop hlt, parse src ctx m ts = .ok ⟨.binary op d e, stop, behind, hlt⟩ := by
  obtain ⟨_, hrest, hleft⟩ := hleft
  obtain ⟨stop, hlt, hright⟩ := hright
  have hts' := hlt.trans_le (Token.length_dropNewlines_le ts')
  refine ⟨stop, (hts'.trans (Context.length_lt_of_skip hs)).trans hrest, ?_⟩
  rw [parse]
  refine bind_ok hleft (bind_ok (suffixes_of_ends ?_) ?_)
  · dsimp only
    rw [hs]
    rintro t ht
    cases ht
    refine ⟨?_, by simp⟩
    rintro hmember
    cases hmember
    cases hop
  · exact (climb_of_binary? hs hop hm hright).trans (climb_of_ends hbehind)

/-! ## Names -/

theorem primary_of_names {name : String} {kind : Token.Kind} (h : kind.Names name)
    (hrest : ∀ t ∈ rest.head?, t.kind ≠ .operator .package) (src : Source) (start stop : ℕ) :
    ∃ hlt, primary src ⟨.top, 0⟩ (nestedParse src (rest.length + 1)) (⟨kind, start, stop⟩ :: rest)
      le_rfl = .ok ⟨kind.nameExpr, stop, rest, hlt⟩ := by
  have hlt : rest.length < rest.length + 1 := Nat.lt_succ_self _
  have hqualify : ∀ e : Expr, qualify ⟨.top, 0⟩ ⟨e, stop, rest, hlt⟩ = ⟨e, stop, rest, hlt⟩ :=
    fun e => qualify_of_ne hrest
  refine ⟨hlt, ?_⟩
  cases h with
  | word hkeyword hdots =>
    have hne : ∀ word ∈ Token.keywords, name ≠ word := by
      rintro word hmem rfl
      simp [Token.isKeyword, hmem] at hkeyword
    change wordExpr src _ _ name start stop rest _ = _
    rw [wordExpr, if_neg (hne _ (by decide)), if_neg (hne _ (by decide)),
      if_neg (hne _ (by decide)), if_neg (hne _ (by decide)), if_neg (hne _ (by decide)),
      if_neg (by simp [hkeyword]), if_neg (by simp [hdots]), hqualify]
    rfl
  | quoted | text => exact congrArg Except.ok (hqualify _)

/-! ## Round brackets -/

theorem expect_of_eq (src : Source) {kind : Token.Kind} {start stop : ℕ}
    (h : ts = ⟨kind, start, stop⟩ :: rest) :
    ∃ hlt, expect src kind ts = .ok ⟨(), stop, rest, hlt⟩ := by
  subst h
  exact ⟨_, if_pos rfl⟩

theorem bracketed_of_parse {e : Expr} {start stop start' stop' : ℕ} {opened read : List Token}
    (hs : ts = ⟨.opening .round, start, stop⟩ :: opened) (hdepth : ctx.depth < maxDepth)
    (hread : ∃ stop hlt, parse src (ctx.inside .group) 0 opened = .ok ⟨e, stop, read, hlt⟩)
    (hclosed : dropNewlines read = ⟨.closing .round, start', stop'⟩ :: rest) (hts : ts.length ≤ n) :
    ∃ hlt, bracketed src ctx (nestedParse src n) ts hts = .ok ⟨e, stop', rest, hlt⟩ := by
  obtain ⟨_, _, hread⟩ := hread
  have hskip : (ctx.inside .group).skip read = ⟨.closing .round, start', stop'⟩ :: rest := hclosed
  obtain ⟨_, hopening⟩ := expect_of_eq src hs
  obtain ⟨_, hclosing⟩ := expect_of_eq src hskip
  exact ⟨_, bind_ok (enter_of_lt .group hdepth _) (bind_ok hopening (bind_ok hread
    (bind_ok hclosing rfl)))⟩

/-- An expression that can be read in front of a closing bracket can be read in round brackets. -/
theorem primary_round {e : Expr} {start stop start' stop' : ℕ} {inner after : List Token}
    (hread : ∀ behind, Closed behind →
      ∃ stop hlt, parse src (ctx.inside .group) 0 (inner ++ behind) = .ok ⟨e, stop, behind, hlt⟩)
    (hdepth : ctx.depth < maxDepth) (hbefore : ∀ t ∈ before, t.kind = .newline)
    (hgroup : before ≠ [] → ctx.scope = .group) (hafter : ∀ t ∈ after, t.kind = .newline)
    (hts : ts = before ++ (⟨.opening .round, start, stop⟩ ::
      (inner ++ (after ++ [⟨.closing .round, start', stop'⟩])) ++ behind)) :
    ∃ stop hlt, primary src ctx (nestedParse src ts.length) ts le_rfl =
      .ok ⟨.paren e, stop, behind, hlt⟩ := by
  let closed : List Token := after ++ ⟨.closing .round, start', stop'⟩ :: behind
  have hclosed : dropNewlines closed = ⟨.closing .round, start', stop'⟩ :: behind :=
    dropNewlines_append hafter _
  have hs : ctx.skip ts = ⟨.opening .round, start, stop⟩ :: (inner ++ closed) := by
    rw [hts, Context.skip_append hbefore hgroup, Context.skip_of_head (by simp)]
    simp [closed]
  have hread := hread closed (by rw [Closed, hclosed]; simp)
  have hle := ctx.length_skip_le ts
  rw [hs] at hle
  obtain ⟨hlt, hbracketed⟩ := bracketed_of_parse rfl hdepth hread hclosed hle
  refine ⟨stop', hlt.trans_le hle, ?_⟩
  unfold primary
  extract_lets
  split
  · next hnil => cases hs.symm.trans hnil
  · next hs' =>
    cases hs.symm.trans hs'
    exact bind_ok hbracketed rfl

end

/-- Tokens in `k` round brackets, with newlines inside each of them. -/
inductive Enclosed (ts : List Token) : ℕ → List Token → Prop
  | bare : Enclosed ts 0 ts
  | round {k start stop start' stop' : ℕ} {before inner after : List Token} :
      (∀ t ∈ before, t.kind = .newline) → Enclosed ts k inner → (∀ t ∈ after, t.kind = .newline) →
      Enclosed ts (k + 1) (⟨.opening .round, start, stop⟩ ::
        (before ++ inner ++ (after ++ [⟨.closing .round, start', stop'⟩])))

/-- The tokens are an expression on their own, at the top level or in a bracket, whatever the level
of the operators around it, and they can be read in another place. -/
structure Relocation.Reads (r : Relocation) (scope : Scope) (ts : List Token) (e : Expr) :
    Prop where
  parse : ∀ m, ∃ stop hlt, parse r.source ⟨scope, 0⟩ m ts = .ok ⟨e, stop, [], hlt⟩
  fits : r.Fits ts
  scope : scope = .top ∨ scope = .group
  head : ∃ t ∈ ts.head?, t.kind ≠ .newline

/-- The same place, with other tokens behind. -/
def Relocation.inFrontOf (r : Relocation) (behind : List Token) (closed : Closed behind) :
    Relocation :=
  { r with behind, closed }

section

variable {r : Relocation} {scope : Scope} {ctx : Context} {k : ℕ} {e : Expr}
  {ts tokens before behind : List Token}

theorem Closed.stopped_skip (h : Closed behind) (ctx : Context) : Stopped (ctx.skip behind) := by
  unfold Context.skip
  split_ifs
  · exact fun t ht => Or.inr (h t ht)
  · exact h.stopped

theorem Stopped.endsSuffixes (h : Stopped ts) : ∀ t ∈ ts.head?, EndsSuffixes t.kind := by
  intro t ht
  rcases h t ht with hkind | hkind <;> simp [hkind, EndsSuffixes]

theorem Stopped.endsClimb (h : Stopped ts) (m : ℕ) : ∀ t ∈ ts.head?, EndsClimb m t.kind := by
  intro t ht
  rcases h t ht with hkind | hkind <;> simp [hkind, EndsClimb]

/-- An expression can be read behind newlines and in front of a closing bracket. -/
theorem parse_bare (h : r.Reads scope ts e)
    (hscope : ctx.scope = scope ∨ scope = .top ∧ ctx.scope = .group)
    (hdepth : ctx.depth + e.bracketDepth ≤ maxDepth) (hbefore : ∀ t ∈ before, t.kind = .newline)
    (hgroup : before ≠ [] → ctx.scope = .group) (hclosed : Closed behind) (m : ℕ) :
    ∃ stop hlt, parse r.target ctx m (before ++ (ts.map (Token.shift r.offset) ++ behind)) =
      .ok ⟨e, stop, behind, hlt⟩ := by
  obtain ⟨_, _, hparse⟩ := h.parse m
  obtain ⟨t, rest, hs, ht, -⟩ := parse_starts hparse
  let r' := r.inFrontOf behind hclosed
  have hskip : ctx.skip (before ++ r'.tokens ts) = r'.tokens ((⟨scope, 0⟩ : Context).skip ts) := by
    rw [Context.skip_append hbefore hgroup, Context.skip_tokens hscope hs (Or.inr ht), hs]
    rfl
  have hjoin : Joins ⟨scope, 0⟩ ctx [] := ⟨hscope, Or.inr (by simp [Calm])⟩
  obtain ⟨hlt, hparse'⟩ :=
    parse_moves (r := r') ts hparse hskip hjoin ⟨h.fits.slice, h.fits.member⟩ hdepth
  exact ⟨_, hlt, hparse'⟩

theorem Relocation.Reads.into_group (h : r.Reads scope ts e) :
    Scope.group = scope ∨ scope = .top ∧ Scope.group = .group :=
  h.scope.symm.imp Eq.symm fun htop => ⟨htop, rfl⟩

/-- An expression can be read in round brackets. -/
theorem parse_enclosed (h : r.Reads scope ts e)
    (hk : Enclosed (ts.map (Token.shift r.offset)) k tokens)
    (hscope : k = 0 → ctx.scope = scope ∨ scope = .top ∧ ctx.scope = .group)
    (hdepth : ctx.depth + k + e.bracketDepth ≤ maxDepth) (hbefore : ∀ t ∈ before, t.kind = .newline)
    (hgroup : before ≠ [] → ctx.scope = .group) (hclosed : Closed behind) (m : ℕ) :
    ∃ stop hlt, parse r.target ctx m (before ++ (tokens ++ behind)) =
      .ok ⟨paren^[k] e, stop, behind, hlt⟩ := by
  induction hk generalizing ctx before behind m with
  | bare => exact parse_bare h (hscope rfl) hdepth hbefore hgroup hclosed m
  | @round k _ _ _ _ newlines inner after hnewlines hinner hafter ih =>
    have hinside : ∀ behind, Closed behind → ∃ stop hlt, parse r.target (ctx.inside .group) 0
        (newlines ++ inner ++ behind) = .ok ⟨paren^[k] e, stop, behind, hlt⟩ := by
      intro behind hclosed
      rw [List.append_assoc]
      refine ih (fun _ => h.into_group) ?_ hnewlines (fun _ => rfl) hclosed 0
      dsimp only [Context.inside]
      omega
    obtain ⟨stop, hlt, hprimary⟩ :=
      primary_round hinside (by omega) hbefore hgroup hafter rfl
    have hstopped := hclosed.stopped_skip ctx
    rw [Function.iterate_succ_apply']
    exact ⟨stop, hlt, parse_of_primary hprimary hstopped.endsSuffixes (hstopped.endsClimb m)⟩

/-- What follows an expression in round brackets does not matter. -/
theorem primary_enclosed (h : r.Reads scope ts e)
    (hk : Enclosed (ts.map (Token.shift r.offset)) k tokens) (hne : k ≠ 0)
    (hdepth : ctx.depth + k + e.bracketDepth ≤ maxDepth) (behind : List Token) :
    ∃ stop hlt, primary r.target ctx (nestedParse r.target (tokens ++ behind).length)
      (tokens ++ behind) le_rfl = .ok ⟨paren^[k] e, stop, behind, hlt⟩ := by
  cases hk with
  | bare => exact absurd rfl hne
  | round hnewlines hinner hafter =>
    rw [Function.iterate_succ_apply']
    refine primary_round ?_ (by omega) (List.forall_mem_nil _) (by simp) hafter rfl
    intro behind hclosed
    rw [List.append_assoc]
    refine parse_enclosed h hinner (fun _ => h.into_group) ?_ hnewlines (fun _ => rfl) hclosed 0
    dsimp only [Context.inside]
    omega

/-! ## Assignments -/

variable {name : String} {arrow : Arrow} {op : Operator} {kind : Token.Kind}
  {start stop start' stop' : ℕ} {gap tail : List Token}

theorem closed_of_newlines (h : ∀ t ∈ tail, t.kind = .newline) : Closed tail := by
  rw [← List.append_nil tail, Closed, dropNewlines_append h]
  simp [dropNewlines]

theorem Enclosed.dropNewlines_append (h : Enclosed ts k tokens)
    (hts : ∃ t ∈ ts.head?, t.kind ≠ .newline) (behind : List Token) :
    dropNewlines (tokens ++ behind) = tokens ++ behind := by
  cases h with
  | bare =>
    obtain ⟨t, ht, hkind⟩ := hts
    obtain ⟨rest, rfl⟩ := List.head?_eq_some_iff.mp ht
    exact dropNewlines_of_head (by simpa using hkind)
  | round => exact dropNewlines_of_head (by simp)

theorem exists_binary?_of_bindsWith (h : op.BindsWith arrow) :
    ∃ level right, op.binary? = some (level, right) := by
  cases h <;> exact ⟨_, _, rfl⟩

/-- A name, an operator and an expression in round brackets are an assignment to the left. -/
theorem parse_assignment_left (h : r.Reads scope ts e)
    (hk : Enclosed (ts.map (Token.shift r.offset)) k tokens) (hscope : k = 0 → scope = .top)
    (hdepth : k + e.bracketDepth ≤ maxDepth) (hop : op.BindsWith arrow) (harrow : arrow ≠ .right)
    (hname : kind.Names name) (hgap : ∀ t ∈ gap, t.kind = .newline)
    (htail : ∀ t ∈ tail, t.kind = .newline) :
    ∃ stop'' hlt, parse r.target ⟨.top, 0⟩ 0
        (⟨kind, start, stop⟩ :: ⟨.operator op, start', stop'⟩ :: (gap ++ (tokens ++ tail))) =
      .ok ⟨assignment arrow op kind.nameExpr (paren^[k] e), stop'', tail, hlt⟩ := by
  obtain ⟨level, right, hbinary⟩ := exists_binary?_of_bindsWith hop
  have hpackage : ∀ t ∈ (⟨.operator op, start', stop'⟩ :: (gap ++ (tokens ++ tail)) :
      List Token).head?, t.kind ≠ .operator .package := by
    rintro t ht hkind
    cases ht
    cases hkind
    cases hop
  have hclosed := closed_of_newlines htail
  have hright : ∃ stop hlt, parse r.target ⟨.top, 0⟩ right
      (dropNewlines (gap ++ (tokens ++ tail))) = .ok ⟨paren^[k] e, stop, tail, hlt⟩ := by
    rw [Parser.dropNewlines_append hgap,
      hk.dropNewlines_append (by simpa [Token.shift] using h.head)]
    exact parse_enclosed h hk (fun hk => Or.inl (hscope hk).symm) (by simpa using hdepth)
      (List.forall_mem_nil _) (by simp) hclosed right
  have hassignment : assignment arrow op kind.nameExpr (paren^[k] e) =
      .binary op kind.nameExpr (paren^[k] e) := by
    cases hop <;> first | rfl | exact absurd rfl harrow
  rw [hassignment]
  exact parse_binary ⟨stop, primary_of_names hname hpackage r.target start stop⟩
    (Context.skip_top 0 _) hbinary (Nat.zero_le level) hright ((hclosed.stopped_skip _).endsClimb 0)

/-- An expression in round brackets, an operator and a name are an assignment to the right. -/
theorem parse_assignment_right (h : r.Reads scope ts e)
    (hk : Enclosed (ts.map (Token.shift r.offset)) k tokens) (hne : k ≠ 0)
    (hdepth : k + e.bracketDepth ≤ maxDepth) (hop : op.BindsWith .right)
    (hname : kind.Names name) (hgap : ∀ t ∈ gap, t.kind = .newline)
    (htail : ∀ t ∈ tail, t.kind = .newline) :
    ∃ stop'' hlt, parse r.target ⟨.top, 0⟩ 0
        (tokens ++ ⟨.operator op, start', stop'⟩ :: (gap ++ ⟨kind, start, stop⟩ :: tail)) =
      .ok ⟨assignment .right op kind.nameExpr (paren^[k] e), stop'', tail, hlt⟩ := by
  obtain ⟨level, right, hbinary⟩ := exists_binary?_of_bindsWith hop
  have hstopped : Stopped tail := (closed_of_newlines htail).stopped
  have hnext : dropNewlines (gap ++ ⟨kind, start, stop⟩ :: tail) = ⟨kind, start, stop⟩ :: tail := by
    rw [Parser.dropNewlines_append hgap]
    cases hname <;> rfl
  have hpackage : ∀ t ∈ tail.head?, t.kind ≠ .operator .package := by
    intro t ht
    rcases hstopped t ht with hkind | hkind <;> simp [hkind]
  obtain ⟨hlt, hprimary⟩ := primary_of_names hname hpackage r.target start stop
  refine parse_binary (primary_enclosed h hk hne (by simpa using hdepth) _)
    (Context.skip_top 0 _) hbinary (Nat.zero_le level) ?_ (hstopped.endsClimb 0)
  rw [hnext]
  exact ⟨stop, hlt, parse_of_primary hprimary hstopped.endsSuffixes (hstopped.endsClimb right)⟩

end

/-! ## Function literals -/

section

variable {src : Source} {ctx : Context} {m n : ℕ} {nested : Nested n} {ts : List Token}
  {f : FunctionLiteral} {op : Operator} {e : Expr}

/-- Function literals and the expressions that binary operators make. -/
inductive LiteralOrBinary : Expr → Prop
  | literal (f : FunctionLiteral) : LiteralOrBinary f.expr
  | binary (op : Operator) (d e : Expr) : LiteralOrBinary (.binary op d e)

/-- Calls, indices and members are neither. -/
theorem eq_of_suffixes {p q : Parsed Expr n} (h : suffixes src ctx nested p = .ok q)
    (hq : LiteralOrBinary q.value) : p = q := by
  fun_induction suffixes src ctx nested p with
  | case1 | case5 => exact Except.ok.inj h
  | case2 p _ bracket _ _ rest _ hs _ ih =>
    obtain ⟨inner, -, h⟩ := bind_eq_ok h
    obtain ⟨⟨args, stop, rest, hlt⟩, -, h⟩ := bind_eq_ok h
    cases ih args stop rest hlt h
    dsimp only at hq
    split_ifs at hq <;> cases hq
  | case3 _ _ _ _ _ _ _ _ _ _ _ _ _ _ _ _ ih =>
    cases ih h
    cases hq
  | case4 _ _ _ _ _ _ _ _ _ _ _ _ ih =>
    cases ih h
    cases hq

/-- A binary operator with its operands is no function literal. -/
theorem eq_of_climb {p q : Parsed Expr n} (h : climb ctx m nested p = .ok q)
    (hq : q.value = f.expr) : p = q := by
  fun_induction climb ctx m nested p with
  | case1 p _ _ _ _ rest hs _ _ _ _ _ _ ih =>
    obtain ⟨⟨e, stop, rest', hlt⟩, -, h⟩ := bind_eq_ok h
    cases ih e stop rest' hlt h
    cases hq
  | case2 | case3 | case4 => exact Except.ok.inj h

/-- No function literal starts with an operator. -/
theorem ne_operator_of_primary {hts : ts.length ≤ n} {p : Parsed Expr n}
    (h : primary src ctx nested ts hts = .ok p) (hp : p.value = f.expr) :
    ∀ t ∈ (ctx.skip ts).head?, ∀ op, t.kind ≠ .operator op := by
  rintro t ht op hkind
  unfold primary at h
  extract_lets h₁ at h
  split at h
  · cases h
  · next hs =>
    rw [hs] at ht
    cases ht
    simp only [hkind] at h
    split at h
    · cases h
    · obtain ⟨⟨e, stop, rest, hlt⟩, -, h⟩ := bind_eq_ok h
      cases h
      cases hp

theorem primary_of_parse {p : Parsed Expr ts.length} (h : parse src ctx m ts = .ok p)
    (hp : p.value = f.expr) : primary src ctx (nestedParse src ts.length) ts le_rfl = .ok p := by
  rw [parse] at h
  obtain ⟨p₀, hprimary, h⟩ := bind_eq_ok h
  obtain ⟨p₁, hsuffixes, h⟩ := bind_eq_ok h
  obtain rfl := eq_of_climb h hp
  obtain rfl := eq_of_suffixes hsuffixes (hp ▸ .literal f)
  exact hprimary

/-! ## Right arrows behind function literals -/

/-- Behind an expression of the level `m` stands no binary operator of that level. -/
theorem endsClimb_of_climb {p q : Parsed Expr n} (h : climb ctx m nested p = .ok q) :
    ∀ t ∈ (ctx.skip q.rest).head?, EndsClimb m t.kind := by
  fun_induction climb ctx m nested p with
  | case1 p _ _ _ _ rest hs _ _ _ _ _ _ ih =>
    obtain ⟨⟨e, stop, rest', hlt⟩, -, h⟩ := bind_eq_ok h
    exact ih e stop rest' hlt h
  | case2 p _ op _ _ _ hs level right hop hm =>
    cases h
    rw [hs]
    rintro t ht _ hkind level' right' hop'
    cases ht
    cases hkind
    cases hop.symm.trans hop'
    exact not_le.mp hm
  | case3 p _ op _ _ _ hs hop =>
    cases h
    rw [hs]
    rintro t ht _ hkind level' right' hop'
    cases ht
    cases hkind
    cases hop.symm.trans hop'
  | case4 p _ hno =>
    cases h
    rintro ⟨_, start, stop⟩ ht op rfl
    obtain ⟨rest, hrest⟩ := List.head?_eq_some_iff.mp ht
    exact absurd hrest (hno _ _ _ _)

theorem endsClimb_of_parse {p : Parsed Expr ts.length} (h : parse src ctx m ts = .ok p) :
    ∀ t ∈ (ctx.skip p.rest).head?, EndsClimb m t.kind := by
  rw [parse] at h
  obtain ⟨_, -, h⟩ := bind_eq_ok h
  obtain ⟨_, -, h⟩ := bind_eq_ok h
  exact endsClimb_of_climb h

/-- The body of a function literal takes the operators behind it. -/
theorem endsClimb_of_functionLiteral {start : ℕ} {hts : ts.length < n} {p : Parsed Expr n}
    (h : functionLiteral src ctx (nestedParse src n) start ts hts = .ok p) :
    (∃ f : FunctionLiteral, p.value = f.expr) ∧
      ∀ t ∈ (ctx.skip p.rest).head?, EndsClimb 3 t.kind := by
  unfold functionLiteral at h
  obtain ⟨_, -, h⟩ := bind_eq_ok h
  obtain ⟨_, -, h⟩ := bind_eq_ok h
  obtain ⟨⟨_, _, read, hread⟩, -, h⟩ := bind_eq_ok h
  obtain ⟨body, hbody, h⟩ := bind_eq_ok h
  cases h
  exact ⟨⟨⟨_, _, _, _⟩, rfl⟩, endsClimb_of_parse hbody⟩

theorem not_literalOrBinary_qualify {p : Parsed Expr n} (h : ¬ LiteralOrBinary p.value) :
    ¬ LiteralOrBinary (qualify ctx p).value := by
  unfold qualify
  extract_lets
  split
  · split <;> rintro ⟨⟩
  · exact h

theorem functionLiteral_of_wordExpr {name : String} {start stop : ℕ} {hts : ts.length < n}
    {p : Parsed Expr n} (h : wordExpr src ctx nested name start stop ts hts = .ok p)
    (hp : LiteralOrBinary p.value) :
    ∃ ts' hts', functionLiteral src ctx nested start ts' hts' = .ok p := by
  unfold wordExpr at h
  extract_lets next hn at h
  split_ifs at h
  · exact ⟨_, _, h⟩
  · unfold conditional at h
    obtain ⟨_, -, h⟩ := bind_eq_ok h
    obtain ⟨⟨_, _, rest, _⟩, -, h⟩ := bind_eq_ok h
    dsimp only at h
    split at h
    · cases h
      cases hp
    · obtain ⟨_, -, h⟩ := bind_eq_ok h
      cases h
      cases hp
  · unfold forLoop at h
    obtain ⟨_, -, h⟩ := bind_eq_ok h
    obtain ⟨_, -, h⟩ := bind_eq_ok h
    obtain ⟨_, -, h⟩ := bind_eq_ok h
    obtain ⟨_, -, h⟩ := bind_eq_ok h
    obtain ⟨_, -, h⟩ := bind_eq_ok h
    obtain ⟨_, -, h⟩ := bind_eq_ok h
    obtain ⟨_, -, h⟩ := bind_eq_ok h
    cases h
    cases hp
  · unfold whileLoop at h
    obtain ⟨_, -, h⟩ := bind_eq_ok h
    obtain ⟨_, -, h⟩ := bind_eq_ok h
    cases h
    cases hp
  · unfold repeatLoop at h
    obtain ⟨_, -, h⟩ := bind_eq_ok h
    cases h
    cases hp
  · cases h
    cases hp
  · cases h
    exact absurd hp (not_literalOrBinary_qualify (by rintro ⟨⟩))
  · cases h
    exact absurd hp (not_literalOrBinary_qualify (by rintro ⟨⟩))

theorem functionLiteral_of_primary {hts : ts.length ≤ n} {p : Parsed Expr n}
    (h : primary src ctx nested ts hts = .ok p) (hp : LiteralOrBinary p.value) :
    ∃ start ts' hts', functionLiteral src ctx nested start ts' hts' = .ok p := by
  unfold primary at h
  extract_lets h₁ at h
  split at h
  · cases h
  · next t rest hs =>
    obtain ⟨kind, start, stop⟩ := t
    dsimp only at h
    split at h
    · cases h
      unfold numberSuffix at hp
      extract_lets at hp
      split at hp
      · split_ifs at hp <;> cases hp
      · cases hp
    · cases h
      exact absurd hp (not_literalOrBinary_qualify (by rintro ⟨⟩))
    · cases h
      exact absurd hp (not_literalOrBinary_qualify (by rintro ⟨⟩))
    · cases h
      exact absurd hp (not_literalOrBinary_qualify (by rintro ⟨⟩))
    · exact ⟨start, functionLiteral_of_wordExpr h hp⟩
    · exact ⟨_, _, _, h⟩
    · obtain ⟨_, -, h⟩ := bind_eq_ok h
      cases h
      cases hp
    · obtain ⟨_, -, h⟩ := bind_eq_ok h
      obtain ⟨_, -, h⟩ := bind_eq_ok h
      cases h
      cases hp
    · split at h
      · cases h
      · obtain ⟨_, -, h⟩ := bind_eq_ok h
        cases h
        cases hp
    · cases h

/-- The left side of an operator is what stands in front of it. -/
theorem cases_of_climb {p q : Parsed Expr n} (h : climb ctx m nested p = .ok q)
    (hq : q.value = .binary op f.expr e) :
    p = q ∨ p.value = f.expr ∧ ∃ t ∈ (ctx.skip p.rest).head?, t.kind = .operator op := by
  fun_induction climb ctx m nested p with
  | case1 p _ _ _ _ rest hs _ _ _ _ _ _ ih =>
    obtain ⟨⟨d, stop, rest', hlt⟩, -, h⟩ := bind_eq_ok h
    rcases ih d stop rest' hlt h with rfl | ⟨hvalue, -⟩
    · obtain ⟨rfl, hvalue, -⟩ := Expr.binary.inj hq
      exact Or.inr ⟨hvalue, _, congrArg List.head? hs, rfl⟩
    · cases hvalue
  | case2 | case3 | case4 => exact Or.inl (Except.ok.inj h)

/-- A right arrow behind a function literal belongs to the body of the literal, so no literal stands
in front of one without brackets. -/
theorem ne_assignment_of_parse {p : Parsed Expr ts.length} (h : parse src ctx m ts = .ok p)
    (hop : op.BindsWith .right) : p.value ≠ .binary op f.expr e := by
  intro hp
  rw [parse] at h
  obtain ⟨p₀, hprimary, h⟩ := bind_eq_ok h
  obtain ⟨p₁, hsuffixes, h⟩ := bind_eq_ok h
  rcases cases_of_climb h hp with rfl | ⟨hvalue, t, ht, hkind⟩
  · have hbinary : LiteralOrBinary p₁.value := hp ▸ .binary op f.expr e
    obtain rfl := eq_of_suffixes hsuffixes hbinary
    obtain ⟨_, _, _, hliteral⟩ := functionLiteral_of_primary hprimary hbinary
    obtain ⟨⟨f', hf'⟩, -⟩ := endsClimb_of_functionLiteral hliteral
    cases hp.symm.trans hf'
  · have hfunction : LiteralOrBinary p₁.value := hvalue ▸ .literal f
    obtain rfl := eq_of_suffixes hsuffixes hfunction
    obtain ⟨_, _, _, hliteral⟩ := functionLiteral_of_primary hprimary hfunction
    obtain ⟨level, right, hbinary⟩ := exists_binary?_of_bindsWith hop
    have hlt := (endsClimb_of_functionLiteral hliteral).2 t ht op hkind level right hbinary
    cases hop <;> cases hbinary <;> omega

end

end Expr.Parser

end CallAtlas
