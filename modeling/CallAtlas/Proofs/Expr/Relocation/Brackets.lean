import CallAtlas.Proofs.Expr.Relocation

/-!
# Brackets in another place

What is read inside brackets is the same in another place (`Relocation`), if the expressions inside
are (`Nested.Moves`). This is shown of brackets, curly brackets, arguments and parameters, and so of
function literals (`functionLiteral_moves`), whose text is the same too. For arguments and
parameters, an equation says how each token that may come next goes on (`arguments_of_comma`,
`parameters_of_next`, ...).
-/

namespace CallAtlas.Expr.Parser

open Token (dropNewlines)

section

variable {r : Relocation} {ctx ctx' inner inner' : Context} {t : Token} {ts ts' rest : List Token}
  {stop : ℕ}

/-- The token that is expected comes in the other place. -/
theorem expect_moves {kind : Token.Kind} {hlt : rest.length < ts.length}
    (h : expect r.source kind ts = .ok ⟨(), stop, rest, hlt⟩) (hts' : r.Carries ts ts') :
    ∃ hlt, expect r.target kind ts' = .ok ⟨(), stop + r.offset, r.tokens rest, hlt⟩ := by
  cases ts with
  | nil => cases h
  | cons t rest =>
    obtain rfl := hts' (List.cons_ne_nil t rest)
    simp only [expect] at h
    split_ifs at h with ht
    · cases h
      exact ⟨_, if_pos ht⟩
    · cases h

theorem word_moves {name : String} {hlt : rest.length < ts.length}
    (h : word r.source ts = .ok ⟨name, stop, rest, hlt⟩) (hts' : r.Carries ts ts') :
    ∃ hlt, word r.target ts' = .ok ⟨name, stop + r.offset, r.tokens rest, hlt⟩ := by
  unfold word at h
  split at h
  · cases h
    obtain rfl := hts' (List.cons_ne_nil _ _)
    exact ⟨_, rfl⟩
  · cases h
    obtain rfl := hts' (List.cons_ne_nil _ _)
    exact ⟨_, rfl⟩
  · cases h

/-- What nested expressions are in one place, they are in the other. -/
structure Nested.Moves (r : Relocation) {n n' : ℕ} (nested : Nested n) (nested' : Nested n') :
    Prop where
  ends : nested.Ends
  starts : ∀ ⦃ctx m ts h p⦄, nested ctx m ts h = .ok p → ∃ t rest, ctx.skip ts = t :: rest
  moves : ∀ ⦃ctx ctx' m ts ts' h e stop rest hlt⦄, nested ctx m ts h = .ok ⟨e, stop, rest, hlt⟩ →
    r.Carries ts ts' → Joins ctx ctx' rest → r.Fits ts →
    ctx'.depth + e.bracketDepth ≤ maxDepth →
    ∀ h', ∃ hlt, nested' ctx' m ts' h' = .ok ⟨e, stop + r.offset, r.tokens rest, hlt⟩

variable {n n' : ℕ} {nested : Nested n} {nested' : Nested n'} {e : Expr}

/-! ## Brackets -/

/-- An expression in brackets is the same in the other place, if the brackets can be opened there.
-/
theorem bracketed_moves (hnested : Nested.Moves r nested nested') {hts : ts.length ≤ n}
    {hlt : rest.length < ts.length}
    (h : bracketed r.source ctx nested ts hts = .ok ⟨e, stop, rest, hlt⟩)
    (hcarries : r.Carries ts ts') (hfits : r.Fits ts)
    (hdepth : ctx'.depth + (1 + e.bracketDepth) ≤ maxDepth) (hts' : ts'.length ≤ n') :
    ∃ hlt, bracketed r.target ctx' nested' ts' hts' =
      .ok ⟨e, stop + r.offset, r.tokens rest, hlt⟩ := by
  unfold bracketed at h
  obtain ⟨inner, hinner, h⟩ := bind_eq_ok h
  obtain ⟨⟨_, _, opened, _⟩, hopened, h⟩ := bind_eq_ok h
  obtain ⟨⟨e, _, read, _⟩, hread, h⟩ := bind_eq_ok h
  obtain ⟨⟨_, stop, rest, _⟩, hclosed, h⟩ := bind_eq_ok h
  cases h
  obtain rfl := eq_of_enter hinner
  have hinner' : ctx'.depth < maxDepth := by omega
  have hfits := hfits.of_left (expect_endsIn hopened (by simp)).left
  obtain ⟨_, hopened'⟩ := expect_moves hopened hcarries
  obtain ⟨_, hread'⟩ := hnested.moves hread (r.carries_tokens opened)
    (joins_inside ctx ctx' .group read) hfits (by dsimp only [Context.inside]; omega) (by omega)
  obtain ⟨_, hclosed'⟩ := expect_moves hclosed (r.carries_skip rfl read)
  exact ⟨_, bind_ok (enter_of_lt _ hinner' _)
    (bind_ok hopened' (bind_ok hread' (bind_ok hclosed' rfl)))⟩

/-- Statements that are read already are among all of them. -/
theorem mem_of_statements {body : List Expr} {hts : ts.length < n} {p : Parsed (List Expr) n}
    (h : statements inner nested body ts hts = .ok p) (he : e ∈ body) : e ∈ p.value := by
  fun_induction statements inner nested body ts hts with
  | case1 =>
    cases h
    exact List.mem_reverse.mpr he
  | case2 _ _ _ _ _ _ ih | case3 _ _ _ _ _ _ ih => exact ih h he
  | case4 _ _ _ _ _ _ _ ih =>
    obtain ⟨⟨e, _, rest, hlt⟩, hread, h⟩ := bind_eq_ok h
    exact ih e rest hlt h (List.mem_cons_of_mem e he)

/-- Statements up to the closing bracket are the same in the other place. -/
theorem statements_moves (hnested : Nested.Moves r nested nested')
    (hscope : inner'.scope = inner.scope) {body es : List Expr} {hts : ts.length < n}
    {hlt : rest.length < n} (h : statements inner nested body ts hts = .ok ⟨es, stop, rest, hlt⟩)
    (hfits : r.Fits ts) (hts' : (r.tokens ts).length < n')
    (hdepth : ∀ e ∈ es, inner'.depth + e.bracketDepth ≤ maxDepth) :
    ∃ hlt, statements inner' nested' body (r.tokens ts) hts' =
      .ok ⟨es, stop + r.offset, r.tokens rest, hlt⟩ := by
  fun_induction statements inner nested body ts hts with
  | case1 =>
    cases h
    exact ⟨_, statements.eq_1 ..⟩
  | case2 _ _ _ rest _ _ ih =>
    obtain ⟨hlt, ih⟩ := ih h (hfits.of_left (Left.cons (by simp) rest)) (Nat.lt_of_succ_lt hts')
    exact ⟨hlt, (statements.eq_2 ..).trans ih⟩
  | case3 _ _ _ rest _ _ ih =>
    obtain ⟨hlt, ih⟩ := ih h (hfits.of_left (Left.cons (by simp) rest)) (Nat.lt_of_succ_lt hts')
    exact ⟨hlt, (statements.eq_3 ..).trans ih⟩
  | case4 body ts _ hcurly hnewline hsemicolon _ ih =>
    obtain ⟨⟨e, _, rest, hlt⟩, hread, h⟩ := bind_eq_ok h
    have he := hdepth e (mem_of_statements h List.mem_cons_self)
    obtain ⟨_, hread'⟩ :=
      hnested.moves hread (r.carries_tokens ts) (.of_scope hscope rest) hfits he hts'
    obtain ⟨hlt', ih⟩ := ih e rest hlt h (hfits.of_left (hnested.ends hread).left) (by omega)
    refine ⟨hlt', ?_⟩
    cases ts with
    | nil => cases hlt
    | cons t ts =>
      obtain ⟨kind, start, stop⟩ := t
      rw [statements.eq_4]
      · exact bind_ok hread' ih
      · rintro _ _ _ _ ht -
        cases ht
        exact hcurly _ _ _ _ rfl HEq.rfl
      · rintro _ _ _ _ ht -
        cases ht
        exact hnewline _ _ _ _ rfl HEq.rfl
      · rintro _ _ _ _ ht -
        cases ht
        exact hsemicolon _ _ _ _ rfl HEq.rfl

/-! ## Arguments -/

/-- The tokens start with the closing of the bracket. -/
inductive Closes (stop : ℕ) (rest : List Token) : Bracket → List Token → Prop
  | single {bracket : Bracket} (hne : bracket ≠ .double) (start : ℕ) :
      Closes stop rest bracket (⟨.closing bracket, start, stop⟩ :: rest)
  | double (start middle : ℕ) : Closes stop rest .double
      (⟨.closing .square, start, middle⟩ :: ⟨.closing .square, middle, stop⟩ :: rest)

/-- The closing of a bracket is found only if the tokens start with it. -/
theorem closes_of_closing? {bracket : Bracket} {p : Parsed Unit ts.length}
    (h : closing? bracket ts = some p) : Closes p.stop p.rest bracket ts := by
  unfold closing? at h
  split at h
  · split_ifs at h with hnext
    cases h
    cases hnext
    exact .double _ _
  · cases h
  · next t _ _ hdouble =>
    split_ifs at h with ht
    cases h
    obtain ⟨kind, start, stop⟩ := t
    cases ht
    exact .single hdouble start
  · cases h

/-- The closing of a bracket is found if the tokens start with it. -/
theorem closing?_of_closes {bracket : Bracket} (h : Closes stop rest bracket ts) :
    ∃ hlt, closing? bracket ts = some ⟨(), stop, rest, hlt⟩ := by
  cases h with
  | single hne start => cases bracket <;> simp_all [closing?]
  | double start middle => exact ⟨by simp only [List.length_cons]; omega, by simp [closing?]⟩

theorem Closes.moves {bracket : Bracket} (h : Closes stop rest bracket ts) :
    Closes (stop + r.offset) (r.tokens rest) bracket (r.tokens ts) := by
  cases h with
  | single hne start => exact .single hne _
  | double start middle => exact .double _ _

/-- A bracket that closes in the other place closes here, since no square bracket stands behind. -/
theorem Closes.of_tokens {bracket : Bracket} (h : Closes stop rest bracket (r.tokens (t :: ts))) :
    ∃ stop rest, Closes stop rest bracket (t :: ts) := by
  generalize htokens : r.tokens (t :: ts) = tokens at h
  obtain ⟨kind, start, stop⟩ := t
  cases h with
  | single hne =>
    cases htokens
    exact ⟨_, _, .single hne start⟩
  | double =>
    cases ts with
    | nil =>
      obtain ⟨-, hbehind⟩ := List.cons.inj htokens
      rcases r.closed.stopped _ (congrArg List.head? hbehind) with hkind | hkind <;> cases hkind
    | cons u ts =>
      obtain ⟨kind', start', stop'⟩ := u
      obtain ⟨ht, htokens⟩ := List.cons.inj htokens
      obtain ⟨hu, -⟩ := List.cons.inj htokens
      cases ht
      simp only [Token.shift, Token.mk.injEq, Nat.add_right_cancel_iff] at hu
      obtain ⟨rfl, rfl, -⟩ := hu
      exact ⟨_, _, .double start start'⟩

theorem closing?_moves {bracket : Bracket} {hlt : rest.length < ts.length}
    (h : closing? bracket ts = some ⟨(), stop, rest, hlt⟩) (hcarries : r.Carries ts ts') :
    ∃ hlt, closing? bracket ts' = some ⟨(), stop + r.offset, r.tokens rest, hlt⟩ := by
  obtain rfl := hcarries (List.ne_nil_of_length_pos (Nat.zero_lt_of_lt hlt))
  exact closing?_of_closes (closes_of_closing? h).moves

/-- A bracket that does not close here does not close in the other place. -/
theorem closing?_eq_none_moves {bracket : Bracket} (h : closing? bracket ts = none)
    (hts : ts ≠ []) (hcarries : r.Carries ts ts') : closing? bracket ts' = none := by
  obtain rfl := hcarries hts
  obtain ⟨t, ts, rfl⟩ := List.exists_cons_of_ne_nil hts
  refine Option.eq_none_iff_forall_ne_some.mpr fun p hp => ?_
  obtain ⟨stop, rest, hcloses⟩ := (closes_of_closing? hp).of_tokens
  obtain ⟨hlt, hsome⟩ := closing?_of_closes hcloses
  cases h.symm.trans hsome

/-- The name of an argument is found in the other place. -/
theorem argumentName?_moves (hscope : inner'.scope = inner.scope) {hlt : rest.length < ts.length}
    (h : argumentName? inner ts = some ⟨(), stop, rest, hlt⟩) :
    ∃ hlt, argumentName? inner' (r.tokens ts) = some ⟨(), stop + r.offset, r.tokens rest, hlt⟩ := by
  refine ⟨r.length_tokens_lt hlt, ?_⟩
  unfold argumentName? at h
  split at h
  · cases h
  · split at h
    · next t ts _ _ _ hs =>
      split_ifs at h with hname
      cases h
      have hs := r.skip_tokens hscope hs
      change argumentName? inner' (t.shift r.offset :: r.tokens ts) = _
      unfold argumentName?
      dsimp only
      split
      · next hs' =>
        cases hs.symm.trans hs'
        exact if_pos hname
      · next hno => exact absurd hs (hno _ _ _)
    · cases h

/-- An argument without a name has none in the other place, since no equals sign stands behind. -/
theorem argumentName?_eq_none_moves (hscope : inner'.scope = inner.scope)
    (h : argumentName? inner (t :: ts) = none) :
    argumentName? inner' (r.tokens (t :: ts)) = none := by
  change argumentName? inner' (t.shift r.offset :: r.tokens ts) = none
  unfold argumentName? at h ⊢
  dsimp only at h ⊢
  rcases Context.skip_cases (r := r) (.of_scope hscope ts) with ⟨u, rest, hs, hs'⟩ | ⟨hs, hs'⟩
  · obtain ⟨kind, start, stop⟩ := u
    split
    · next hs'' =>
      cases hs'.symm.trans hs''
      split at h
      · split_ifs at h with hname
        exact if_neg hname
      · next hno => exact absurd hs (hno _ _ _)
    · rfl
  · split
    · next hs'' =>
      rcases hs' _ (congrArg List.head? hs'') with hkind | hkind <;> cases hkind
    · rfl

/-- The tokens that end an argument. Behind its name they leave it without an expression. -/
def EndsArgument (kind : Token.Kind) : Prop :=
  kind = .comma ∨ ∃ bracket, kind = .closing bracket

/-- An argument without a name is an expression. -/
theorem argument_of_unnamed {hts : ts.length < n} {hlt : rest.length < ts.length}
    (hname : argumentName? inner ts = none)
    (hread : nested inner 0 ts hts = .ok ⟨e, stop, rest, hlt⟩) :
    argument inner nested ts hts = .ok ⟨[e], stop, rest, hlt⟩ := by
  rw [argument, hname]
  exact bind_ok hread rfl

/-- An argument with a name may be without an expression. -/
theorem argument_of_name {hts : ts.length < n} {hlt : rest.length < ts.length} {more : List Token}
    (hname : argumentName? inner ts = some ⟨(), stop, rest, hlt⟩)
    (hs : inner.skip rest = t :: more) (ht : EndsArgument t.kind) :
    argument inner nested ts hts = .ok ⟨[], stop, rest, hlt⟩ := by
  obtain ⟨kind, _, _⟩ := t
  rw [argument, hname]
  dsimp only
  rw [hs]
  rcases ht with hkind | ⟨bracket, hkind⟩
  · cases hkind
    rfl
  · cases hkind
    rfl

/-- An argument with a name and an expression is the expression. -/
theorem argument_of_named {hts : ts.length < n} {named more : List Token} {middle : ℕ}
    {hnamed : named.length < ts.length} {hlt : rest.length < named.length}
    (hname : argumentName? inner ts = some ⟨(), middle, named, hnamed⟩)
    (hs : inner.skip named = t :: more) (ht : ¬EndsArgument t.kind)
    (hread : nested inner 0 named (hnamed.trans hts) = .ok ⟨e, stop, rest, hlt⟩) :
    argument inner nested ts hts = .ok ⟨[e], stop, rest, hlt.trans hnamed⟩ := by
  rw [argument, hname]
  dsimp only
  split
  · next hs' =>
    cases hs.symm.trans hs'
    exact absurd (Or.inl rfl) ht
  · next hs' =>
    cases hs.symm.trans hs'
    exact absurd (Or.inr ⟨_, rfl⟩) ht
  · exact bind_ok hread rfl

/-- An argument is the same in the other place, with its name or without. -/
theorem argument_moves (hnested : Nested.Moves r nested nested')
    (hscope : inner'.scope = inner.scope) {es : List Expr} {hts : ts.length < n}
    {hlt : rest.length < ts.length} (h : argument inner nested ts hts = .ok ⟨es, stop, rest, hlt⟩)
    (hcarries : r.Carries ts ts') (hfits : r.Fits ts)
    (hdepth : ∀ e ∈ es, inner'.depth + e.bracketDepth ≤ maxDepth) (hts' : ts'.length < n') :
    ∃ hlt, argument inner' nested' ts' hts' =
      .ok ⟨es, stop + r.offset, r.tokens rest, hlt⟩ := by
  obtain rfl := hcarries (List.ne_nil_of_length_pos (Nat.zero_lt_of_lt hlt))
  unfold argument at h
  split at h
  · next hname =>
    obtain ⟨⟨e, stop, rest, hlt⟩, hread, h⟩ := bind_eq_ok h
    cases h
    obtain ⟨t, ts, rfl⟩ := List.exists_cons_of_length_pos (Nat.zero_lt_of_lt hlt)
    obtain ⟨hlt', hread'⟩ := hnested.moves hread (r.carries_tokens _) (.of_scope hscope rest)
      hfits (hdepth e List.mem_cons_self) hts'
    exact ⟨hlt', argument_of_unnamed (argumentName?_eq_none_moves hscope hname) hread'⟩
  · next named _ hname =>
    obtain ⟨hnamed', hname'⟩ := argumentName?_moves (r := r) hscope hname
    split at h
    · next hs =>
      cases h
      exact ⟨hnamed', argument_of_name hname' (r.skip_tokens hscope hs) (Or.inl rfl)⟩
    · next hs =>
      cases h
      exact ⟨hnamed', argument_of_name hname' (r.skip_tokens hscope hs) (Or.inr ⟨_, rfl⟩)⟩
    · next hcomma hclosing =>
      obtain ⟨⟨e, stop, rest, hlt⟩, hread, h⟩ := bind_eq_ok h
      cases h
      obtain ⟨⟨kind, _, _⟩, more, hs⟩ := hnested.starts hread
      have hkind : ¬EndsArgument kind := by
        rintro (rfl | ⟨bracket, rfl⟩)
        · exact hcomma _ _ _ hs
        · exact hclosing _ _ _ _ hs
      obtain ⟨hlt', hread'⟩ := hnested.moves hread (r.carries_tokens named) (.of_scope hscope rest)
        (hfits.of_left (argumentName?_endsIn hname).left) (hdepth e List.mem_cons_self) (by omega)
      exact ⟨hlt'.trans hnamed', argument_of_named hname' (r.skip_tokens hscope hs) hkind hread'⟩

/-- Arguments that are read already are among all of them. -/
theorem mem_of_arguments {src : Source} {bracket : Bracket} {args : List Expr}
    {hts : ts.length < n} {p : Parsed (List Expr) n}
    (h : arguments src bracket inner nested args ts hts = .ok p) (he : e ∈ args) :
    e ∈ p.value := by
  fun_induction arguments src bracket inner nested args ts hts with
  | case1 _ _ _ _ _ _ _ hs _ ih => exact ih h he
  | case2 =>
    cases h
    exact he
  | case3 _ ts _ _ _ _ _ ih =>
    obtain ⟨⟨arg, _, read, hlt⟩, hread, h⟩ := bind_eq_ok h
    dsimp only at h
    split at h
    · cases h
      exact List.mem_append_left arg he
    · split at h
      · next hs => exact ih arg read hlt _ _ _ hs h (List.mem_append_left arg he)
      · cases h

theorem ne_comma_moves (hscope : inner'.scope = inner.scope) (hne : inner.skip ts ≠ [])
    (h : ∀ start stop rest, inner.skip ts = ⟨.comma, start, stop⟩ :: rest → False)
    (start stop : ℕ) (rest : List Token) :
    inner'.skip (r.tokens ts) ≠ ⟨.comma, start, stop⟩ :: rest := by
  intro hs'
  obtain ⟨⟨kind, _, _⟩, more, hs⟩ := List.exists_cons_of_ne_nil hne
  cases (r.skip_tokens hscope hs).symm.trans hs'
  exact h _ _ _ hs

/-- A comma that no argument stands in front of is passed over. -/
theorem arguments_of_comma {src : Source} {bracket : Bracket} {args : List Expr} {start : ℕ}
    (hs : inner.skip ts = ⟨.comma, start, stop⟩ :: rest) (hts : ts.length < n) :
    arguments src bracket inner nested args ts hts =
      arguments src bracket inner nested args rest
        ((Context.length_lt_of_skip hs).trans hts) := by
  rw [arguments]
  split
  · next hs' =>
    cases hs.symm.trans hs'
    rfl
  · next hno => exact absurd hs (hno _ _ _)

section

variable {src : Source} {bracket : Bracket} {args arg : List Expr} {read : List Token} {middle : ℕ}
  {hts : ts.length < n} {hstart : (inner.skip ts).length < n}
  {hread : read.length < (inner.skip ts).length}
  (hcomma : ∀ start stop rest, inner.skip ts ≠ ⟨.comma, start, stop⟩ :: rest)

include hcomma

/-- The closing bracket ends the arguments. -/
theorem arguments_of_closing {hlt : rest.length < (inner.skip ts).length}
    (hclosed : closing? bracket (inner.skip ts) = some ⟨(), stop, rest, hlt⟩) :
    arguments src bracket inner nested args ts hts =
      .ok ⟨args, stop, rest, (hlt.trans_le (inner.length_skip_le ts)).trans hts⟩ := by
  rw [arguments]
  split
  · next hs => exact absurd hs (hcomma _ _ _)
  · rw [hclosed]

variable (hopen : closing? bracket (inner.skip ts) = none)
  (h : argument inner nested (inner.skip ts) hstart = .ok ⟨arg, middle, read, hread⟩)

include hopen h

/-- The closing bracket behind an argument ends the arguments with it. -/
theorem arguments_of_last {hlt : rest.length < (inner.skip read).length}
    (hclosed : closing? bracket (inner.skip read) = some ⟨(), stop, rest, hlt⟩) :
    arguments src bracket inner nested args ts hts = .ok ⟨args ++ arg, stop, rest,
      (hlt.trans_le (inner.length_skip_le read)).trans (hread.trans hstart)⟩ := by
  rw [arguments]
  split
  · next hs => exact absurd hs (hcomma _ _ _)
  · rw [hopen]
    refine bind_ok h ?_
    dsimp only
    rw [hclosed]

/-- A comma behind an argument goes on with the next one. -/
theorem arguments_of_next {start : ℕ} (hnext : closing? bracket (inner.skip read) = none)
    (hs : inner.skip read = ⟨.comma, start, stop⟩ :: rest) :
    arguments src bracket inner nested args ts hts =
      arguments src bracket inner nested (args ++ arg) rest
        ((Context.length_lt_of_skip hs).trans (hread.trans hstart)) := by
  rw [arguments]
  split
  · next hs => exact absurd hs (hcomma _ _ _)
  · rw [hopen]
    refine bind_ok h ?_
    dsimp only
    rw [hnext]
    dsimp only
    split
    · next hs' =>
      cases hs.symm.trans hs'
      rfl
    · next hno => exact absurd hs (hno _ _ _)

end

section

variable (hnested : Nested.Moves r nested nested') (hscope : inner'.scope = inner.scope)
  {bracket : Bracket} {args arg : List Expr} {read : List Token} {middle : ℕ}
  {hstart : (inner.skip ts).length < n} {hread : read.length < (inner.skip ts).length}
  (hcomma : ∀ start stop rest, inner.skip ts = ⟨.comma, start, stop⟩ :: rest → False)
  (hopen : closing? bracket (inner.skip ts) = none)
  (h : argument inner nested (inner.skip ts) hstart = .ok ⟨arg, middle, read, hread⟩)
  (hfits : r.Fits ts) (hdepth : ∀ e ∈ arg, inner'.depth + e.bracketDepth ≤ maxDepth)
  (hts' : (r.tokens ts).length < n')

include hnested hscope hcomma hopen h hfits hdepth

/-- The last argument is the last in the other place. -/
theorem arguments_last_moves {hlt : rest.length < (inner.skip read).length}
    (hclosed : closing? bracket (inner.skip read) = some ⟨(), stop, rest, hlt⟩) :
    ∃ hlt, arguments r.target bracket inner' nested' args (r.tokens ts) hts' =
      .ok ⟨args ++ arg, stop + r.offset, r.tokens rest, hlt⟩ := by
  have hne : inner.skip ts ≠ [] := List.ne_nil_of_length_pos (Nat.zero_lt_of_lt hread)
  have hcarries := r.carries_skip hscope ts
  obtain ⟨_, h'⟩ := argument_moves hnested hscope h hcarries (hfits.of_left (inner.left_skip ts))
    hdepth ((inner'.length_skip_le _).trans_lt hts')
  obtain ⟨_, hclosed'⟩ := closing?_moves hclosed (r.carries_skip hscope read)
  exact ⟨_, arguments_of_last (ne_comma_moves hscope hne hcomma)
    (closing?_eq_none_moves hopen hne hcarries) h' hclosed'⟩

/-- An argument that others follow is followed by them in the other place. -/
theorem arguments_next_moves {start : ℕ} (hnext : closing? bracket (inner.skip read) = none)
    (hs : inner.skip read = ⟨.comma, start, stop⟩ :: rest) :
    ∃ hlt, arguments r.target bracket inner' nested' args (r.tokens ts) hts' =
      arguments r.target bracket inner' nested' (args ++ arg) (r.tokens rest) hlt := by
  have hne : inner.skip ts ≠ [] := List.ne_nil_of_length_pos (Nat.zero_lt_of_lt hread)
  have hcarries := r.carries_skip hscope ts
  obtain ⟨_, h'⟩ := argument_moves hnested hscope h hcarries (hfits.of_left (inner.left_skip ts))
    hdepth ((inner'.length_skip_le _).trans_lt hts')
  have hnext' := closing?_eq_none_moves hnext (hs ▸ List.cons_ne_nil _ _)
    (r.carries_skip hscope read)
  exact ⟨_, arguments_of_next (ne_comma_moves hscope hne hcomma)
    (closing?_eq_none_moves hopen hne hcarries) h' hnext' (r.skip_tokens hscope hs)⟩

end

/-- Arguments up to the closing bracket are the same in the other place. -/
theorem arguments_moves (hnested : Nested.Moves r nested nested')
    (hscope : inner'.scope = inner.scope) {bracket : Bracket} {args es : List Expr}
    {hts : ts.length < n} {hlt : rest.length < n}
    (h : arguments r.source bracket inner nested args ts hts = .ok ⟨es, stop, rest, hlt⟩)
    (hfits : r.Fits ts) (hdepth : ∀ e ∈ es, inner'.depth + e.bracketDepth ≤ maxDepth)
    (hts' : (r.tokens ts).length < n') :
    ∃ hlt, arguments r.target bracket inner' nested' args (r.tokens ts) hts' =
      .ok ⟨es, stop + r.offset, r.tokens rest, hlt⟩ := by
  fun_induction arguments r.source bracket inner nested args ts hts with
  | case1 args ts hts _ start _ rest hs hlt ih =>
    obtain ⟨hlt', ih⟩ := ih h (hfits.of_left (Context.tail_left_of_skip hs (by simp)))
      ((r.length_tokens_lt hlt).trans hts')
    exact ⟨hlt', (arguments_of_comma (r.skip_tokens hscope hs) hts').trans ih⟩
  | case2 args ts _ _ _ _ _ hcomma _ hlt hclosed =>
    cases h
    have hne : inner.skip ts ≠ [] := List.ne_nil_of_length_pos (Nat.zero_lt_of_lt hlt)
    obtain ⟨_, hclosed'⟩ := closing?_moves hclosed (r.carries_skip hscope ts)
    exact ⟨_, arguments_of_closing (ne_comma_moves hscope hne hcomma) hclosed'⟩
  | case3 args ts hts _ hcomma hle hopen ih =>
    obtain ⟨⟨arg, _, read, hlt⟩, hread, h⟩ := bind_eq_ok h
    dsimp only at h
    split at h
    · next hclosed =>
      cases h
      exact arguments_last_moves hnested hscope hcomma hopen hread hfits
        (fun e he => hdepth e (List.mem_append_right args he)) hts' hclosed
    · next hnext =>
      split at h
      · next hs =>
        have hmem : ∀ e ∈ arg, e ∈ es :=
          fun e he => mem_of_arguments h (List.mem_append_right args he)
        have hleft := (argument_endsIn hnested.ends hread).left.trans (inner.left_skip ts)
        obtain ⟨hlt', hstep⟩ := arguments_next_moves hnested hscope hcomma hopen hread hfits
          (fun e he => hdepth e (hmem e he)) hts' hnext hs
        obtain ⟨hlt'', ih⟩ := ih arg read hlt _ _ _ hs h
          (hfits.of_left ((Context.tail_left_of_skip hs (by simp)).trans hleft)) hlt'
        exact ⟨hlt'', hstep.trans ih⟩
      · cases h

/-! ## Function literals -/

/-- Nested expressions are read from fewer tokens too. -/
theorem Nested.Moves.restrict (h : Nested.Moves r nested nested') {k k' : ℕ} (hk : k ≤ n)
    (hk' : k' ≤ n') :
    Nested.Moves r (fun ctx m ts (hts : ts.length < k) => nested ctx m ts (hts.trans_le hk))
      (fun ctx m ts (hts : ts.length < k') => nested' ctx m ts (hts.trans_le hk')) where
  ends _ _ _ _ _ hread := h.ends hread
  starts _ _ _ _ _ hread := h.starts hread
  moves _ _ _ _ _ _ _ _ _ _ hread hcarries hjoin hfits hdepth _ :=
    h.moves hread hcarries hjoin hfits hdepth _

theorem default?_of_equals {hts : ts.length < n} {start : ℕ} {named : List Token}
    (hs : inner.skip ts = ⟨.operator .equals, start, stop⟩ :: named) {stop' : ℕ}
    {hnamed : named.length < n} {hlt : rest.length < named.length}
    (hread : nested inner 0 named hnamed = .ok ⟨e, stop', rest, hlt⟩) :
    default? inner nested ts hts = .ok ([e], ⟨rest, hlt.trans hnamed⟩) := by
  unfold default?
  split
  · next hs' =>
    cases hs.symm.trans hs'
    exact bind_ok hread rfl
  · next hno => exact absurd hs (hno _ _ _)

theorem default?_of_ne {hts : ts.length < n}
    (h : ∀ t ∈ (inner.skip ts).head?, t.kind ≠ .operator .equals) :
    default? inner nested ts hts = .ok ([], ⟨ts, hts⟩) := by
  unfold default?
  split
  · next hs => exact absurd rfl (h _ (congrArg List.head? hs))
  · rfl

/-- The default of a parameter is the same in the other place. -/
theorem default?_moves (hnested : Nested.Moves r nested nested')
    (hscope : inner'.scope = inner.scope) {es : List Expr} {hts : ts.length < n}
    {hlt : rest.length < n} (h : default? inner nested ts hts = .ok (es, ⟨rest, hlt⟩))
    (hfits : r.Fits ts) (hdepth : ∀ e ∈ es, inner'.depth + e.bracketDepth ≤ maxDepth)
    (hts' : (r.tokens ts).length < n') :
    ∃ hlt, default? inner' nested' (r.tokens ts) hts' = .ok (es, ⟨r.tokens rest, hlt⟩) := by
  unfold default? at h
  split at h
  · next named hs =>
    obtain ⟨⟨e, _, rest, hlt⟩, hread, h⟩ := bind_eq_ok h
    cases h
    have hnamed := r.length_tokens_lt (Context.length_lt_of_skip hs)
    have hfits := hfits.of_left (Context.tail_left_of_skip hs (by simp))
    obtain ⟨_, hread'⟩ := hnested.moves hread (r.carries_tokens named) (.of_scope hscope rest)
      hfits (hdepth e List.mem_cons_self) (hnamed.trans hts')
    exact ⟨_, default?_of_equals (r.skip_tokens hscope hs) hread'⟩
  · next hno =>
    cases h
    refine ⟨hts', default?_of_ne (Context.forall_head_skip (P := fun kind =>
      kind ≠ .operator .equals) (.of_scope hscope ts) (by simp) (by simp) ?_)⟩
    rintro ⟨kind, _, _⟩ hhead rfl
    obtain ⟨more, hs⟩ := List.head?_eq_some_iff.mp hhead
    exact hno _ _ _ hs

/-- Defaults that are read already are among all of them. -/
theorem mem_of_parameters {src : Source} {names : List String} {defaults : List Expr}
    {hts : ts.length < n} {p : Parsed (List String × List Expr) n}
    (h : parameters src inner nested names defaults ts hts = .ok p) (he : e ∈ defaults) :
    e ∈ p.value.2 := by
  fun_induction parameters src inner nested names defaults ts hts with
  | case1 names defaults ts _ _ ih =>
    obtain ⟨⟨name, _, named, _⟩, hnamed, h⟩ := bind_eq_ok h
    obtain ⟨⟨default, read, hlt⟩, hread, h⟩ := bind_eq_ok h
    dsimp only at h
    split at h
    · cases h
      exact List.mem_append_left default he
    · next hs => exact ih name named default read hlt _ _ _ hs h (List.mem_append_left default he)
    · cases h

section

variable {src : Source} {names : List String} {name : String} {defaults default : List Expr}
  {named read : List Token} {middle start : ℕ} {hts : ts.length < n}
  {hnamed : named.length < (inner.skip ts).length} {hstart : named.length < ts.length}
  {hlt : read.length < ts.length}
  (hname : word src (inner.skip ts) = .ok ⟨name, middle, named, hnamed⟩)
  (hread : default? inner (fun ctx m ts h => nested ctx m ts (h.trans hts)) named hstart =
    .ok (default, ⟨read, hlt⟩))

include hname hread

/-- The closing bracket behind a parameter ends the parameters with it. -/
theorem parameters_of_last (hs : inner.skip read = ⟨.closing .round, start, stop⟩ :: rest) :
    parameters src inner nested names defaults ts hts =
      .ok ⟨(names ++ [name], defaults ++ default), stop, rest,
        (Context.length_lt_of_skip hs).trans (hlt.trans hts)⟩ := by
  rw [parameters]
  refine bind_ok hname (bind_ok hread ?_)
  dsimp only
  split
  · next hs' =>
    cases hs.symm.trans hs'
    rfl
  · next hs' => cases hs.symm.trans hs'
  · next hno _ => exact absurd hs (hno _ _ _)

/-- A comma behind a parameter goes on with the next one. -/
theorem parameters_of_next (hs : inner.skip read = ⟨.comma, start, stop⟩ :: rest) :
    parameters src inner nested names defaults ts hts =
      parameters src inner nested (names ++ [name]) (defaults ++ default) rest
        ((Context.length_lt_of_skip hs).trans (hlt.trans hts)) := by
  rw [parameters]
  refine bind_ok hname (bind_ok hread ?_)
  dsimp only
  split
  · next hs' => cases hs.symm.trans hs'
  · next hs' =>
    cases hs.symm.trans hs'
    rfl
  · next hno => exact absurd hs (hno _ _ _)

end

/-- Parameters up to the closing bracket are the same in the other place, with their defaults. -/
theorem parameters_moves (hnested : Nested.Moves r nested nested')
    (hscope : inner'.scope = inner.scope) {names names' : List String} {defaults es : List Expr}
    {hts : ts.length < n} {hlt : rest.length < n}
    (h : parameters r.source inner nested names defaults ts hts =
      .ok ⟨(names', es), stop, rest, hlt⟩)
    (hfits : r.Fits ts) (hdepth : ∀ e ∈ es, inner'.depth + e.bracketDepth ≤ maxDepth)
    (hts' : (r.tokens ts).length < n') :
    ∃ hlt, parameters r.target inner' nested' names defaults (r.tokens ts) hts' =
      .ok ⟨(names', es), stop + r.offset, r.tokens rest, hlt⟩ := by
  fun_induction parameters r.source inner nested names defaults ts hts with
  | case1 names defaults ts hts _ ih =>
    obtain ⟨⟨name, _, named, hnamed⟩, hname, h⟩ := bind_eq_ok h
    obtain ⟨⟨default, read, hlt⟩, hread, h⟩ := bind_eq_ok h
    have hrestrict := hnested.restrict hts.le hts'.le
    have hleft := (word_endsIn hname).left.trans (inner.left_skip ts)
    have hnamed' := r.length_tokens_lt (hnamed.trans_le (inner.length_skip_le ts))
    obtain ⟨_, hname'⟩ := word_moves hname (r.carries_skip hscope ts)
    have hmoves := default?_moves hrestrict hscope hread (hfits.of_left hleft)
    dsimp only at h
    split at h
    · next hs =>
      cases h
      obtain ⟨_, hread'⟩ :=
        hmoves (fun e he => hdepth e (List.mem_append_right defaults he)) hnamed'
      exact ⟨_, parameters_of_last hname' hread' (r.skip_tokens hscope hs)⟩
    · next hs =>
      have hmem : ∀ e ∈ default, e ∈ es :=
        fun e he => mem_of_parameters h (List.mem_append_right defaults he)
      obtain ⟨_, hread'⟩ := hmoves (fun e he => hdepth e (hmem e he)) hnamed'
      have hrest := r.length_tokens_lt ((Context.length_lt_of_skip hs).trans hlt)
      have hleft' := (left_of_default? hrestrict.ends hread).trans hleft
      obtain ⟨hlt', ih⟩ := ih name named default read hlt _ _ _ hs h
        (hfits.of_left ((Context.tail_left_of_skip hs (by simp)).trans hleft'))
        (hrest.trans hts')
      exact ⟨hlt', (parameters_of_next hname' hread' (r.skip_tokens hscope hs)).trans ih⟩
    · cases h

/-- A parameter list is the same in the other place. Parameters start with a name, so the bracket
does not close there at once if it does not here. -/
theorem parameterList_moves (hnested : Nested.Moves r nested nested')
    (hscope : inner'.scope = inner.scope) {names : List String} {es : List Expr}
    {hts : ts.length < n} {hlt : rest.length < n}
    (h : parameterList r.source inner nested ts hts = .ok ⟨(names, es), stop, rest, hlt⟩)
    (hfits : r.Fits ts) (hdepth : ∀ e ∈ es, inner'.depth + e.bracketDepth ≤ maxDepth)
    (hts' : (r.tokens ts).length < n') :
    ∃ hlt, parameterList r.target inner' nested' (r.tokens ts) hts' =
      .ok ⟨(names, es), stop + r.offset, r.tokens rest, hlt⟩ := by
  unfold parameterList at h
  split at h
  · next hs =>
    cases h
    have hs' := r.skip_tokens hscope hs
    refine ⟨(r.length_tokens_lt (Context.length_lt_of_skip hs)).trans hts', ?_⟩
    unfold parameterList
    split
    · next hs'' =>
      cases hs'.symm.trans hs''
      rfl
    · next hno => exact absurd hs' (hno _ _ _)
  · next hno =>
    obtain ⟨hlt', h'⟩ := parameters_moves hnested hscope h hfits hdepth hts'
    refine ⟨hlt', ?_⟩
    unfold parameterList
    split
    · next hs'' =>
      rw [parameters] at h
      obtain ⟨⟨_, _, named, hlt⟩, -, -⟩ := bind_eq_ok h
      have hne : inner.skip ts ≠ [] := List.ne_nil_of_length_pos (Nat.zero_lt_of_lt hlt)
      obtain ⟨⟨kind, _, _⟩, more, hs⟩ := List.exists_cons_of_ne_nil hne
      cases (r.skip_tokens hscope hs).symm.trans hs''
      exact absurd hs (hno _ _ _)
    · exact h'

/-- A function literal is the same in the other place. So are the texts of its header and of the
whole, since both texts agree on the characters of its tokens. -/
theorem functionLiteral_moves (hnested : Nested.Moves r nested nested') {start : ℕ}
    {hts : ts.length < n} {hlt : rest.length < n}
    (h : functionLiteral r.source ctx nested start ts hts = .ok ⟨e, stop, rest, hlt⟩)
    (hcarries : r.Carries ts ts') (hjoin : Joins ctx ctx' rest) (hfits : r.Fits ts)
    (hdepth : ctx'.depth + e.bracketDepth ≤ maxDepth) (hts' : ts'.length < n') :
    ∃ hlt, functionLiteral r.target ctx' nested' (start + r.offset) ts' hts' =
      .ok ⟨e, stop + r.offset, r.tokens rest, hlt⟩ := by
  unfold functionLiteral at h
  obtain ⟨inner, hinner, h⟩ := bind_eq_ok h
  obtain ⟨⟨_, _, opened, _⟩, hopened, h⟩ := bind_eq_ok h
  obtain ⟨⟨⟨names, defaults⟩, headerStop, read, _⟩, hread, h⟩ := bind_eq_ok h
  obtain ⟨⟨body, stop, rest, _⟩, hbody, h⟩ := bind_eq_ok h
  cases h
  obtain rfl := eq_of_enter hinner
  simp only [bracketDepth] at hdepth
  have hscope : (ctx'.inside .group).scope = (ctx.inside .group).scope := rfl
  have hfitsOpened : r.Fits opened := hfits.of_left (expect_endsIn hopened (by simp)).left
  have hheader := parameterList_endsIn hnested.ends hread
  have hwhole := (hnested.ends hbody).mono (left_dropNewlines read)
  have hfitsRead : r.Fits read := hfitsOpened.of_left hheader.left
  obtain ⟨_, hopened'⟩ := expect_moves hopened hcarries
  obtain ⟨_, hread'⟩ := parameterList_moves hnested hscope hread hfitsOpened
    (forall_bracketDepth_le (by omega)) (by omega)
  obtain ⟨_, hbody'⟩ := hnested.moves hbody (r.carries_dropNewlines read) hjoin
    (hfitsRead.of_left (left_dropNewlines read)) (by omega)
    ((Token.length_dropNewlines_le _).trans_lt (by omega))
  have hdrop := Token.length_dropNewlines_le (r.tokens read)
  refine ⟨by omega, bind_ok (enter_of_lt _ (by omega) _)
    (bind_ok hopened' (bind_ok hread' (bind_ok hbody' ?_)))⟩
  cases ts with
  | nil => cases hopened
  | cons t ts =>
    obtain rfl := hcarries (List.cons_ne_nil t ts)
    have hheader : Text.slice r.target.chars (t.start + r.offset) (headerStop + r.offset) =
        Text.slice r.source.chars t.start headerStop := hfitsOpened.slice_of_endsIn hheader t.start
    have hwhole : Text.slice r.target.chars (start + r.offset) (stop + r.offset) =
        Text.slice r.source.chars start stop := hfitsRead.slice_of_endsIn hwhole start
    simp only [Relocation.tokens_cons, Token.shift, List.head?_cons, Option.map_some,
      Option.getD_some, hheader, hwhole]
    rfl

end

end CallAtlas.Expr.Parser
