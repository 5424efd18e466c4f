import CallAtlas.Proofs.Expr.Relocation.Brackets

/-!
# Expressions in another place

An expression that is read from some tokens is read from them in another place as well
(`parse_moves`), and what is left over is the same. Each part of the grammar has a lemma of its own,
which assumes this of nested expressions.

What follows an expression goes on with it only if it is one of a few tokens (`EndsSuffixes`,
`EndsClimb`). Newlines and closing brackets are none of them. How the expression goes on otherwise
is stated by an equation for each of these tokens (`suffixes_of_opening`, `suffixes_of_member`,
`climb_of_binary?`), which is used in the other place.
-/

namespace CallAtlas.Expr.Parser

open Token (dropNewlines)

section

variable {r : Relocation} {ctx ctx' inner inner' : Context} {t : Token} {ts ts' rest : List Token}
  {stop : ℕ} {n n' : ℕ} {nested : Nested n} {nested' : Nested n'} {e : Expr}

/-! ## Control flow -/

/-- An `else` is looked for as if in a bracket, except at the top level. -/
theorem Joins.else (h : Joins ctx ctx' ts) :
    Joins (if ctx.scope = .top then ctx else ⟨.group, ctx.depth⟩)
      (if ctx'.scope = .top then ctx' else ⟨.group, ctx'.depth⟩) ts := by
  rcases h.into with hscope | ⟨htop, hgroup⟩
  · refine .of_scope ?_ ts
    rw [hscope]
    split_ifs
    · exact hscope
    · rfl
  · rw [if_pos htop, if_neg (by simp [hgroup])]
    exact ⟨Or.inr ⟨htop, rfl⟩, h.calm.imp_left fun hscope => by simp [hscope, htop] at hgroup⟩

theorem else?_moves (hjoin : Joins ctx ctx' ts) {hlt : rest.length < ts.length}
    (h : else? ctx ts = some ⟨rest, hlt⟩) :
    ∃ hlt, else? ctx' (r.tokens ts) = some ⟨r.tokens rest, hlt⟩ := by
  refine ⟨r.length_tokens_lt hlt, ?_⟩
  unfold else? at h ⊢
  extract_lets inside at h
  extract_lets inside'
  split at h
  · next hs =>
    cases h
    rcases Context.skip_cases (r := r) hjoin.else with ⟨u, more, hu, hs'⟩ | ⟨hnil, -⟩
    · cases hs.symm.trans hu
      split
      · next hs'' =>
        cases hs'.symm.trans hs''
        rfl
      · next hno => exact absurd hs' (hno _ _ _)
    · cases hs.symm.trans hnil
  · cases h

theorem else?_eq_none_moves (hjoin : Joins ctx ctx' ts) (h : else? ctx ts = none) :
    else? ctx' (r.tokens ts) = none := by
  unfold else? at h ⊢
  extract_lets inside at h
  extract_lets inside'
  split
  · next hs'' =>
    rcases Context.skip_cases (r := r) hjoin.else with ⟨⟨kind, _, _⟩, more, hs, hs'⟩ | ⟨-, hs'⟩
    · cases hs'.symm.trans hs''
      split at h
      · cases h
      · next hno => exact absurd hs (hno _ _ _)
    · rcases hs' _ (congrArg List.head? hs'') with hkind | hkind <;> cases hkind
  · rfl

/-- At the top level an `else` stands directly behind the expression before it. -/
theorem calm_of_else? {p : { rest : List Token // rest.length < ts.length }}
    (h : else? ctx ts = some p) (htop : ctx.scope = .top) : Calm ts := by
  unfold else? at h
  extract_lets inside at h
  split at h
  · next hs =>
    rw [Context.skip_of_ne (by simp [inside, htop])] at hs
    rw [hs]
    rintro t ht
    cases ht
    refine ⟨by simp, fun name hname => ?_⟩
    cases hname
    decide
  · cases h

/-- A conditional is the same in the other place, with an `else` or without. -/
theorem conditional_moves (hnested : Nested.Moves r nested nested') {hts : ts.length < n}
    {hlt : rest.length < n} (h : conditional r.source ctx nested ts hts = .ok ⟨e, stop, rest, hlt⟩)
    (hcarries : r.Carries ts ts') (hjoin : Joins ctx ctx' rest) (hfits : r.Fits ts)
    (hdepth : ctx'.depth + e.bracketDepth ≤ maxDepth) (hts' : ts'.length < n') :
    ∃ hlt, conditional r.target ctx' nested' ts' hts' =
      .ok ⟨e, stop + r.offset, r.tokens rest, hlt⟩ := by
  unfold conditional at h
  obtain ⟨⟨condition, _, read, _⟩, hread, h⟩ := bind_eq_ok h
  obtain ⟨⟨yes, stop, rest, _⟩, hyes, h⟩ := bind_eq_ok h
  have hfitsRead : r.Fits read := hfits.of_left (bracketed_endsIn hnested.ends hread).left
  have hfitsRest : r.Fits rest :=
    hfitsRead.of_left ((hnested.ends hyes).left.trans (left_dropNewlines read))
  have hdrop := Token.length_dropNewlines_le (r.tokens read)
  dsimp only at h
  split at h
  · next helse =>
    cases h
    simp only [bracketDepth] at hdepth
    have hcondition : ctx'.depth + (1 + condition.bracketDepth) ≤ maxDepth := by omega
    obtain ⟨_, hread'⟩ := bracketed_moves hnested hread hcarries hfits hcondition hts'.le
    obtain ⟨_, hyes'⟩ := hnested.moves hyes (r.carries_dropNewlines read) hjoin
      (hfitsRead.of_left (left_dropNewlines read)) (by omega) (by omega)
    refine ⟨by omega, bind_ok hread' (bind_ok hyes' ?_)⟩
    dsimp only
    rw [else?_eq_none_moves hjoin helse]
    rfl
  · next behind _ helse =>
    obtain ⟨⟨no, stop, rest, _⟩, hno, h⟩ := bind_eq_ok h
    cases h
    simp only [bracketDepth] at hdepth
    have hjoin' := hjoin.mono fun htop _ => calm_of_else? helse htop
    have hfitsElse := hfitsRest.of_left (left_of_else? helse)
    have hdrop' := Token.length_dropNewlines_le (r.tokens behind)
    have hcondition : ctx'.depth + (1 + condition.bracketDepth) ≤ maxDepth := by omega
    obtain ⟨_, hread'⟩ := bracketed_moves hnested hread hcarries hfits hcondition hts'.le
    obtain ⟨_, hyes'⟩ := hnested.moves hyes (r.carries_dropNewlines read) hjoin'
      (hfitsRead.of_left (left_dropNewlines read)) (by omega) (by omega)
    obtain ⟨_, helse'⟩ := else?_moves (r := r) hjoin' helse
    obtain ⟨_, hno'⟩ := hnested.moves hno (r.carries_dropNewlines behind) hjoin
      (hfitsElse.of_left (left_dropNewlines behind)) (by omega) (by omega)
    refine ⟨by dsimp only; omega, bind_ok hread' (bind_ok hyes' ?_)⟩
    dsimp only
    rw [helse']
    exact bind_ok hno' rfl

/-- A loop over a sequence is the same in the other place. -/
theorem forLoop_moves (hnested : Nested.Moves r nested nested') {hts : ts.length < n}
    {hlt : rest.length < n} (h : forLoop r.source ctx nested ts hts = .ok ⟨e, stop, rest, hlt⟩)
    (hcarries : r.Carries ts ts') (hjoin : Joins ctx ctx' rest) (hfits : r.Fits ts)
    (hdepth : ctx'.depth + e.bracketDepth ≤ maxDepth) (hts' : ts'.length < n') :
    ∃ hlt, forLoop r.target ctx' nested' ts' hts' =
      .ok ⟨e, stop + r.offset, r.tokens rest, hlt⟩ := by
  unfold forLoop at h
  obtain ⟨inner, hinner, h⟩ := bind_eq_ok h
  obtain ⟨⟨_, _, opened, _⟩, hopened, h⟩ := bind_eq_ok h
  obtain ⟨⟨name, _, named, _⟩, hnamed, h⟩ := bind_eq_ok h
  obtain ⟨⟨_, _, started, _⟩, hstarted, h⟩ := bind_eq_ok h
  obtain ⟨⟨sequence, _, read, _⟩, hread, h⟩ := bind_eq_ok h
  obtain ⟨⟨_, _, closed, _⟩, hclosed, h⟩ := bind_eq_ok h
  obtain ⟨⟨body, stop, rest, _⟩, hbody, h⟩ := bind_eq_ok h
  cases h
  obtain rfl := eq_of_enter hinner
  simp only [bracketDepth] at hdepth
  have hscope : (ctx'.inside .group).scope = (ctx.inside .group).scope := rfl
  have hopenedLeft := (expect_endsIn hopened (by simp)).left
  have hnamedLeft := (word_endsIn hnamed).left.trans ((Context.left_skip _ _).trans hopenedLeft)
  have hstartedLeft := (expect_endsIn hstarted (by simp)).left.trans
    ((Context.left_skip _ _).trans hnamedLeft)
  have hreadLeft := (hnested.ends hread).left.trans hstartedLeft
  have hclosedLeft := (expect_endsIn hclosed (by simp)).left.trans
    ((Context.left_skip _ _).trans hreadLeft)
  obtain ⟨_, hopened'⟩ := expect_moves hopened hcarries
  obtain ⟨_, hnamed'⟩ := word_moves hnamed (r.carries_skip hscope opened)
  obtain ⟨_, hstarted'⟩ := expect_moves hstarted (r.carries_skip hscope named)
  have hlt₁ := (ctx'.inside .group).length_skip_le (r.tokens opened)
  have hlt₂ := (ctx'.inside .group).length_skip_le (r.tokens named)
  have hlt₃ := (ctx'.inside .group).length_skip_le (r.tokens read)
  have hlt₄ := Token.length_dropNewlines_le (r.tokens closed)
  obtain ⟨_, hread'⟩ := hnested.moves hread (r.carries_tokens started)
    (joins_inside ctx ctx' .group read) (hfits.of_left hstartedLeft)
    (by dsimp only [Context.inside]; omega) (by omega)
  obtain ⟨_, hclosed'⟩ := expect_moves hclosed (r.carries_skip hscope read)
  obtain ⟨_, hbody'⟩ := hnested.moves hbody (r.carries_dropNewlines closed) hjoin
    (hfits.of_left ((left_dropNewlines closed).trans hclosedLeft)) (by omega) (by omega)
  exact ⟨by omega, bind_ok (enter_of_lt _ (by omega) _) (bind_ok hopened' (bind_ok hnamed'
    (bind_ok hstarted' (bind_ok hread' (bind_ok hclosed' (bind_ok hbody' rfl))))))⟩

theorem whileLoop_moves (hnested : Nested.Moves r nested nested') {hts : ts.length < n}
    {hlt : rest.length < n} (h : whileLoop r.source ctx nested ts hts = .ok ⟨e, stop, rest, hlt⟩)
    (hcarries : r.Carries ts ts') (hjoin : Joins ctx ctx' rest) (hfits : r.Fits ts)
    (hdepth : ctx'.depth + e.bracketDepth ≤ maxDepth) (hts' : ts'.length < n') :
    ∃ hlt, whileLoop r.target ctx' nested' ts' hts' =
      .ok ⟨e, stop + r.offset, r.tokens rest, hlt⟩ := by
  unfold whileLoop at h
  obtain ⟨⟨condition, _, read, _⟩, hread, h⟩ := bind_eq_ok h
  obtain ⟨⟨body, stop, rest, _⟩, hbody, h⟩ := bind_eq_ok h
  cases h
  simp only [bracketDepth] at hdepth
  have hcondition : ctx'.depth + (1 + condition.bracketDepth) ≤ maxDepth := by omega
  have hfitsRead : r.Fits read := hfits.of_left (bracketed_endsIn hnested.ends hread).left
  have hdrop := Token.length_dropNewlines_le (r.tokens read)
  obtain ⟨_, hread'⟩ := bracketed_moves hnested hread hcarries hfits hcondition hts'.le
  obtain ⟨_, hbody'⟩ := hnested.moves hbody (r.carries_dropNewlines read) hjoin
    (hfitsRead.of_left (left_dropNewlines read)) (by omega) (by omega)
  exact ⟨by omega, bind_ok hread' (bind_ok hbody' rfl)⟩

theorem repeatLoop_moves (hnested : Nested.Moves r nested nested') {hts : ts.length < n}
    {hlt : rest.length < n} (h : repeatLoop ctx nested ts hts = .ok ⟨e, stop, rest, hlt⟩)
    (hcarries : r.Carries ts ts') (hjoin : Joins ctx ctx' rest) (hfits : r.Fits ts)
    (hdepth : ctx'.depth + e.bracketDepth ≤ maxDepth) (hts' : ts'.length < n') :
    ∃ hlt, repeatLoop ctx' nested' ts' hts' = .ok ⟨e, stop + r.offset, r.tokens rest, hlt⟩ := by
  unfold repeatLoop at h
  obtain ⟨⟨body, stop, rest, _⟩, hbody, h⟩ := bind_eq_ok h
  cases h
  simp only [bracketDepth] at hdepth
  obtain ⟨_, hbody'⟩ := hnested.moves hbody hcarries hjoin hfits hdepth hts'
  exact ⟨by omega, bind_ok hbody' rfl⟩

/-! ## Names and numbers -/

theorem isMemberName_of_scope (hscope : ctx'.scope = ctx.scope) (kind : Token.Kind) :
    isMemberName ctx' kind = isMemberName ctx kind := by
  unfold isMemberName
  rw [hscope]

theorem isMemberName_of_calm {kind : Token.Kind}
    (hkind : ∀ name, kind = .word name → Token.isKeyword name = false)
    (h : isMemberName ctx' kind = true) : isMemberName ctx kind = true := by
  cases kind <;> simp_all [isMemberName]

/-- The name behind an operator is found in the other place. -/
theorem memberName?_moves
    (hinto : ctx'.scope = ctx.scope ∨ ctx.scope = .top ∧ ctx'.scope = .group)
    {hlt : rest.length < ts.length} (h : memberName? ctx ts = some ⟨(), stop, rest, hlt⟩) :
    ∃ hlt, memberName? ctx' (r.tokens ts) = some ⟨(), stop + r.offset, r.tokens rest, hlt⟩ := by
  refine ⟨r.length_tokens_lt hlt, ?_⟩
  unfold memberName? at h
  split at h
  · next t rest hs =>
    split_ifs at h with hname
    cases h
    have ht : t.kind ≠ .newline := fun hkind => by simp [hkind, isMemberName] at hname
    have hs' := Context.skip_tokens (r := r) hinto hs (Or.inr ht)
    have hname' : isMemberName ctx' t.kind = true := by
      rcases hinto with hscope | ⟨-, hgroup⟩
      · rwa [isMemberName_of_scope hscope]
      · unfold isMemberName at hname ⊢
        grind
    unfold memberName?
    split
    · next hs'' =>
      cases hs'.symm.trans hs''
      exact if_pos hname'
    · next hnil => cases hs'.symm.trans hnil
  · cases h

/-- An operator without a name behind it has none in the other place. A keyword would be one there,
but no keyword is left over. -/
theorem memberName?_eq_none_moves (hjoin : Joins ctx ctx' ts) (h : memberName? ctx ts = none) :
    memberName? ctx' (r.tokens ts) = none := by
  unfold memberName? at h ⊢
  split
  · next hs'' =>
    refine if_neg fun hname' => ?_
    rcases Context.skip_cases (r := r) hjoin with ⟨t, more, hs, hs'⟩ | ⟨-, hs'⟩
    · cases hs'.symm.trans hs''
      split at h
      · next hu =>
        cases hs.symm.trans hu
        split_ifs at h with hname
        refine hname ?_
        rcases hjoin.into with hscope | ⟨htop, hgroup⟩
        · exact isMemberName_of_scope hscope t.kind ▸ hname'
        · rw [Context.skip_of_ne (by simp [htop])] at hs
          have hcalm := hjoin.calm.resolve_left (by simp [htop, hgroup]) t (by rw [hs]; rfl)
          exact isMemberName_of_calm hcalm.2 hname'
      · next hnil => cases hs.symm.trans hnil
    · rcases hs' _ (congrArg List.head? hs'') with hkind | hkind <;>
        simp [hkind, isMemberName] at hname'
  · rfl

/-- A package operator goes on with the name behind it, or stands alone. -/
theorem qualify_of_package {p : Parsed Expr n} {start : ℕ}
    (hs : ctx.skip p.rest = ⟨.operator .package, start, stop⟩ :: rest) :
    have hlt := (Context.length_lt_of_skip hs).trans p.shorter
    qualify ctx p = (memberName? ctx rest).elim ⟨.qualified, stop, rest, hlt⟩
      fun name => ⟨.qualified, name.stop, name.rest, name.shorter.trans hlt⟩ := by
  intro hlt
  unfold qualify
  dsimp only
  split
  · next hs' =>
    cases hs.symm.trans hs'
    cases memberName? ctx rest with
    | none => rfl
    | some name => rfl
  · next hno => exact absurd hs (hno _ _ _)

theorem qualify_of_ne {p : Parsed Expr n}
    (h : ∀ t ∈ (ctx.skip p.rest).head?, t.kind ≠ .operator .package) : qualify ctx p = p := by
  unfold qualify
  dsimp only
  split
  · next hs => exact absurd rfl (h _ (congrArg List.head? hs))
  · rfl

/-- A name in a package is the same in the other place. -/
theorem qualify_moves {start : ℕ} {d : Expr} {hlt : ts.length < n} {p : Parsed Expr n}
    (h : qualify ctx ⟨d, start, ts, hlt⟩ = p) (hjoin : Joins ctx ctx' p.rest)
    (hts' : (r.tokens ts).length < n') :
    ∃ hlt, qualify ctx' ⟨d, start + r.offset, r.tokens ts, hts'⟩ =
      (⟨p.value, p.stop + r.offset, r.tokens p.rest, hlt⟩ : Parsed Expr n') := by
  unfold qualify at h
  dsimp only at h
  split at h
  · next hs =>
    have hs' := Context.skip_tokens (r := r) hjoin.into hs (Or.inr (by simp))
    have hrest := (r.length_tokens_lt (Context.length_lt_of_skip hs)).trans hts'
    split at h
    · next hname =>
      subst h
      obtain ⟨hlt, hname'⟩ := memberName?_moves (r := r) hjoin.into hname
      refine ⟨hlt.trans hrest, ?_⟩
      rw [qualify_of_package hs', hname']
      rfl
    · next hname =>
      subst h
      refine ⟨hrest, ?_⟩
      rw [qualify_of_package hs', memberName?_eq_none_moves hjoin hname]
      rfl
  · next hno =>
    subst h
    refine ⟨hts', qualify_of_ne (Context.forall_head_skip (P := fun kind =>
      kind ≠ .operator .package) hjoin (by simp) (by simp) ?_)⟩
    rintro ⟨kind, _, _⟩ hhead rfl
    obtain ⟨more, hs⟩ := List.head?_eq_some_iff.mp hhead
    exact hno _ _ _ hs

/-- Nothing but the letters `L` and `i` goes on after a number. -/
def EndsNumber (kind : Token.Kind) : Prop :=
  ∀ letter, kind = .word letter → ¬(letter = "L" ∨ letter = "i")

theorem numberSuffix_of_letter {p : Parsed Expr n} {start : ℕ} {letter : String}
    (hs : ctx.skip p.rest = ⟨.word letter, start, stop⟩ :: rest)
    (hletter : letter = "L" ∨ letter = "i") : numberSuffix ctx p =
      ⟨p.value, stop, rest, (Context.length_lt_of_skip hs).trans p.shorter⟩ := by
  unfold numberSuffix
  dsimp only
  split
  · next hs' =>
    cases hs.symm.trans hs'
    exact if_pos hletter
  · next hno => exact absurd hs (hno _ _ _ _)

theorem numberSuffix_of_ends {p : Parsed Expr n}
    (h : ∀ t ∈ (ctx.skip p.rest).head?, EndsNumber t.kind) : numberSuffix ctx p = p := by
  unfold numberSuffix
  dsimp only
  split
  · next hs => exact if_neg (h _ (congrArg List.head? hs) _ rfl)
  · rfl

/-- A number is the same in the other place, with its letter or without. -/
theorem numberSuffix_moves {start : ℕ} {d : Expr} {hlt : ts.length < n} {p : Parsed Expr n}
    (h : numberSuffix ctx ⟨d, start, ts, hlt⟩ = p) (hjoin : Joins ctx ctx' p.rest)
    (hts' : (r.tokens ts).length < n') :
    ∃ hlt, numberSuffix ctx' ⟨d, start + r.offset, r.tokens ts, hts'⟩ =
      (⟨p.value, p.stop + r.offset, r.tokens p.rest, hlt⟩ : Parsed Expr n') := by
  unfold numberSuffix at h
  dsimp only at h
  split at h
  · next hs =>
    split_ifs at h with hletter
    · subst h
      have hs' := Context.skip_tokens (r := r) hjoin.into hs (Or.inr (by simp))
      exact ⟨_, numberSuffix_of_letter hs' hletter⟩
    · subst h
      refine ⟨hts', numberSuffix_of_ends (Context.forall_head_skip hjoin (by simp [EndsNumber])
        (by simp [EndsNumber]) ?_)⟩
      simpa [hs, EndsNumber] using hletter
  · next hno =>
    subst h
    refine ⟨hts', numberSuffix_of_ends (Context.forall_head_skip hjoin (by simp [EndsNumber])
      (by simp [EndsNumber]) ?_)⟩
    rintro ⟨kind, _, _⟩ hhead letter rfl
    obtain ⟨more, hs⟩ := List.head?_eq_some_iff.mp hhead
    exact (hno _ _ _ _ hs).elim

/-! ## Primary expressions -/

/-- What a word starts is the same in the other place. -/
theorem wordExpr_moves (hnested : Nested.Moves r nested nested') {name : String} {start stop₀ : ℕ}
    {hts : ts.length < n} {hlt : rest.length < n}
    (h : wordExpr r.source ctx nested name start stop₀ ts hts = .ok ⟨e, stop, rest, hlt⟩)
    (hjoin : Joins ctx ctx' rest) (hfits : r.Fits ts)
    (hdepth : ctx'.depth + e.bracketDepth ≤ maxDepth) (hts' : (r.tokens ts).length < n') :
    ∃ hlt, wordExpr r.target ctx' nested' name (start + r.offset) (stop₀ + r.offset) (r.tokens ts)
      hts' = .ok ⟨e, stop + r.offset, r.tokens rest, hlt⟩ := by
  have hcarries := r.carries_dropNewlines ts
  have hfitsNext := hfits.of_left (left_dropNewlines ts)
  have hnext := (Token.length_dropNewlines_le (r.tokens ts)).trans_lt hts'
  unfold wordExpr at h ⊢
  extract_lets next hn at h
  extract_lets next' hn'
  split_ifs at h with hfunction hif hfor hwhile hrepeat hkeyword hdots
  · rw [if_pos hfunction]
    exact functionLiteral_moves hnested h hcarries hjoin hfitsNext hdepth hnext
  · rw [if_neg hfunction, if_pos hif]
    exact conditional_moves hnested h hcarries hjoin hfitsNext hdepth hnext
  · rw [if_neg hfunction, if_neg hif, if_pos hfor]
    exact forLoop_moves hnested h hcarries hjoin hfitsNext hdepth hnext
  · rw [if_neg hfunction, if_neg hif, if_neg hfor, if_pos hwhile]
    exact whileLoop_moves hnested h hcarries hjoin hfitsNext hdepth hnext
  · rw [if_neg hfunction, if_neg hif, if_neg hfor, if_neg hwhile, if_pos hrepeat]
    exact repeatLoop_moves hnested h hcarries hjoin hfitsNext hdepth hnext
  all_goals
    rw [if_neg hfunction, if_neg hif, if_neg hfor, if_neg hwhile, if_neg hrepeat]
  · cases h
    exact ⟨hts', if_pos hkeyword⟩
  all_goals
    obtain ⟨hlt, hname⟩ := qualify_moves (Except.ok.inj h) hjoin hts'
    refine ⟨hlt, ?_⟩
    rw [if_neg hkeyword]
  · rw [if_pos hdots, hname]
  · rw [if_neg hdots, hname]

/-- An expression that starts with the next token is the same in the other place, one case for each
kind of token. -/
theorem primary_moves (hnested : Nested.Moves r nested nested') {hts : ts.length ≤ n}
    {hlt : rest.length < n} (h : primary r.source ctx nested ts hts = .ok ⟨e, stop, rest, hlt⟩)
    (hskip : ctx'.skip ts' = r.tokens (ctx.skip ts)) (hjoin : Joins ctx ctx' rest)
    (hfits : r.Fits ts) (hdepth : ctx'.depth + e.bracketDepth ≤ maxDepth) (hts' : ts'.length ≤ n') :
    ∃ hlt, primary r.target ctx' nested' ts' hts' =
      .ok ⟨e, stop + r.offset, r.tokens rest, hlt⟩ := by
  have hle := ctx'.length_skip_le ts'
  unfold primary at h
  extract_lets h₁ at h
  split at h
  · cases h
  · next t more hs =>
    have hfits := hfits.of_left (Context.left_of_skip hs)
    have hfitsMore := hfits.of_suffix (List.suffix_cons t more)
    rw [hs, r.tokens_cons] at hskip
    unfold primary
    extract_lets h₂
    split
    · next hnil => cases hskip.symm.trans hnil
    · next t' ts₂ hs' =>
      cases hskip.symm.trans hs'
      obtain ⟨kind, start, stop⟩ := t
      have hmore := (Context.length_lt_of_skip hs').trans_le hts'
      dsimp only [Token.shift] at h ⊢
      split at h
      · obtain ⟨hlt, hnumber⟩ := numberSuffix_moves (Except.ok.inj h) hjoin hmore
        exact ⟨hlt, congrArg Except.ok hnumber⟩
      · obtain ⟨hlt, hname⟩ := qualify_moves (Except.ok.inj h) hjoin hmore
        exact ⟨hlt, congrArg Except.ok hname⟩
      · obtain ⟨hlt, hname⟩ := qualify_moves (Except.ok.inj h) hjoin hmore
        exact ⟨hlt, congrArg Except.ok hname⟩
      · obtain ⟨hlt, hname⟩ := qualify_moves (Except.ok.inj h) hjoin hmore
        exact ⟨hlt, congrArg Except.ok hname⟩
      · exact wordExpr_moves hnested h hjoin hfitsMore hdepth hmore
      · exact functionLiteral_moves hnested h (r.carries_dropNewlines more) hjoin
          (hfitsMore.of_left (left_dropNewlines more)) hdepth
          ((Token.length_dropNewlines_le _).trans_lt hmore)
      · obtain ⟨⟨e, stop, rest, _⟩, hread, h⟩ := bind_eq_ok h
        cases h
        simp only [bracketDepth] at hdepth
        obtain ⟨hlt, hread'⟩ := bracketed_moves hnested hread (r.carries_tokens _) hfits hdepth
          ((hs' ▸ hle).trans hts')
        exact ⟨hlt.trans_le ((hs' ▸ hle).trans hts'), bind_ok hread' rfl⟩
      · obtain ⟨inner, hinner, h⟩ := bind_eq_ok h
        obtain ⟨⟨body, stop, rest, _⟩, hread, h⟩ := bind_eq_ok h
        cases h
        obtain rfl := eq_of_enter hinner
        simp only [bracketDepth] at hdepth
        have hscope : (ctx'.inside .block).scope = (ctx.inside .block).scope := rfl
        obtain ⟨hlt, hread'⟩ := statements_moves hnested hscope hread hfitsMore hmore
          (forall_bracketDepth_le hdepth)
        exact ⟨hlt, bind_ok (enter_of_lt _ (by omega) _) (bind_ok hread' rfl)⟩
      · split at h
        · cases h
        · obtain ⟨⟨e, stop, rest, _⟩, hread, h⟩ := bind_eq_ok h
          cases h
          simp only [bracketDepth] at hdepth
          have hlt := (Token.length_dropNewlines_le (r.tokens more)).trans_lt hmore
          obtain ⟨hlt', hread'⟩ := hnested.moves hread (r.carries_dropNewlines more) hjoin
            (hfitsMore.of_left (left_dropNewlines more)) hdepth hlt
          exact ⟨hlt'.trans hlt, bind_ok hread' rfl⟩
      · cases h

/-! ## What follows an expression -/

theorem memberGap_of_ne (ht : t.kind ≠ .newline) (stop : ℕ) (ts : List Token) :
    memberGap ctx stop (t :: ts) = (stop, ⟨t :: ts, Nat.le_refl _⟩) := by
  obtain ⟨kind, start, stop⟩ := t
  cases kind with
  | newline => exact absurd rfl ht
  | _ => rfl

theorem memberName?_of_skip (hs : ctx.skip ts = t :: rest) (ht : isMemberName ctx t.kind = true) :
    ∃ hlt, memberName? ctx ts = some ⟨(), t.stop, rest, hlt⟩ := by
  refine ⟨Context.length_lt_of_skip hs, ?_⟩
  unfold memberName?
  split
  · next hs' =>
    cases hs.symm.trans hs'
    exact if_pos ht
  · next hnil => cases hs.symm.trans hnil

/-- The name on the line behind a member operator is found whether newlines are blanks or not. -/
theorem memberName?_of_newline {start newlineStop stop' : ℕ} {hts : ts.length ≤ _}
    (hgap : memberGap ctx stop (⟨.newline, start, newlineStop⟩ :: t :: rest) = (stop', ⟨ts, hts⟩))
    (ht : isMemberName ⟨.top, 0⟩ t.kind = true) :
    ∃ hlt, memberName? ctx ts = some ⟨(), t.stop, rest, hlt⟩ := by
  have hkind : t.kind ≠ .newline := fun hkind => by simp [hkind, isMemberName] at ht
  have hname : isMemberName ctx t.kind = true := by
    unfold isMemberName at ht ⊢
    grind
  simp only [memberGap] at hgap
  split_ifs at hgap with hgroup
  · cases hgap
    refine memberName?_of_skip ?_ hname
    rw [Context.skip_of_group hgroup]
    simp [dropNewlines, hkind]
  · cases hgap
    exact memberName?_of_skip (Context.skip_of_ne hgroup _) hname

theorem Relocation.Fits.member_cases {start : ℕ}
    (h : r.Fits (⟨.operator .member, start, stop⟩ :: ts)) :
    (∃ t rest, ts = t :: rest ∧ t.kind ≠ .newline) ∨
      ∃ start' stop' t rest, ts = ⟨.newline, start', stop'⟩ :: t :: rest ∧
        isMemberName ⟨.top, 0⟩ t.kind = true := by
  have hfollows : followsMember ts = true := by
    have hmember := h.member
    simp only [membersFollowed, Bool.and_eq_true] at hmember
    simpa using hmember.1
  unfold followsMember at hfollows
  split at hfollows
  · next rest =>
    cases rest with
    | nil => cases hfollows
    | cons t rest => exact Or.inr ⟨_, _, t, rest, rfl, hfollows⟩
  · next hne =>
    cases ts with
    | nil => cases hfollows
    | cons t rest =>
      refine Or.inl ⟨t, rest, rfl, fun hkind => ?_⟩
      obtain ⟨kind, start, stop⟩ := t
      cases hkind
      exact hne _ _ _ rfl

theorem Relocation.memberGap_tokens (r : Relocation) (ht : t.kind ≠ .newline) (stop : ℕ)
    (ts : List Token) :
    memberGap ctx stop (r.tokens (t :: ts)) = (stop, ⟨r.tokens (t :: ts), Nat.le_refl _⟩) :=
  memberGap_of_ne (t := t.shift r.offset) ht stop (r.tokens ts)

theorem calm_of_skip (htop : ctx.scope = .top) (hs : ctx.skip ts = t :: rest)
    (ht : t.kind ≠ .newline ∧ ∀ name, t.kind ≠ .word name) : Calm ts := by
  rw [Context.skip_of_ne (by simp [htop])] at hs
  rw [hs]
  rintro u hu
  cases hu
  exact ⟨ht.1, fun name hname => absurd hname (ht.2 name)⟩

/-- Where suffixes follow at the top level, they start on the line of the expression. -/
theorem calm_of_suffixes {src : Source} {p q : Parsed Expr n}
    (h : suffixes src ctx nested p = .ok q) (htop : ctx.scope = .top) (hq : Calm q.rest) :
    Calm p.rest := by
  rw [suffixes] at h
  split at h
  · cases h
    exact hq
  · next hs => exact calm_of_skip htop hs (by simp)
  · next hs => exact calm_of_skip htop hs (by simp)
  · cases h
    exact hq

theorem calm_of_climb {m : ℕ} {p q : Parsed Expr n} (h : climb ctx m nested p = .ok q)
    (htop : ctx.scope = .top) (hq : Calm q.rest) : Calm p.rest := by
  rw [climb] at h
  split at h
  · next hs => exact calm_of_skip htop hs (by simp)
  · cases h
    exact hq

theorem bracketDepth_call_or_index (bracket : Bracket) (e : Expr) (es : List Expr) :
    (if bracket = .round then call e es else index e es).bracketDepth =
      max e.bracketDepth (1 + bracketDepthAll es) := by
  split_ifs <;> rfl

theorem bracketDepth_le_of_suffixes {src : Source} {p q : Parsed Expr n}
    (h : suffixes src ctx nested p = .ok q) : p.value.bracketDepth ≤ q.value.bracketDepth := by
  fun_induction suffixes src ctx nested p with
  | case1 | case5 =>
    cases h
    exact le_rfl
  | case2 p _ bracket _ _ rest _ hs _ ih =>
    obtain ⟨inner, -, h⟩ := bind_eq_ok h
    obtain ⟨⟨args, stop, rest, hlt⟩, hread, h⟩ := bind_eq_ok h
    refine le_trans ?_ (ih args stop rest hlt h)
    exact (le_max_left _ _).trans (bracketDepth_call_or_index bracket p.value args).ge
  | case3 p _ _ _ _ hs _ _ _ _ hgap _ _ _ _ hname ih => exact ih h
  | case4 p _ _ _ _ hs _ _ _ _ hgap _ ih => exact ih h

theorem bracketDepth_le_of_climb {m : ℕ} {p q : Parsed Expr n}
    (h : climb ctx m nested p = .ok q) : p.value.bracketDepth ≤ q.value.bracketDepth := by
  fun_induction climb ctx m nested p with
  | case1 p _ _ _ _ rest hs _ _ _ _ _ _ ih =>
    obtain ⟨⟨e, stop, rest', hlt⟩, hread, h⟩ := bind_eq_ok h
    exact (le_max_left _ _).trans (ih e stop rest' hlt h)
  | case2 | case3 | case4 =>
    cases h
    exact le_rfl

/-- Nothing but an opening bracket and a member operator goes on after an expression. -/
def EndsSuffixes (kind : Token.Kind) : Prop :=
  kind ≠ .operator .member ∧ ∀ bracket, kind = .opening bracket → bracket = .curly

theorem suffixes_of_ends {src : Source} {p : Parsed Expr n}
    (h : ∀ t ∈ (ctx.skip p.rest).head?, EndsSuffixes t.kind) :
    suffixes src ctx nested p = .ok p := by
  rw [suffixes]
  split
  · rfl
  · next hne hs => exact absurd ((h _ (congrArg List.head? hs)).2 _ rfl) hne
  · next hs => exact absurd rfl (h _ (congrArg List.head? hs)).1
  · rfl

section

variable {src : Source} {p : Parsed Expr n} {start stop' : ℕ} {more : List Token}

/-- Arguments in brackets go on with a call or an index. -/
theorem suffixes_of_opening {bracket : Bracket} {args : List Expr}
    {hlt : rest.length < p.rest.length}
    (hs : ctx.skip p.rest = ⟨.opening bracket, start, stop⟩ :: more) (hcurly : bracket ≠ .curly)
    (hdepth : ctx.depth < maxDepth)
    (hread : arguments src bracket (ctx.inside .group)
      (fun ctx m ts h => nested ctx m ts (h.trans p.shorter)) [] more
      (Context.length_lt_of_skip hs) = .ok ⟨args, stop', rest, hlt⟩) :
    suffixes src ctx nested p = suffixes src ctx nested
      ⟨if bracket = .round then call p.value args else index p.value args, stop', rest,
        hlt.trans p.shorter⟩ := by
  rw [suffixes]
  split
  · next hs' =>
    cases hs.symm.trans hs'
    exact absurd rfl hcurly
  · next hs' =>
    cases hs.symm.trans hs'
    exact bind_ok (enter_of_lt _ hdepth _) (bind_ok hread rfl)
  · next hs' => cases hs.symm.trans hs'
  · next hno _ => exact absurd hs (hno _ _ _ _)

/-- A member operator goes on with the name behind it, or stands alone. -/
theorem suffixes_of_member {behind : List Token} {hle : behind.length ≤ more.length}
    (hs : ctx.skip p.rest = ⟨.operator .member, start, stop⟩ :: more)
    (hgap : memberGap ctx stop more = (stop', ⟨behind, hle⟩)) :
    have hlt := hle.trans_lt ((Context.length_lt_of_skip hs).trans p.shorter)
    suffixes src ctx nested p = (memberName? ctx behind).elim
      (suffixes src ctx nested ⟨member p.value, stop', behind, hlt⟩)
      fun name => suffixes src ctx nested
        ⟨member p.value, name.stop, name.rest, name.shorter.trans hlt⟩ := by
  intro hlt
  rw [suffixes]
  split
  · next hs' => cases hs.symm.trans hs'
  · next hs' => cases hs.symm.trans hs'
  · next hs' =>
    cases hs.symm.trans hs'
    rw [hgap]
    dsimp only
    cases memberName? ctx behind with
    | none => rfl
    | some name => rfl
  · next hno => exact absurd hs (hno _ _ _)

end

section

variable {start stop₁ : ℕ} {rest₁ : List Token} {h₁ : rest₁.length ≤ ts.length}
  (hfits : r.Fits (⟨.operator .member, start, stop⟩ :: ts))
  (hgap : memberGap ctx stop ts = (stop₁, ⟨rest₁, h₁⟩))

include hfits hgap

/-- The name of a member is found in the other place. -/
theorem memberName?_moves_behind
    (hinto : ctx'.scope = ctx.scope ∨ ctx.scope = .top ∧ ctx'.scope = .group) {stop₂ : ℕ}
    {rest₂ : List Token} {h₂ : rest₂.length < rest₁.length}
    (hname : memberName? ctx rest₁ = some ⟨(), stop₂, rest₂, h₂⟩) :
    ∃ stop' behind hle hlt,
      memberGap ctx' (stop + r.offset) (r.tokens ts) = (stop', ⟨behind, hle⟩) ∧
      memberName? ctx' behind = some ⟨(), stop₂ + r.offset, r.tokens rest₂, hlt⟩ := by
  rcases hgap' : memberGap ctx' (stop + r.offset) (r.tokens ts) with ⟨stop', behind, hle⟩
  refine ⟨stop', behind, hle, ?_⟩
  rcases hfits.member_cases with ⟨t, more, rfl, ht⟩ | ⟨_, _, t, more, rfl, ht⟩
  · cases (memberGap_of_ne ht _ more).symm.trans hgap
    cases (r.memberGap_tokens ht _ more).symm.trans hgap'
    obtain ⟨hlt, hname'⟩ := memberName?_moves (r := r) hinto hname
    exact ⟨hlt, rfl, hname'⟩
  · obtain ⟨_, hfound⟩ := memberName?_of_newline hgap ht
    cases hname.symm.trans hfound
    obtain ⟨hlt, hname'⟩ := memberName?_of_newline (t := t.shift r.offset) hgap' ht
    exact ⟨hlt, rfl, hname'⟩

/-- A member without a name has none in the other place either. No newline comes behind it, since
a name would start the next line. -/
theorem memberName?_eq_none_moves_behind (hjoin : Joins ctx ctx' rest₁)
    (hname : memberName? ctx rest₁ = none) :
    ∃ hle, memberGap ctx' (stop + r.offset) (r.tokens ts) =
      (stop₁ + r.offset, ⟨r.tokens rest₁, hle⟩) ∧ memberName? ctx' (r.tokens rest₁) = none := by
  rcases hfits.member_cases with ⟨t, more, rfl, ht⟩ | ⟨_, _, t, more, rfl, ht⟩
  · cases (memberGap_of_ne ht _ more).symm.trans hgap
    exact ⟨le_rfl, r.memberGap_tokens ht _ more, memberName?_eq_none_moves hjoin hname⟩
  · obtain ⟨_, hfound⟩ := memberName?_of_newline hgap ht
    cases hname.symm.trans hfound

end

section

variable {p : Parsed Expr n} {start : ℕ} {more : List Token} (hfits : r.Fits p.rest)
  (hp' : (r.tokens p.rest).length < n')

include hfits

/-- A call or an index is the same in the other place. -/
theorem suffixes_opening_moves (hnested : Nested.Moves r nested nested')
    (hinto : ctx'.scope = ctx.scope ∨ ctx.scope = .top ∧ ctx'.scope = .group) {bracket : Bracket}
    {args : List Expr} {stop' : ℕ} {hlt : rest.length < p.rest.length}
    (hs : ctx.skip p.rest = ⟨.opening bracket, start, stop⟩ :: more) (hcurly : bracket ≠ .curly)
    (hread : arguments r.source bracket (ctx.inside .group)
      (fun ctx m ts h => nested ctx m ts (h.trans p.shorter)) [] more
      (Context.length_lt_of_skip hs) = .ok ⟨args, stop', rest, hlt⟩)
    (hdepth : ctx'.depth + (1 + bracketDepthAll args) ≤ maxDepth) :
    r.Fits rest ∧ ∃ hlt,
      suffixes r.target ctx' nested' ⟨p.value, p.stop + r.offset, r.tokens p.rest, hp'⟩ =
        suffixes r.target ctx' nested'
          ⟨if bracket = .round then call p.value args else index p.value args, stop' + r.offset,
            r.tokens rest, hlt⟩ := by
  have hrestrict := hnested.restrict p.shorter.le hp'.le
  have hscope : (ctx'.inside .group).scope = (ctx.inside .group).scope := rfl
  have hfitsMore := hfits.of_left (Context.tail_left_of_skip hs (by simp))
  have hs' := Context.skip_tokens (r := r) hinto hs (Or.inr (by simp))
  obtain ⟨_, hread'⟩ := arguments_moves hrestrict hscope hread hfitsMore
    (forall_bracketDepth_le hdepth) (r.length_tokens_lt (Context.length_lt_of_skip hs))
  refine ⟨hfitsMore.of_left (arguments_endsIn hrestrict.ends hread).left, ?_⟩
  exact ⟨_, suffixes_of_opening hs' hcurly (by omega) hread'⟩

variable {stop₁ : ℕ} {rest₁ : List Token} {hle : rest₁.length ≤ more.length}
  (hs : ctx.skip p.rest = ⟨.operator .member, start, stop⟩ :: more)
  (hgap : memberGap ctx stop more = (stop₁, ⟨rest₁, hle⟩))

include hs hgap

/-- A member is the same in the other place. -/
theorem suffixes_member_moves
    (hinto : ctx'.scope = ctx.scope ∨ ctx.scope = .top ∧ ctx'.scope = .group)
    {stop₂ : ℕ} {rest₂ : List Token} {hlt : rest₂.length < rest₁.length}
    (hname : memberName? ctx rest₁ = some ⟨(), stop₂, rest₂, hlt⟩) :
    r.Fits rest₂ ∧ ∃ hlt,
      suffixes r.target ctx' nested' ⟨p.value, p.stop + r.offset, r.tokens p.rest, hp'⟩ =
        suffixes r.target ctx' nested'
          ⟨member p.value, stop₂ + r.offset, r.tokens rest₂, hlt⟩ := by
  have hmember := Context.left_of_skip hs
  have hleft := (endsIn_of_memberGap hgap hmember () (Nat.lt_succ_of_le hle)).left
  have hs' := Context.skip_tokens (r := r) hinto hs (Or.inr (by simp))
  obtain ⟨_, _, _, _, hgap', hname'⟩ :=
    memberName?_moves_behind (hfits.of_left hmember) hgap hinto hname
  refine ⟨hfits.of_left ((memberName?_endsIn hname).left.trans hleft), ?_⟩
  have hrest := (hlt.trans_le hle).trans (Context.length_lt_of_skip hs)
  refine ⟨(r.length_tokens_lt hrest).trans hp', ?_⟩
  rw [suffixes_of_member hs' hgap', hname']
  rfl

/-- A member operator that stands alone does so in the other place. -/
theorem suffixes_member_alone_moves (hjoin : Joins ctx ctx' rest₁)
    (hname : memberName? ctx rest₁ = none) :
    r.Fits rest₁ ∧ ∃ hlt,
      suffixes r.target ctx' nested' ⟨p.value, p.stop + r.offset, r.tokens p.rest, hp'⟩ =
        suffixes r.target ctx' nested'
          ⟨member p.value, stop₁ + r.offset, r.tokens rest₁, hlt⟩ := by
  have hmember := Context.left_of_skip hs
  have hleft := (endsIn_of_memberGap hgap hmember () (Nat.lt_succ_of_le hle)).left
  have hs' := Context.skip_tokens (r := r) hjoin.into hs (Or.inr (by simp))
  obtain ⟨_, hgap', hname'⟩ :=
    memberName?_eq_none_moves_behind (hfits.of_left hmember) hgap hjoin hname
  refine ⟨hfits.of_left hleft, ?_⟩
  have hrest := hle.trans_lt (Context.length_lt_of_skip hs)
  refine ⟨(r.length_tokens_lt hrest).trans hp', ?_⟩
  rw [suffixes_of_member hs' hgap', hname']
  rfl

end

/-- Calls, indices and members that follow an expression follow it in the other place. -/
theorem suffixes_moves (hnested : Nested.Moves r nested nested') {p : Parsed Expr n}
    {hlt : rest.length < n} (h : suffixes r.source ctx nested p = .ok ⟨e, stop, rest, hlt⟩)
    (hjoin : Joins ctx ctx' rest) (hfits : r.Fits p.rest)
    (hdepth : ctx'.depth + e.bracketDepth ≤ maxDepth) (hp' : (r.tokens p.rest).length < n') :
    ∃ hlt, suffixes r.target ctx' nested' ⟨p.value, p.stop + r.offset, r.tokens p.rest, hp'⟩ =
      .ok ⟨e, stop + r.offset, r.tokens rest, hlt⟩ := by
  fun_induction suffixes r.source ctx nested p with
  | case1 p _ _ _ _ hs =>
    cases h
    refine ⟨hp', suffixes_of_ends ?_⟩
    refine Context.forall_head_skip hjoin (by simp [EndsSuffixes]) (by simp [EndsSuffixes]) ?_
    simp [hs, EndsSuffixes]
  | case2 p _ bracket _ _ more hcurly hs _ ih =>
    obtain ⟨inner, hinner, h⟩ := bind_eq_ok h
    obtain rfl := eq_of_enter hinner
    obtain ⟨⟨args, stop, rest, hlt⟩, hread, h⟩ := bind_eq_ok h
    have hle := bracketDepth_le_of_suffixes h
    dsimp only at hle
    rw [bracketDepth_call_or_index] at hle
    obtain ⟨hfitsRest, hrest, hstep⟩ :=
      suffixes_opening_moves hfits hp' hnested hjoin.into hs hcurly hread (by omega)
    obtain ⟨hlt', ih⟩ := ih args stop rest hlt h hfitsRest hrest
    exact ⟨hlt', hstep.trans ih⟩
  | case3 p _ _ _ _ hs _ _ _ _ hgap _ _ _ _ hname ih =>
    obtain ⟨hfitsRest, hrest, hstep⟩ := suffixes_member_moves hfits hp' hs hgap hjoin.into hname
    obtain ⟨hlt', ih⟩ := ih h hfitsRest hrest
    exact ⟨hlt', hstep.trans ih⟩
  | case4 p _ _ _ _ hs _ _ _ _ hgap hname ih =>
    have hjoin' := hjoin.mono fun htop => calm_of_suffixes h htop
    obtain ⟨hfitsRest, hrest, hstep⟩ := suffixes_member_alone_moves hfits hp' hs hgap hjoin' hname
    obtain ⟨hlt', ih⟩ := ih h hfitsRest hrest
    exact ⟨hlt', hstep.trans ih⟩
  | case5 p _ hcurly hopening hmember =>
    cases h
    refine ⟨hp', suffixes_of_ends ?_⟩
    refine Context.forall_head_skip hjoin (by simp [EndsSuffixes]) (by simp [EndsSuffixes]) ?_
    rintro ⟨kind, _, _⟩ hhead
    obtain ⟨more, hs⟩ := List.head?_eq_some_iff.mp hhead
    refine ⟨?_, ?_⟩
    · rintro rfl
      exact hmember _ _ _ hs
    · rintro bracket rfl
      exact (hopening _ _ _ _ hs).elim

/-- Only a binary operator of at least the level `m` goes on after an expression. -/
def EndsClimb (m : ℕ) (kind : Token.Kind) : Prop :=
  ∀ op, kind = .operator op → ∀ level right, op.binary? = some (level, right) → level < m

theorem climb_of_ends {m : ℕ} {p : Parsed Expr n}
    (h : ∀ t ∈ (ctx.skip p.rest).head?, EndsClimb m t.kind) : climb ctx m nested p = .ok p := by
  rw [climb]
  split
  · next hs =>
    split
    · next hbinary =>
      exact if_neg (not_le.mpr (h _ (congrArg List.head? hs) _ rfl _ _ hbinary))
    · rfl
  · rfl

theorem Context.length_dropNewlines_lt_of_skip (hs : ctx.skip ts = t :: rest) :
    (dropNewlines rest).length < ts.length :=
  (Token.length_dropNewlines_le rest).trans_lt (length_lt_of_skip hs)

/-- A binary operator of at least the level goes on with the expression behind it. -/
theorem climb_of_binary? {m level right start stop' : ℕ} {p : Parsed Expr n} {op : Operator}
    {more : List Token} (hs : ctx.skip p.rest = ⟨.operator op, start, stop⟩ :: more)
    (hbinary : op.binary? = some (level, right)) (hm : m ≤ level)
    {hlt : rest.length < (dropNewlines more).length}
    (hread : nested ctx right (dropNewlines more)
      ((Context.length_dropNewlines_lt_of_skip hs).trans p.shorter) =
        .ok ⟨e, stop', rest, hlt⟩) :
    climb ctx m nested p = climb ctx m nested ⟨.binary op p.value e, stop', rest,
      hlt.trans ((Context.length_dropNewlines_lt_of_skip hs).trans p.shorter)⟩ := by
  rw [climb]
  split
  · next hs' =>
    cases hs.symm.trans hs'
    rw [hbinary]
    dsimp only
    rw [if_pos hm]
    exact bind_ok hread rfl
  · next hno => exact absurd hs (hno _ _ _ _)

/-- Binary operators that follow an expression follow it in the other place. -/
theorem climb_moves (hnested : Nested.Moves r nested nested') {m : ℕ} {p : Parsed Expr n}
    {hlt : rest.length < n} (h : climb ctx m nested p = .ok ⟨e, stop, rest, hlt⟩)
    (hjoin : Joins ctx ctx' rest) (hfits : r.Fits p.rest)
    (hdepth : ctx'.depth + e.bracketDepth ≤ maxDepth) (hp' : (r.tokens p.rest).length < n') :
    ∃ hlt, climb ctx' m nested' ⟨p.value, p.stop + r.offset, r.tokens p.rest, hp'⟩ =
      .ok ⟨e, stop + r.offset, r.tokens rest, hlt⟩ := by
  fun_induction climb ctx m nested p with
  | case1 p _ op _ _ more hs level right hbinary hm hmore _ ih =>
    obtain ⟨⟨d, stop, rest, hlt⟩, hread, h⟩ := bind_eq_ok h
    have hs' := Context.skip_tokens (r := r) hjoin.into hs (Or.inr (by simp))
    have hfitsMore := hfits.of_left (Context.tail_left_of_skip hs (by simp))
    have hfitsNext := hfitsMore.of_left (left_dropNewlines more)
    have hjoin' := hjoin.mono fun htop => calm_of_climb h htop
    have hle := bracketDepth_le_of_climb h
    simp only [bracketDepth] at hle
    have hmore' := (r.length_tokens_lt hmore).trans hp'
    have hnext := (Token.length_dropNewlines_le (r.tokens more)).trans_lt hmore'
    obtain ⟨hlt', hread'⟩ := hnested.moves hread (r.carries_dropNewlines more) hjoin' hfitsNext
      (by omega) hnext
    obtain ⟨hlt'', ih⟩ := ih d stop rest hlt h (hfitsNext.of_left (hnested.ends hread).left)
      (hlt'.trans hnext)
    exact ⟨hlt'', (climb_of_binary? hs' hbinary hm hread').trans ih⟩
  | case2 p _ op _ _ _ hs level right hbinary hm =>
    cases h
    refine ⟨hp', climb_of_ends ?_⟩
    refine Context.forall_head_skip hjoin (by simp [EndsClimb]) (by simp [EndsClimb]) ?_
    simpa [hs, EndsClimb, hbinary] using hm
  | case3 p _ op _ _ _ hs hbinary =>
    cases h
    refine ⟨hp', climb_of_ends ?_⟩
    refine Context.forall_head_skip hjoin (by simp [EndsClimb]) (by simp [EndsClimb]) ?_
    simp [hs, EndsClimb, hbinary]
  | case4 p _ hoperator =>
    cases h
    refine ⟨hp', climb_of_ends ?_⟩
    refine Context.forall_head_skip hjoin (by simp [EndsClimb]) (by simp [EndsClimb]) ?_
    rintro ⟨kind, _, _⟩ hhead op rfl
    obtain ⟨more, hs⟩ := List.head?_eq_some_iff.mp hhead
    exact (hoperator _ _ _ _ hs).elim

/-! ## Whole expressions -/

theorem primary_starts {src : Source} {hts : ts.length ≤ n} {p : Parsed Expr n}
    (h : primary src ctx nested ts hts = .ok p) :
    ∃ t rest, ctx.skip ts = t :: rest ∧ t.kind ≠ .newline ∧ t.kind ≠ .semicolon := by
  unfold primary at h
  extract_lets h₁ at h
  split at h
  · cases h
  · next t rest hs =>
    refine ⟨t, rest, hs, fun hkind => ?_, fun hkind => ?_⟩ <;>
    · simp only [hkind] at h
      cases h

end

theorem parse_starts {src : Source} {ctx : Context} {m : ℕ} {ts : List Token}
    {p : Parsed Expr ts.length} (h : parse src ctx m ts = .ok p) :
    ∃ t rest, ctx.skip ts = t :: rest ∧ t.kind ≠ .newline ∧ t.kind ≠ .semicolon := by
  rw [parse] at h
  obtain ⟨p₀, hprimary, -⟩ := bind_eq_ok h
  exact primary_starts hprimary

/-- An expression can be read in another place. The proof goes by the number of tokens, since nested
expressions are read from fewer. -/
theorem parse_moves {r : Relocation} {ctx ctx' : Context} {m stop : ℕ} {e : Expr}
    (ts : List Token) {ts' rest : List Token} {hlt : rest.length < ts.length}
    (h : parse r.source ctx m ts = .ok ⟨e, stop, rest, hlt⟩)
    (hskip : ctx'.skip ts' = r.tokens (ctx.skip ts)) (hjoin : Joins ctx ctx' rest)
    (hfits : r.Fits ts) (hdepth : ctx'.depth + e.bracketDepth ≤ maxDepth) :
    ∃ hlt, parse r.target ctx' m ts' = .ok ⟨e, stop + r.offset, r.tokens rest, hlt⟩ := by
  rw [parse] at h
  have hnested : Nested.Moves r
      (fun ctx m shorter (_ : shorter.length < ts.length) => parse r.source ctx m shorter)
      (fun ctx m shorter (_ : shorter.length < ts'.length) => parse r.target ctx m shorter) := {
    ends := fun ctx m shorter _ _ => parse_endsIn ctx m shorter
    starts := fun ctx m shorter _ _ hread => by
      obtain ⟨t, more, hs, -⟩ := parse_starts hread
      exact ⟨t, more, hs⟩
    moves := fun _ _ _ shorter _ _ _ _ _ _ hread hcarries hjoin hfits hdepth _ => by
      obtain ⟨t, more, hs, ht, -⟩ := parse_starts hread
      have hpos := Nat.zero_lt_of_lt (Context.length_lt_of_skip hs)
      obtain rfl := hcarries (List.ne_nil_of_length_pos hpos)
      refine parse_moves shorter hread ?_ hjoin hfits hdepth
      rw [hs]
      exact Context.skip_tokens hjoin.into hs (Or.inr ht) }
  obtain ⟨⟨e₀, stop₀, rest₀, hlt₀⟩, hprimary, h⟩ := bind_eq_ok h
  obtain ⟨⟨e₁, stop₁, rest₁, hlt₁⟩, hsuffixes, h⟩ := bind_eq_ok h
  have hends₀ := primary_endsIn hnested.ends hprimary
  have hends₁ := suffixes_endsIn hnested.ends hends₀ hsuffixes
  have hjoin₁ : Joins ctx ctx' rest₁ := hjoin.mono fun htop => calm_of_climb h htop
  have hjoin₀ : Joins ctx ctx' rest₀ := hjoin₁.mono fun htop => calm_of_suffixes hsuffixes htop
  have hle₁ : e₁.bracketDepth ≤ e.bracketDepth := bracketDepth_le_of_climb h
  have hle₀ : e₀.bracketDepth ≤ e₁.bracketDepth := bracketDepth_le_of_suffixes hsuffixes
  obtain ⟨hlt₀', hprimary'⟩ := primary_moves hnested hprimary hskip hjoin₀ hfits (by omega) le_rfl
  obtain ⟨hlt₁', hsuffixes'⟩ :=
    suffixes_moves hnested hsuffixes hjoin₁ (hfits.of_left hends₀.left) (by omega) hlt₀'
  obtain ⟨hlt', h'⟩ := climb_moves hnested h hjoin (hfits.of_left hends₁.left) hdepth hlt₁'
  refine ⟨hlt', ?_⟩
  rw [parse]
  exact bind_ok hprimary' (bind_ok hsuffixes' h')
termination_by ts.length

end CallAtlas.Expr.Parser
