import CallAtlas.Proofs.Expr.Parser
import CallAtlas.Proofs.Token.Splice

/-!
# Tokens in another place

Tokens of one text can stand in another one, further on and with other tokens behind them
(`Relocation`), and an expression that is read from them there should be the same. Three things
decide whether it is.

* What stands behind must not go on with the expression. Here it starts with a closing bracket, if
  not all of it is newlines (`Closed`).
* The innermost bracket may change from none to a round one, in which newlines are blanks. So what
  the expression ends at must not be a newline, nor a word that only a newline keeps apart
  (`Joins`).
* A function literal keeps its text, so both texts must agree on the characters of the tokens. A
  member operator at the end of a line takes the newline with it, unless newlines are blanks. This
  makes no difference if a name comes next (`Relocation.Fits`).

`Context.skip_cases` states that the same token comes next in both places, unless there is none
left. The number of brackets that an expression needs is `bracketDepth`.
-/

namespace CallAtlas

namespace Expr

mutual

/-- The number of brackets that are open at once in an expression. -/
def bracketDepth : Expr → ℕ
  | atom | ident _ | text _ | qualified => 0
  | member e | unary e | repeatLoop e => e.bracketDepth
  | binary _ e f => max e.bracketDepth f.bracketDepth
  | paren e => 1 + e.bracketDepth
  | block es => 1 + bracketDepthAll es
  | function _ defaults body _ => max (1 + bracketDepthAll defaults) body.bracketDepth
  | call e es | index e es => max e.bracketDepth (1 + bracketDepthAll es)
  | ifThen c e | whileLoop c e | forLoop _ c e => max (1 + c.bracketDepth) e.bracketDepth
  | ifElse c e f => max (1 + c.bracketDepth) (max e.bracketDepth f.bracketDepth)

/-- The number of brackets that are open at once in one of the expressions. -/
def bracketDepthAll : List Expr → ℕ
  | [] => 0
  | e :: es => max e.bracketDepth (bracketDepthAll es)

end

/-- An expression needs no more brackets than a list that it stands in. -/
theorem bracketDepth_le_of_mem {e : Expr} {es : List Expr} (h : e ∈ es) :
    e.bracketDepth ≤ bracketDepthAll es := by
  induction es with
  | nil => cases h
  | cons d es ih =>
    rw [bracketDepthAll]
    rcases List.mem_cons.mp h with rfl | h
    · exact le_max_left _ _
    · exact (ih h).trans (le_max_right _ _)

namespace Parser

open Token (dropNewlines)

/-- If a bracket around some expressions can be opened, so can the brackets in each of them. -/
theorem forall_bracketDepth_le {es : List Expr} {depth : ℕ}
    (h : depth + (1 + bracketDepthAll es) ≤ maxDepth) :
    ∀ e ∈ es, depth + 1 + e.bracketDepth ≤ maxDepth := by
  intro e he
  have := bracketDepth_le_of_mem he
  omega

/-! ## Tokens in another place -/

/-- A list that starts with a closing round bracket behind its newlines, if with anything. -/
def Closed (ts : List Token) : Prop :=
  ∀ t ∈ (dropNewlines ts).head?, t.kind = .closing .round

/-- Tokens of one text that are read in another one, so many characters further on. Behind them
come other tokens, with a closing bracket next if they are not all newlines. -/
structure Relocation where
  source : Source
  target : Source
  offset : ℕ
  behind : List Token
  closed : Closed behind

/-- The tokens in the other place, with those behind them. -/
def Relocation.tokens (r : Relocation) (ts : List Token) : List Token :=
  ts.map (Token.shift r.offset) ++ r.behind

/-- The second list is what the first one is in the other place, unless there is no first token. -/
def Relocation.Carries (r : Relocation) (ts ts' : List Token) : Prop :=
  ts ≠ [] → ts' = r.tokens ts

/-- Whether something follows a member operator, and on the next line a name. -/
def followsMember : List Token → Bool
  | ⟨.newline, _, _⟩ :: ts => ts.head?.any fun t => isMemberName ⟨.top, 0⟩ t.kind
  | ts => !ts.isEmpty

/-- Whether something follows each member operator, and on the next line a name. -/
def membersFollowed : List Token → Bool
  | [] => true
  | t :: ts => (t.kind != .operator .member || followsMember ts) && membersFollowed ts

/-- The tokens stand at the same characters in both texts, and the member operators among them do
not end a line unless their names start the next one. -/
structure Relocation.Fits (r : Relocation) (ts : List Token) : Prop where
  slice : ∀ t ∈ ts, ∀ start, Text.slice r.target.chars (start + r.offset) (t.stop + r.offset) =
    Text.slice r.source.chars start t.stop
  member : membersFollowed ts = true

/-- A list that starts with a newline or a closing round bracket, if with anything. -/
def Stopped (ts : List Token) : Prop :=
  ∀ t ∈ ts.head?, t.kind = .newline ∨ t.kind = .closing .round

/-- A list that starts with neither a newline nor a keyword. -/
def Calm (ts : List Token) : Prop :=
  ∀ t ∈ ts.head?, t.kind ≠ .newline ∧ ∀ name, t.kind = .word name → Token.isKeyword name = false

/-- What is read in the first context can be read in the second one. In a bracket newlines are
blanks, so what is read at the top level must not end at one there. -/
structure Joins (ctx ctx' : Context) (rest : List Token) : Prop where
  into : ctx'.scope = ctx.scope ∨ ctx.scope = .top ∧ ctx'.scope = .group
  calm : ctx'.scope = ctx.scope ∨ Calm rest

section

variable {r : Relocation} {ctx ctx' inner inner' : Context} {t : Token} {ts ts' rest : List Token}

/-- With the same innermost bracket, what is read may end anywhere. -/
theorem Joins.of_scope (h : ctx'.scope = ctx.scope) (rest : List Token) : Joins ctx ctx' rest :=
  ⟨Or.inl h, Or.inl h⟩

/-- What is left over earlier may be read on from as well, if it is calm whenever what is left over
later is. -/
theorem Joins.mono (h : Joins ctx ctx' rest) (hcalm : ctx.scope = .top → Calm rest → Calm ts) :
    Joins ctx ctx' ts := by
  refine ⟨h.into, ?_⟩
  rcases h.into with hscope | ⟨htop, -⟩
  · exact Or.inl hscope
  · exact h.calm.imp_right (hcalm htop)

/-- A member operator is followed by what stands behind it, whatever stands before. -/
theorem membersFollowed_of_append {read : List Token} (h : membersFollowed (read ++ ts) = true) :
    membersFollowed ts = true := by
  induction read with
  | nil => exact h
  | cons t read ih =>
    simp only [List.cons_append, membersFollowed, Bool.and_eq_true] at h
    exact ih h.2

/-- Tokens that fit do so from each of them on. -/
theorem Relocation.Fits.of_suffix (h : r.Fits ts) (hts : ts' <:+ ts) : r.Fits ts' := by
  obtain ⟨read, rfl⟩ := hts
  exact ⟨fun t ht => h.slice t (List.mem_append_right read ht), membersFollowed_of_append h.member⟩

theorem Relocation.Fits.of_left (h : r.Fits ts) (hts : Left ts' ts) : r.Fits ts' :=
  h.of_suffix hts.suffix

/-- Up to the end of what is read, both texts have the same characters. -/
theorem Relocation.Fits.slice_of_endsIn {α : Type} {n : ℕ} {p : Parsed α n} (h : r.Fits ts)
    (hp : p.EndsIn ts) (start : ℕ) :
    Text.slice r.target.chars (start + r.offset) (p.stop + r.offset) =
      Text.slice r.source.chars start p.stop := by
  obtain ⟨t, hstop, hrest, -, -⟩ := hp
  rw [← hstop]
  exact h.slice t (hrest.suffix.mem List.mem_cons_self) start

theorem Relocation.tokens_cons (r : Relocation) (t : Token) (ts : List Token) :
    r.tokens (t :: ts) = t.shift r.offset :: r.tokens ts :=
  rfl

theorem Relocation.length_tokens (r : Relocation) (ts : List Token) :
    (r.tokens ts).length = ts.length + r.behind.length := by
  simp [tokens]

/-- What is left over is shorter in the other place as well. -/
theorem Relocation.length_tokens_lt (r : Relocation) (h : rest.length < ts.length) :
    (r.tokens rest).length < (r.tokens ts).length := by
  simpa only [length_tokens, Nat.add_lt_add_iff_right]

/-- Tokens that start with a closing bracket behind their newlines start with one of the two. -/
theorem Closed.stopped (h : Closed ts) : Stopped ts := by
  intro t ht
  by_cases hkind : t.kind = .newline
  · exact Or.inl hkind
  · obtain ⟨more, rfl⟩ := List.head?_eq_some_iff.mp ht
    refine Or.inr (h t ?_)
    rw [dropNewlines, List.dropWhile_cons_of_neg (by simpa using hkind)]
    rfl

/-- Dropping newlines stops at the first other token. If there is none, it goes on behind. -/
theorem Relocation.dropNewlines_tokens (r : Relocation) (ts : List Token) :
    dropNewlines (r.tokens ts) =
      if dropNewlines ts = [] then dropNewlines r.behind else r.tokens (dropNewlines ts) := by
  rw [tokens, dropNewlines, List.dropWhile_append, List.dropWhile_map]
  simp only [List.isEmpty_map, List.isEmpty_iff]
  rfl

theorem Relocation.carries_tokens (r : Relocation) (ts : List Token) : r.Carries ts (r.tokens ts) :=
  fun _ => rfl

/-- A token that is left when newlines are dropped is left in the other place. -/
theorem Relocation.carries_dropNewlines (r : Relocation) (ts : List Token) :
    r.Carries (dropNewlines ts) (dropNewlines (r.tokens ts)) := by
  intro h
  rw [dropNewlines_tokens, if_neg h]

theorem Relocation.stopped_dropNewlines (r : Relocation) (h : dropNewlines ts = []) :
    Stopped (dropNewlines (r.tokens ts)) := by
  rw [dropNewlines_tokens, if_pos h]
  exact fun t ht => Or.inr (r.closed t ht)

theorem Context.skip_of_ne (h : ctx.scope ≠ .group) (ts : List Token) : ctx.skip ts = ts :=
  if_neg h

theorem Context.skip_of_group (h : ctx.scope = .group) (ts : List Token) :
    ctx.skip ts = dropNewlines ts :=
  if_pos h

/-- A token that comes next does so in the other place, unless it is a newline that is a blank
there. -/
theorem Context.skip_tokens
    (hinto : ctx'.scope = ctx.scope ∨ ctx.scope = .top ∧ ctx'.scope = .group)
    (h : ctx.skip ts = t :: rest) (ht : ctx'.scope = ctx.scope ∨ t.kind ≠ .newline) :
    ctx'.skip (r.tokens ts) = t.shift r.offset :: r.tokens rest := by
  by_cases hgroup : ctx'.scope = .group
  · have hdrop : dropNewlines ts = t :: rest := by
      rcases hinto with hscope | ⟨htop, -⟩
      · rwa [skip_of_group (hscope ▸ hgroup)] at h
      · rw [skip_of_ne (by simp [htop])] at h
        have ht := ht.resolve_left (by simp [htop, hgroup])
        rw [h, dropNewlines, List.dropWhile_cons_of_neg (by simpa using ht)]
    rw [skip_of_group hgroup, r.dropNewlines_tokens, hdrop, if_neg (List.cons_ne_nil t rest)]
    rfl
  · have hscope := hinto.resolve_right fun hinto => hgroup hinto.2
    rw [skip_of_ne (hscope ▸ hgroup)] at h
    rw [skip_of_ne hgroup, h]
    rfl

theorem Relocation.skip_tokens (r : Relocation) (hscope : ctx'.scope = ctx.scope)
    (h : ctx.skip ts = t :: rest) : ctx'.skip (r.tokens ts) = t.shift r.offset :: r.tokens rest :=
  Context.skip_tokens (Or.inl hscope) h (Or.inl hscope)

/-- What comes next comes next in the other place, with the same innermost bracket. -/
theorem Relocation.carries_skip (r : Relocation) (hscope : ctx'.scope = ctx.scope)
    (ts : List Token) : r.Carries (ctx.skip ts) (ctx'.skip (r.tokens ts)) := by
  intro h
  obtain ⟨t, rest, hs⟩ := List.exists_cons_of_ne_nil h
  rw [hs]
  exact r.skip_tokens hscope hs

/-- In both places the same token comes next, or there is none in the one and only what stands
behind in the other. -/
theorem Context.skip_cases (h : Joins ctx ctx' ts) :
    (∃ t rest, ctx.skip ts = t :: rest ∧
      ctx'.skip (r.tokens ts) = t.shift r.offset :: r.tokens rest) ∨
      ctx.skip ts = [] ∧ Stopped (ctx'.skip (r.tokens ts)) := by
  cases hs : ctx.skip ts with
  | cons t rest =>
    refine Or.inl ⟨t, rest, rfl, skip_tokens h.into hs ?_⟩
    rcases h.into with hscope | ⟨htop, -⟩
    · exact Or.inl hscope
    · rw [skip_of_ne (by simp [htop])] at hs
      exact h.calm.imp_right fun hcalm => (hcalm t (by rw [hs]; rfl)).1
  | nil =>
    refine Or.inr ⟨rfl, ?_⟩
    by_cases hgroup : ctx'.scope = .group
    · rw [skip_of_group hgroup]
      refine r.stopped_dropNewlines ?_
      unfold skip at hs
      split_ifs at hs
      · exact hs
      · rw [hs]
        rfl
    · have hscope := h.into.resolve_right fun hinto => hgroup hinto.2
      rw [skip_of_ne (hscope ▸ hgroup)] at hs
      rw [skip_of_ne hgroup, hs]
      exact r.closed.stopped

/-- What holds of a newline, a closing bracket and the token that comes next holds of the one that
comes next in the other place. -/
theorem Context.forall_head_skip {P : Token.Kind → Prop} (hjoin : Joins ctx ctx' ts)
    (hnewline : P .newline) (hclosing : P (.closing .round))
    (h : ∀ t ∈ (ctx.skip ts).head?, P t.kind) :
    ∀ t ∈ (ctx'.skip (r.tokens ts)).head?, P t.kind := by
  intro t ht
  rcases skip_cases (r := r) hjoin with ⟨u, more, hs, hs'⟩ | ⟨-, hs'⟩
  · rw [hs'] at ht
    cases ht
    exact h u (by rw [hs]; rfl)
  · rcases hs' t ht with hkind | hkind
    · exact hkind ▸ hnewline
    · exact hkind ▸ hclosing

end

/-- A first step that succeeds leaves the second. -/
theorem bind_ok {α β : Type} {x : Except SyntaxError α} {f : α → Except SyntaxError β} {a : α}
    {y : Except SyntaxError β} (hx : x = .ok a) (hf : f a = y) : x >>= f = y := by
  rw [hx]
  exact hf

/-- The context inside a bracket. -/
def Context.inside (ctx : Context) (scope : Scope) : Context :=
  ⟨scope, ctx.depth + 1⟩

section

variable {r : Relocation} {ctx ctx' inner inner' : Context} {t : Token} {ts ts' rest : List Token}
  {stop : ℕ}

theorem joins_inside (ctx ctx' : Context) (scope : Scope) (rest : List Token) :
    Joins (ctx.inside scope) (ctx'.inside scope) rest :=
  ⟨Or.inl rfl, Or.inl rfl⟩

/-- Inside a bracket one more is open. -/
theorem eq_of_enter {src : Source} {scope : Scope} (h : enter src ctx scope ts = .ok inner) :
    inner = ctx.inside scope := by
  unfold enter at h
  split_ifs at h
  · cases h
    rfl
  · cases h

/-- A bracket can be opened unless too many are open. -/
theorem enter_of_lt {src : Source} (scope : Scope) (h : ctx.depth < maxDepth) (ts : List Token) :
    enter src ctx scope ts = .ok (ctx.inside scope) :=
  if_pos h

end

end Parser

end Expr

end CallAtlas
