import CallAtlas.Expr
import CallAtlas.Text.Line

/-!
# Parsing expressions

A recursive descent over the tokens of a text, with precedence climbing for the operators. A
parser takes a list of tokens and returns what it read together with the tokens left over and
a proof that they are fewer, so that each nested expression is parsed from a shorter list.

Every part of the grammar takes the parser of nested expressions as an argument, `Nested n`,
which accepts lists shorter than `n` only. `Expr.parse` closes the loop.

Whether a newline is a blank or ends a statement hangs on the innermost open bracket, which
is the `Scope`.
-/

namespace CallAtlas

/-- A syntax error, at the offset of the token that nothing can be made of. -/
structure SyntaxError where
  offset : Nat
deriving DecidableEq, Repr

/-- The characters of a text, and the offset behind its last token or comment. -/
structure Source where
  chars : List Char
  finish : Nat

namespace Expr.Parser

/-- The innermost open bracket: none, a curly one, or one in which newlines are blanks. -/
inductive Scope where
  | top
  | block
  | group
deriving DecidableEq

/-- The innermost bracket and the number of open ones. -/
structure Context where
  scope : Scope
  depth : Nat

/-- The number of brackets that may be open at once. -/
def maxDepth : Nat := 1017

/-- The tokens from the next one that counts in this context. -/
def Context.skip (ctx : Context) (ts : List Token) : List Token :=
  if ctx.scope = .group then Token.dropNewlines ts else ts

theorem Context.length_skip_le (ctx : Context) (ts : List Token) :
    (ctx.skip ts).length ≤ ts.length := by
  unfold Context.skip
  split
  · exact Token.length_dropNewlines_le ts
  · exact Nat.le_refl _

theorem Context.length_lt_of_skip {ctx : Context} {t : Token} {rest ts : List Token}
    (h : ctx.skip ts = t :: rest) : rest.length < ts.length := by
  have := ctx.length_skip_le ts
  rw [h] at this
  exact this

/-- What a parser read, where it ends, and fewer than `n` tokens left over. -/
structure Parsed (α : Type) (n : Nat) where
  value : α
  stop : Nat
  rest : List Token
  shorter : rest.length < n

/-- A parser fails, or reads something and leaves fewer than `n` tokens. -/
abbrev Outcome (α : Type) (n : Nat) := Except SyntaxError (Parsed α n)

/-- A parser of the expressions whose operators have at least a given level, for lists of
fewer than `n` tokens. -/
abbrev Nested (n : Nat) :=
  Context → Nat → (ts : List Token) → ts.length < n → Outcome Expr ts.length

variable (src : Source)

/-- Fails at the first of the tokens, or at the end of the text. -/
def fail {α : Type} (ts : List Token) : Except SyntaxError α :=
  .error ⟨(ts.head?.map Token.start).getD src.finish⟩

/-- The context inside a bracket that opens at the first of the tokens. -/
def enter (ctx : Context) (scope : Scope) (ts : List Token) : Except SyntaxError Context :=
  if ctx.depth < maxDepth then .ok ⟨scope, ctx.depth + 1⟩ else fail src ts

/-- Reads one token of the given kind. -/
def expect (kind : Token.Kind) (ts : List Token) : Outcome Unit ts.length :=
  match ts with
  | t :: rest => if t.kind = kind then .ok ⟨(), t.stop, rest, by simp⟩ else fail src (t :: rest)
  | [] => fail src []

/-- Reads a word of any kind and gives the name it stands for. -/
def word (ts : List Token) : Outcome String ts.length :=
  match ts with
  | ⟨.word name, _, stop⟩ :: rest => .ok ⟨name, stop, rest, by simp⟩
  | ⟨.quoted name, _, stop⟩ :: rest => .ok ⟨name, stop, rest, by simp⟩
  | ts => fail src ts

/-! ## Brackets -/

/-- Reads an expression in round brackets. -/
def bracketed (ctx : Context) {n : Nat} (nested : Nested n) (ts : List Token)
    (h : ts.length ≤ n) : Outcome Expr ts.length := do
  let inner ← enter src ctx .group ts
  let ⟨_, _, opened, h₁⟩ ← expect src (.opening .round) ts
  let ⟨e, _, read, h₂⟩ ← nested inner 0 opened (by omega)
  have h₃ := inner.length_skip_le read
  let ⟨_, stop, rest, h₄⟩ ← expect src (.closing .round) (inner.skip read)
  return ⟨e, stop, rest, by omega⟩

/-- Reads statements up to the closing curly bracket, after those in `body`, which are in
reverse order. -/
def statements (inner : Context) {n : Nat} (nested : Nested n) (body : List Expr)
    (ts : List Token) (h : ts.length < n) : Outcome (List Expr) n :=
  match ts, h with
  | ⟨.closing .curly, _, stop⟩ :: rest, h =>
    .ok ⟨body.reverse, stop, rest, Nat.lt_of_succ_lt h⟩
  | ⟨.newline, _, _⟩ :: rest, h | ⟨.semicolon, _, _⟩ :: rest, h =>
    statements inner nested body rest (Nat.lt_of_succ_lt h)
  | ts, h => do
    let ⟨e, _, rest, h₁⟩ ← nested inner 0 ts h
    statements inner nested (e :: body) rest (by omega)
termination_by ts.length

/-- The closing of a bracket, if it is what comes next. -/
def closing? (bracket : Bracket) (ts : List Token) : Option (Parsed Unit ts.length) :=
  match bracket, ts with
  | .double, ⟨.closing .square, _, middle⟩ :: ⟨.closing .square, start, stop⟩ :: rest =>
    if middle = start then some ⟨(), stop, rest, by simp only [List.length_cons]; omega⟩ else none
  | .double, _ => none
  | bracket, t :: rest =>
    if t.kind = .closing bracket then some ⟨(), t.stop, rest, by simp⟩ else none
  | _, [] => none

/-- Whether an argument may have this token as its name: a word or a string, and of the
keywords only `NULL`. -/
def isArgumentName : Token.Kind → Bool
  | .word name => name == "NULL" || !Token.isKeyword name
  | .quoted _ | .text _ | .rawText => true
  | _ => false

/-- The name and the equals sign that an argument may start with. -/
def argumentName? (inner : Context) (ts : List Token) : Option (Parsed Unit ts.length) :=
  match ts with
  | [] => none
  | t :: ts =>
    match hs : inner.skip ts with
    | ⟨.operator .equals, _, stop⟩ :: rest =>
      if isArgumentName t.kind then
        some ⟨(), stop, rest, Nat.lt_succ_of_lt (Context.length_lt_of_skip hs)⟩
      else none
    | _ => none

/-- Reads an argument: an expression, or a name and perhaps an expression. -/
def argument (inner : Context) {n : Nat} (nested : Nested n) (ts : List Token)
    (h : ts.length < n) : Outcome (List Expr) ts.length :=
  match argumentName? inner ts with
  | none => do
    let ⟨e, stop, rest, h₁⟩ ← nested inner 0 ts h
    return ⟨[e], stop, rest, h₁⟩
  | some ⟨_, stop, rest, h₁⟩ =>
    match inner.skip rest with
    | ⟨.comma, _, _⟩ :: _ | ⟨.closing _, _, _⟩ :: _ => .ok ⟨[], stop, rest, h₁⟩
    | _ => do
      let ⟨e, stop, rest, h₂⟩ ← nested inner 0 rest (by omega)
      return ⟨[e], stop, rest, by omega⟩

/-- Reads arguments up to the closing bracket, after those in `args`. Between two arguments
stands a comma; empty ones are dropped. -/
def arguments (bracket : Bracket) (inner : Context) {n : Nat} (nested : Nested n)
    (args : List Expr) (ts : List Token) (h : ts.length < n) : Outcome (List Expr) n :=
  have h₁ := inner.length_skip_le ts
  match hs : inner.skip ts with
  | ⟨.comma, _, _⟩ :: rest =>
    have h₂ := Context.length_lt_of_skip hs
    arguments bracket inner nested args rest (by omega)
  | started =>
    have h₂ : started.length ≤ ts.length := hs ▸ h₁
    match closing? bracket started with
    | some ⟨_, stop, rest, h₃⟩ => .ok ⟨args, stop, rest, by omega⟩
    | none => do
      let ⟨arg, _, read, h₃⟩ ← argument inner nested started (by omega)
      have h₄ := inner.length_skip_le read
      match closing? bracket (inner.skip read) with
      | some ⟨_, stop, rest, h₅⟩ => .ok ⟨args ++ arg, stop, rest, by omega⟩
      | none =>
        match hr : inner.skip read with
        | ⟨.comma, _, _⟩ :: rest =>
          have h₅ := Context.length_lt_of_skip hr
          arguments bracket inner nested (args ++ arg) rest (by omega)
        | stuck => fail src stuck
termination_by ts.length

/-! ## Function literals -/

/-- Reads the default that a parameter may have. -/
def default? (inner : Context) {n : Nat} (nested : Nested n) (ts : List Token)
    (h : ts.length < n) : Except SyntaxError (List Expr × { r : List Token // r.length < n }) :=
  match hs : inner.skip ts with
  | ⟨.operator .equals, _, _⟩ :: rest => do
    have h₁ := Context.length_lt_of_skip hs
    let ⟨e, _, rest, h₂⟩ ← nested inner 0 rest (by omega)
    return ([e], ⟨rest, by omega⟩)
  | _ => .ok ([], ⟨ts, h⟩)

/-- Reads parameters up to the closing bracket, after those in `names` and `defaults`. -/
def parameters (inner : Context) {n : Nat} (nested : Nested n) (names : List String)
    (defaults : List Expr) (ts : List Token) (h : ts.length < n) :
    Outcome (List String × List Expr) n := do
  have h₁ := inner.length_skip_le ts
  let ⟨name, _, named, h₂⟩ ← word src (inner.skip ts)
  let ⟨default, ⟨read, h₃⟩⟩ ← default? (n := ts.length) inner
    (fun ctx m ts h => nested ctx m ts (by omega)) named (by omega)
  match hs : inner.skip read with
  | ⟨.closing .round, _, stop⟩ :: rest =>
    have h₄ := Context.length_lt_of_skip hs
    return ⟨(names ++ [name], defaults ++ default), stop, rest, by omega⟩
  | ⟨.comma, _, _⟩ :: rest =>
    have h₄ := Context.length_lt_of_skip hs
    parameters inner nested (names ++ [name]) (defaults ++ default) rest (by omega)
  | stuck => fail src stuck
termination_by ts.length

/-- Reads a parameter list behind its opening bracket. -/
def parameterList (inner : Context) {n : Nat} (nested : Nested n) (ts : List Token)
    (h : ts.length < n) : Outcome (List String × List Expr) n :=
  match hs : inner.skip ts with
  | ⟨.closing .round, _, stop⟩ :: rest =>
    have h₁ := Context.length_lt_of_skip hs
    .ok ⟨([], []), stop, rest, by omega⟩
  | _ => parameters src inner nested [] [] ts h

/-- Reads the rest of a function literal that starts at the offset `start`. -/
def functionLiteral (ctx : Context) {n : Nat} (nested : Nested n) (start : Nat)
    (ts : List Token) (h : ts.length < n) : Outcome Expr n := do
  let inner ← enter src ctx .group ts
  let header := (ts.head?.map Token.start).getD src.finish
  let ⟨_, _, opened, h₁⟩ ← expect src (.opening .round) ts
  let ⟨(names, defaults), headerStop, read, h₂⟩ ←
    parameterList src inner nested opened (by omega)
  have h₃ := Token.length_dropNewlines_le read
  let ⟨body, stop, rest, h₄⟩ ← nested ctx 3 (Token.dropNewlines read) (by omega)
  let excerpt := fun start stop => String.ofList (Text.slice src.chars start stop)
  return ⟨.function names defaults body ⟨excerpt header headerStop, excerpt start stop⟩,
    stop, rest, by omega⟩

/-! ## Control flow -/

/-- The tokens behind an `else` that belongs to the condition before it. At top level it
stands on the same line. -/
def else? (ctx : Context) (ts : List Token) :
    Option { rest : List Token // rest.length < ts.length } :=
  let inside : Context := if ctx.scope = .top then ctx else ⟨.group, ctx.depth⟩
  match hs : inside.skip ts with
  | ⟨.word "else", _, _⟩ :: rest => some ⟨rest, Context.length_lt_of_skip hs⟩
  | _ => none

/-- Reads the rest of a conditional. -/
def conditional (ctx : Context) {n : Nat} (nested : Nested n) (ts : List Token)
    (h : ts.length < n) : Outcome Expr n := do
  let ⟨condition, _, read, h₁⟩ ← bracketed src ctx nested ts (by omega)
  have h₂ := Token.length_dropNewlines_le read
  let ⟨yes, stop, rest, h₃⟩ ← nested ctx 4 (Token.dropNewlines read) (by omega)
  match else? ctx rest with
  | none => return ⟨.ifThen condition yes, stop, rest, by omega⟩
  | some ⟨rest, h₄⟩ =>
    have h₅ := Token.length_dropNewlines_le rest
    let ⟨no, stop, rest, h₆⟩ ← nested ctx 4 (Token.dropNewlines rest) (by omega)
    return ⟨.ifElse condition yes no, stop, rest, by omega⟩

/-- Reads the rest of a `for` loop. -/
def forLoop (ctx : Context) {n : Nat} (nested : Nested n) (ts : List Token)
    (h : ts.length < n) : Outcome Expr n := do
  let inner ← enter src ctx .group ts
  let ⟨_, _, opened, h₁⟩ ← expect src (.opening .round) ts
  have h₂ := inner.length_skip_le opened
  let ⟨name, _, named, h₃⟩ ← word src (inner.skip opened)
  have h₄ := inner.length_skip_le named
  let ⟨_, _, started, h₅⟩ ← expect src (.word "in") (inner.skip named)
  let ⟨sequence, _, read, h₆⟩ ← nested inner 0 started (by omega)
  have h₇ := inner.length_skip_le read
  let ⟨_, _, closed, h₈⟩ ← expect src (.closing .round) (inner.skip read)
  have h₉ := Token.length_dropNewlines_le closed
  let ⟨body, stop, rest, h₁₀⟩ ← nested ctx 3 (Token.dropNewlines closed) (by omega)
  return ⟨.forLoop name sequence body, stop, rest, by omega⟩

/-- Reads the rest of a `while` loop. -/
def whileLoop (ctx : Context) {n : Nat} (nested : Nested n) (ts : List Token)
    (h : ts.length < n) : Outcome Expr n := do
  let ⟨condition, _, read, h₁⟩ ← bracketed src ctx nested ts (by omega)
  have h₂ := Token.length_dropNewlines_le read
  let ⟨body, stop, rest, h₃⟩ ← nested ctx 3 (Token.dropNewlines read) (by omega)
  return ⟨.whileLoop condition body, stop, rest, by omega⟩

/-- Reads the rest of a `repeat` loop. -/
def repeatLoop (ctx : Context) {n : Nat} (nested : Nested n) (ts : List Token)
    (h : ts.length < n) : Outcome Expr n := do
  let ⟨body, stop, rest, h₁⟩ ← nested ctx 3 ts h
  return ⟨.repeatLoop body, stop, rest, by omega⟩

/-! ## Names and numbers -/

/-- Whether a token can name a member or what a package holds. Where a newline ends a
statement, a keyword starts the next one instead. -/
def isMemberName (ctx : Context) : Token.Kind → Bool
  | .word name => ctx.scope = .group || !Token.isKeyword name
  | .quoted _ | .text _ | .rawText => true
  | _ => false

/-- The name that may follow `::`, `$` or `@`. -/
def memberName? (ctx : Context) (ts : List Token) : Option (Parsed Unit ts.length) :=
  match hs : ctx.skip ts with
  | t :: rest =>
    if isMemberName ctx t.kind then some ⟨(), t.stop, rest, Context.length_lt_of_skip hs⟩
    else none
  | [] => none

/-- Goes on after a name: a package operator makes it the package that another name is looked
up in. -/
def qualify (ctx : Context) {n : Nat} (p : Parsed Expr n) : Parsed Expr n :=
  have h := p.shorter
  match hs : ctx.skip p.rest with
  | ⟨.operator .package, _, stop⟩ :: rest =>
    have h₁ := Context.length_lt_of_skip hs
    match memberName? ctx rest with
    | some ⟨_, stop, rest, h₂⟩ => ⟨.qualified, stop, rest, by omega⟩
    | none => ⟨.qualified, stop, rest, by omega⟩
  | _ => p

/-- Goes on after a number: a following `L` or `i` belongs to it. -/
def numberSuffix (ctx : Context) {n : Nat} (p : Parsed Expr n) : Parsed Expr n :=
  have h := p.shorter
  match hs : ctx.skip p.rest with
  | ⟨.word letter, _, stop⟩ :: rest =>
    have h₁ := Context.length_lt_of_skip hs
    if letter = "L" ∨ letter = "i" then ⟨p.value, stop, rest, by omega⟩ else p
  | _ => p

/-! ## Primary expressions and what follows them -/

/-- Reads what a bare word starts. -/
def wordExpr (ctx : Context) {n : Nat} (nested : Nested n) (name : String) (start stop : Nat)
    (rest : List Token) (h : rest.length < n) : Outcome Expr n :=
  let next := Token.dropNewlines rest
  have hn : next.length < n := Nat.lt_of_le_of_lt (Token.length_dropNewlines_le rest) h
  if name = "function" then functionLiteral src ctx nested start next hn
  else if name = "if" then conditional src ctx nested next hn
  else if name = "for" then forLoop src ctx nested next hn
  else if name = "while" then whileLoop src ctx nested next hn
  else if name = "repeat" then repeatLoop ctx nested next hn
  else if Token.isKeyword name then .ok ⟨.atom, stop, rest, h⟩
  else .ok (qualify ctx ⟨if Token.isDots name then .atom else .ident name, stop, rest, h⟩)

/-- Reads an expression that is not made of a shorter one in front. -/
def primary (ctx : Context) {n : Nat} (nested : Nested n) (ts : List Token)
    (h : ts.length ≤ n) : Outcome Expr n :=
  have h₁ := ctx.length_skip_le ts
  match hs : ctx.skip ts with
  | [] => fail src []
  | t :: rest => do
    have h₂ := Context.length_lt_of_skip hs
    have h₃ : rest.length < n := by omega
    have h₄ := Token.length_dropNewlines_le rest
    match t.kind with
    | .number => return numberSuffix ctx ⟨.atom, t.stop, rest, h₃⟩
    | .text content => return qualify ctx ⟨.text content, t.stop, rest, h₃⟩
    | .rawText => return qualify ctx ⟨.atom, t.stop, rest, h₃⟩
    | .quoted name => return qualify ctx ⟨.ident name, t.stop, rest, h₃⟩
    | .word name => wordExpr src ctx nested name t.start t.stop rest h₃
    | .lambda => functionLiteral src ctx nested t.start (Token.dropNewlines rest) (by omega)
    | .opening .round => do
      have h₅ : (t :: rest).length ≤ n := hs ▸ Nat.le_trans h₁ h
      let ⟨e, stop, rest, h₆⟩ ← bracketed src ctx nested (t :: rest) h₅
      return ⟨.paren e, stop, rest, Nat.lt_of_lt_of_le h₆ h₅⟩
    | .opening .curly => do
      let inner ← enter src ctx .block (t :: rest)
      let ⟨body, stop, rest, h₅⟩ ← statements inner nested [] rest h₃
      return ⟨.block body, stop, rest, h₅⟩
    | .operator op =>
      match op.unary? with
      | none => fail src (t :: rest)
      | some level => do
        let ⟨e, stop, rest, h₅⟩ ← nested ctx level (Token.dropNewlines rest) (by omega)
        return ⟨.unary e, stop, rest, by omega⟩
    | _ => fail src (t :: rest)

/-- The tokens behind the one newline that may follow `$` or `@`, and where the member
expression ends if no name comes. -/
def memberGap (ctx : Context) (stop : Nat) (ts : List Token) :
    Nat × { rest : List Token // rest.length ≤ ts.length } :=
  match ts with
  | ⟨.newline, start, newlineStop⟩ :: rest =>
    if ctx.scope = .group then (stop, ⟨⟨.newline, start, newlineStop⟩ :: rest, Nat.le_refl _⟩)
    else (newlineStop, ⟨rest, by simp⟩)
  | ts => (stop, ⟨ts, Nat.le_refl _⟩)

/-- Goes on after an expression with the calls, indices and members that follow it. -/
def suffixes (ctx : Context) {n : Nat} (nested : Nested n) (p : Parsed Expr n) :
    Outcome Expr n :=
  have h := p.shorter
  match hs : ctx.skip p.rest with
  | ⟨.opening .curly, _, _⟩ :: _ => .ok p
  | ⟨.opening bracket, start, stop⟩ :: rest => do
    have h₁ := Context.length_lt_of_skip hs
    let inner ← enter src ctx .group (⟨.opening bracket, start, stop⟩ :: rest)
    let ⟨args, stop, rest, h₂⟩ ← arguments (n := p.rest.length) src bracket inner
      (fun ctx m ts h => nested ctx m ts (by omega)) [] rest h₁
    let e := if bracket = .round then .call p.value args else .index p.value args
    suffixes ctx nested ⟨e, stop, rest, by omega⟩
  | ⟨.operator .member, _, stop⟩ :: rest =>
    have h₁ := Context.length_lt_of_skip hs
    match memberGap ctx stop rest with
    | (stop, ⟨rest, h₂⟩) =>
      match memberName? ctx rest with
      | some ⟨_, stop, rest, h₃⟩ => suffixes ctx nested ⟨.member p.value, stop, rest, by omega⟩
      | none => suffixes ctx nested ⟨.member p.value, stop, rest, by omega⟩
  | _ => .ok p
termination_by p.rest.length

/-- Goes on after an expression with the binary operators of at least the level `m` that
follow it. -/
def climb (ctx : Context) (m : Nat) {n : Nat} (nested : Nested n) (p : Parsed Expr n) :
    Outcome Expr n :=
  have h := p.shorter
  match hs : ctx.skip p.rest with
  | ⟨.operator op, _, _⟩ :: rest =>
    match op.binary? with
    | some (level, right) =>
      if m ≤ level then do
        have h₁ := Context.length_lt_of_skip hs
        have h₂ := Token.length_dropNewlines_le rest
        let ⟨e, stop, rest, h₃⟩ ← nested ctx right (Token.dropNewlines rest) (by omega)
        climb ctx m nested ⟨.binary op p.value e, stop, rest, by omega⟩
      else .ok p
    | none => .ok p
  | _ => .ok p
termination_by p.rest.length

end Parser

open CallAtlas.Expr.Parser in
/-- Reads the longest expression whose operators have at least the level `m`. -/
def parse (src : Source) (ctx : Context) (m : Nat) (ts : List Token) :
    Outcome Expr ts.length := do
  let nested : Nested ts.length := fun ctx m shorter _ => parse src ctx m shorter
  let p ← primary src ctx nested ts (Nat.le_refl _)
  let p ← suffixes src ctx nested p
  climb ctx m nested p
termination_by ts.length

end Expr

end CallAtlas
