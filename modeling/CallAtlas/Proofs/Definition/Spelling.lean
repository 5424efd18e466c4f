import CallAtlas.Proofs.Definition
import CallAtlas.Proofs.Expr.Assignment

/-!
# The spellings of a definition

A function literal can be bound to a name in many ways (`Spelling`): with any of the arrows, in any
number of round brackets, with blanks, newlines and comments around it and in the brackets, and with
the name as a word, in backticks or as a string. A file with nothing but such a spelling defines the
literal under the name (`Spelling.exists_extract`), so name, parameters, signature, body and call
targets do not depend on the way it is written.

The parts of the text are scanned apart, and the tokens are read as an assignment of the literal in
its brackets to the name. There are two limits. In front of a right arrow a literal stands in
brackets, for otherwise the arrow belongs to its body (`Script.ne_assignment_of_mem`). And no more
brackets are open at once than the parser allows.
-/

namespace CallAtlas

open Expr.Parser (Scope Closed Enclosed Relocation maxDepth)
open Token (Gap Ending HeadIs ScansTo)

/-! ## The parts -/

/-- The text is one token that spells the name. -/
def Token.IsName (name : String) (cs : List Char) : Prop :=
  ∃ kind : Kind, kind.Names name ∧ (scan cs).tokens = [⟨kind, 0, cs.length⟩]

/-- The text is the function literal from its first character to its last, at the top level or in a
bracket. Where a member operator ends a line of it, its name starts the next one. -/
structure FunctionLiteral.WrittenAs (f : FunctionLiteral) (scope : Scope) (text : List Char) :
    Prop where
  parse : ∃ hlt, Expr.parse ⟨text, (Token.scan text).finish⟩ ⟨scope, 0⟩ 0 (Token.scan text).tokens =
    .ok ⟨f.expr, text.length, [], hlt⟩
  scope : scope = .top ∨ scope = .group
  first : ∃ t ∈ (Token.scan text).tokens.head?, t.start = 0 ∧ t.kind ≠ .newline
  member : Expr.Parser.membersFollowed (Token.scan text).tokens = true

/-- The text in `k` round brackets, with blanks, newlines and comments inside each of them. -/
inductive Wrapped (text : List Char) : ℕ → List Char → Prop
  | bare : Wrapped text 0 text
  | round {k : ℕ} {before inner after : List Char} : Gap before → Wrapped text k inner →
      Gap after → Wrapped text (k + 1) ('(' :: (before ++ inner ++ (after ++ [')'])))

/-- A way to write that the function literal is bound to the name. The literal is `text`, and with
its brackets it is `value`. In front of the operator `sign` stand `blanks` without a newline, and
what stands `behind` it may hold some. -/
structure Spelling (name : String) (f : FunctionLiteral) where
  arrow : Arrow
  op : Operator
  scope : Scope
  brackets : ℕ
  (lead target blanks sign behind text value tail : List Char)
  op_bindsWith : op.BindsWith arrow
  name_ne : name ≠ ""
  lead_gap : Gap lead
  target_isName : Token.IsName name target
  blanks_gap : Gap blanks
  newline_not_mem_blanks : '\n' ∉ blanks
  sign_mem : (sign, op) ∈ Operator.spellings
  behind_gap : Gap behind
  text_writtenAs : f.WrittenAs scope text
  value_wrapped : Wrapped text brackets value
  scope_of_bare : brackets = 0 → scope = .top ∧ arrow ≠ .right
  depth_le : brackets + f.expr.bracketDepth ≤ maxDepth
  tail_ending : Ending tail

/-- The whole text. In front of a right arrow stands the value. -/
def Spelling.chars {name : String} {f : FunctionLiteral} (s : Spelling name f) : List Char :=
  match s.arrow with
  | .left | .equals =>
    s.lead ++ (s.target ++ (s.blanks ++ (s.sign ++ (s.behind ++ (s.value ++ s.tail)))))
  | .right => s.lead ++ (s.value ++ (s.blanks ++ (s.sign ++ (s.behind ++ (s.target ++ s.tail)))))

/-! ## Scanning -/

section

variable {name : String} {f : FunctionLiteral} {scope : Scope} {k start : ℕ}
  {cs text value back : List Char}

/-- The first character of a name or of a function literal starts neither an operator nor the
mark in front of a text. -/
def Plain (cs : List Char) : Prop :=
  cs ≠ [] ∧ HeadIs (fun c => c ≠ '\uFEFF' ∧ c ∉ Token.signs) cs

theorem Plain.append (h : Plain cs) (back : List Char) : Plain (cs ++ back) := by
  obtain ⟨hne, hhead⟩ := h
  obtain ⟨c, rest, rfl⟩ := List.exists_cons_of_ne_nil hne
  exact ⟨by simp, hhead⟩

theorem plain_gap {gap : List Char} (h : Gap gap) (hcs : Plain cs) : Plain (gap ++ cs) :=
  ⟨by simp [hcs.1], h.headIs (by simp [Token.breaks, Token.signs]) hcs.2⟩

theorem plain_of_first (hfirst : ∃ t ∈ (Token.scan cs).tokens.head?, t.start = 0)
    (hkind : ∀ t ∈ (Token.scan cs).tokens.head?, ∀ op, t.kind ≠ .operator op) : Plain cs := by
  obtain ⟨t, ht, hstart⟩ := hfirst
  have hmark := Token.head_ne_mark ⟨t, List.mem_of_mem_head? ht, hstart⟩
  have hscan := Token.tokens_scan fun hhead => hmark _ hhead rfl
  rw [hscan] at ht hkind
  have hsigns := Token.head_not_mem_signs hkind
  refine ⟨?_, fun c hc => ⟨hmark c hc, hsigns c hc⟩⟩
  rintro rfl
  rw [Token.tokensFrom_nil] at ht
  cases ht

theorem Plain.tokens_scan (h : Plain cs) : (Token.scan cs).tokens = Token.tokensFrom 0 cs :=
  Token.tokens_scan fun hhead => (h.2 _ hhead).1 rfl

theorem Token.IsName.plain (h : IsName name cs) : Plain cs := by
  obtain ⟨kind, hkind, hscan⟩ := h
  refine plain_of_first ⟨⟨kind, 0, cs.length⟩, by rw [hscan]; rfl, rfl⟩ ?_
  rw [hscan]
  rintro t ht op hop
  cases ht
  cases hop
  cases hkind

theorem Token.IsName.scansTo (h : IsName name cs) : ∃ kind : Kind, kind.Names name ∧
    ∀ start back, HeadIs (· ∈ stops) back →
      ScansTo start cs back [⟨kind, start, start + cs.length⟩] := by
  have hplain := h.plain
  obtain ⟨kind, hkind, hscan⟩ := h
  rw [hplain.tokens_scan] at hscan
  refine ⟨kind, hkind, fun start back hback => ?_⟩
  have htokens : tokensFrom start cs = [⟨kind, start, start + cs.length⟩] := by
    rw [← Nat.zero_add start, tokensFrom_add, hscan]
    simp [shift, Nat.add_comm]
  rw [← htokens]
  refine scansTo_of_last hback ?_ ?_
  · rw [htokens]
    rintro t ht
    rw [List.mem_singleton.mp ht]
    refine ⟨?_, ?_⟩
    · rintro rfl
      cases hkind
    · rintro op rfl
      cases hkind
  · rw [htokens]
    exact ⟨_, rfl, rfl⟩

/-- A name ends where the sign of an assignment to the left starts. -/
theorem Operator.BindsWith.headIs_stops {op : Operator} {arrow : Arrow} (h : op.BindsWith arrow)
    (harrow : arrow ≠ .right) (hsign : (cs, op) ∈ Operator.spellings) (back : List Char) :
    HeadIs (· ∈ Token.stops) (cs ++ back) := by
  have hleft : ∀ s ∈ Operator.spellings, s.2 = .assign ∨ s.2 = .superAssign ∨ s.2 = .equals →
      s.1.head?.any (· ∈ Token.stops) = true := by
    decide
  have hop : op = .assign ∨ op = .superAssign ∨ op = .equals := by
    cases h <;> simp_all
  obtain ⟨c, hc, hstop⟩ := (Option.any_eq_true _ _).mp (hleft _ hsign hop)
  obtain ⟨rest, rfl⟩ := List.head?_eq_some_iff.mp hc
  rintro d hd
  cases hd
  exact of_decide_eq_true hstop

theorem FunctionLiteral.WrittenAs.plain (h : f.WrittenAs scope text) : Plain text := by
  obtain ⟨t, ht, hstart, hnewline⟩ := h.first
  obtain ⟨_, hparse⟩ := h.parse
  have hskip : (⟨scope, 0⟩ : Expr.Parser.Context).skip (Token.scan text).tokens =
      (Token.scan text).tokens := by
    refine Expr.Parser.Context.skip_of_head fun u hu => ?_
    cases ht.symm.trans hu
    exact hnewline
  have hkind := Expr.Parser.ne_operator_of_primary (Expr.Parser.primary_of_parse hparse rfl) rfl
  rw [hskip] at hkind
  exact plain_of_first ⟨t, ht, hstart⟩ hkind

theorem FunctionLiteral.WrittenAs.exists_last (h : f.WrittenAs scope text) :
    ∃ read last, (Token.scan text).tokens = read ++ [last] ∧ last.stop = text.length ∧
      ∀ t ∈ (Token.scan text).tokens, t.kind ≠ .illegal := by
  obtain ⟨_, hparse⟩ := h.parse
  obtain ⟨last, hstop, ⟨read, hread, hlegal⟩, hlast, -⟩ := Expr.Parser.parse_endsIn _ _ _ hparse
  refine ⟨read, last, hread, hstop, ?_⟩
  rw [hread]
  exact List.forall_mem_append.mpr ⟨hlegal, by simpa using hlast⟩

theorem FunctionLiteral.WrittenAs.scansTo (h : f.WrittenAs scope text)
    (hback : HeadIs (· ∈ Token.breaks) back) (start : ℕ) :
    ScansTo start text back ((Token.scan text).tokens.map (Token.shift start)) := by
  obtain ⟨read, last, hread, hstop, hlegal⟩ := h.exists_last
  have htokens :
      (Token.scan text).tokens.map (Token.shift start) = Token.tokensFrom start text := by
    rw [h.plain.tokens_scan, ← Token.tokensFrom_add, Nat.zero_add]
  rw [htokens]
  refine Token.scansTo_of_last (fun c hc => ?_) ?_ ?_
  · exact Token.mem_stops_of_mem_breaks (hback c hc)
  · rw [← htokens]
    exact List.forall_mem_map.mpr fun t ht => ⟨hlegal t ht, fun op _ => hback⟩
  · rw [← htokens, hread]
    refine ⟨last.shift start, by simp, ?_⟩
    rw [Token.shift, hstop]
    exact Nat.add_comm _ _

theorem FunctionLiteral.WrittenAs.stop_le (h : f.WrittenAs scope text) :
    ∀ t ∈ (Token.scan text).tokens, t.stop ≤ text.length := by
  obtain ⟨read, last, hread, hstop, -⟩ := h.exists_last
  have horder := Token.inOrder_scan text
  rw [hread] at horder ⊢
  rw [← hstop]
  refine List.forall_mem_append.mpr ⟨fun t ht => ?_, by simp⟩
  calc
    t.stop ≤ last.start := (List.pairwise_append.mp horder.ordered).2.2 t ht last (by simp)
    _ ≤ last.stop := (horder.placed last (by simp)).start_lt_stop.le

theorem slice_append {front tail : List Char} {stop : ℕ} (hstop : stop ≤ text.length) (start : ℕ) :
    Text.slice (front ++ text ++ tail) (start + front.length) (stop + front.length) =
      Text.slice text start stop := by
  have hlength : stop + front.length - (start + front.length) = stop - start := by omega
  have hle : stop - start ≤ (text.drop start).length := by
    rw [List.length_drop]
    omega
  rw [Text.slice, Text.slice, hlength, List.append_assoc, Nat.add_comm start,
    List.drop_length_add_append, List.drop_append, List.take_append_of_le_length hle]

/-- The place of a text inside another one. -/
def placeOf (text : List Char) (src : Source) (offset : ℕ) : Relocation where
  source := ⟨text, (Token.scan text).finish⟩
  target := src
  offset := offset
  behind := []
  closed := Expr.Parser.closed_of_newlines (List.forall_mem_nil _)

theorem FunctionLiteral.WrittenAs.reads (h : f.WrittenAs scope text) {src : Source}
    {front tail : List Char} (hsrc : src.chars = front ++ text ++ tail) :
    (placeOf text src front.length).Reads scope (Token.scan text).tokens f.expr where
  parse m := by
    obtain ⟨hlt, hparse⟩ := h.parse
    have hprimary := Expr.Parser.primary_of_parse hparse rfl
    have hstopped := (placeOf text src front.length).closed.stopped_skip ⟨scope, 0⟩
    exact ⟨_, hlt,
      Expr.Parser.parse_of_primary hprimary hstopped.endsSuffixes (hstopped.endsClimb m)⟩
  fits := by
    refine ⟨fun t ht start => ?_, h.member⟩
    change Text.slice src.chars _ _ = _
    rw [hsrc]
    exact slice_append (h.stop_le t ht) start
  scope := h.scope
  head := by
    obtain ⟨t, ht, -, hkind⟩ := h.first
    exact ⟨t, ht, hkind⟩

theorem Wrapped.plain (h : Wrapped text k value) (hf : f.WrittenAs scope text) : Plain value := by
  cases h with
  | bare => exact hf.plain
  | round => exact ⟨by simp, by simp [HeadIs, Token.signs]⟩

theorem Wrapped.scansTo (h : Wrapped text k value) (hf : f.WrittenAs scope text) (start : ℕ)
    (hback : k = 0 → HeadIs (· ∈ Token.breaks) back) :
    ∃ front tail tokens, value = front ++ text ++ tail ∧ ScansTo start value back tokens ∧
      Enclosed ((Token.scan text).tokens.map (Token.shift (start + front.length))) k tokens := by
  induction h generalizing start back with
  | bare => exact ⟨[], [], _, by simp, hf.scansTo (hback rfl) start, .bare⟩
  | @round k before inner after hbefore hinner hafter ih =>
    have hclosing : HeadIs (· ∈ Token.breaks) (after ++ [')'] ++ back) := by
      rw [List.append_assoc]
      exact hafter.headIs (fun _ => id) (by simp [HeadIs, Token.breaks])
    obtain ⟨front, tail, tokens, rfl, htokens, henclosed⟩ :=
      ih (start + 1 + before.length) fun _ => hclosing
    refine ⟨'(' :: (before ++ front), tail ++ (after ++ [')']), _, by simp,
      (Token.opening_scansTo start _).append (((hbefore.scansTo _ _).append htokens).append
        ((hafter.scansTo _ _).append (Token.closing_scansTo _ back))), ?_⟩
    have hoffset : start + ('(' :: (before ++ front)).length =
        start + 1 + before.length + front.length := by
      simp only [List.length_cons, List.length_append]
      omega
    rw [hoffset]
    exact .round (hbefore.newlines _) henclosed (hafter.newlines _)

end

/-! ## Statements -/

namespace Script

variable {src : Source} {found : List Statement} {e : Expr} {before ts tail : List Token}

theorem readStatements_append (h : ∀ t ∈ before, t.kind = .newline) (src : Source)
    (found : List Statement) (ts : List Token) :
    readStatements src found (before ++ ts) = readStatements src found ts := by
  induction before with
  | nil => rfl
  | cons t before ih =>
    obtain ⟨ht, hbefore⟩ := List.forall_mem_cons.mp h
    obtain ⟨kind, start, stop⟩ := t
    obtain rfl : kind = .newline := ht
    rw [List.cons_append, readStatements, ih hbefore]

/-- Newlines around a statement do not matter. -/
theorem exists_readStatements (hbefore : ∀ t ∈ before, t.kind = .newline)
    (htail : ∀ t ∈ tail, t.kind = .newline)
    (h : ∃ stop hlt, Expr.parse src ⟨.top, 0⟩ 0 ts = .ok ⟨e, stop, tail, hlt⟩) :
    ∃ s : Statement, s.expr = e ∧ readStatements src [] (before ++ ts) = .ok [s] := by
  obtain ⟨stop', _, h⟩ := h
  obtain ⟨⟨kind, start, stop⟩, rest, hts, hnewline, hsemicolon⟩ := Expr.Parser.parse_starts h
  rw [Expr.Parser.Context.skip_top] at hts
  subst hts
  have hend := readStatements_append htail src [⟨e, start, stop'⟩] []
  rw [List.append_nil, readStatements] at hend
  refine ⟨⟨e, start, stop'⟩, rfl, ?_⟩
  rw [readStatements_append hbefore, readStatements]
  · exact Expr.Parser.bind_ok h hend
  · rintro _ _ ⟨⟩
    exact hnewline rfl
  · rintro _ _ ⟨⟩
    exact hsemicolon rfl

theorem parse_of_readStatements {chars : List Char} {statements : List Statement}
    (h : readStatements ⟨chars, (Token.scan chars).finish⟩ [] (Token.scan chars).tokens =
      .ok statements) : parse (String.ofList chars) = .ok ⟨chars, statements⟩ := by
  rw [parse, String.toList_ofList]
  exact Expr.Parser.bind_ok h rfl

/-- Every statement is an expression that is read from some of the tokens. -/
theorem exists_parse_of_readStatements {statements : List Statement}
    (h : readStatements src found ts = .ok statements) : ∀ s ∈ statements, s ∈ found ∨
      ∃ ts p, Expr.parse src ⟨.top, 0⟩ 0 ts = .ok p ∧ p.value = s.expr := by
  fun_induction readStatements src found ts with
  | case1 =>
    cases h
    exact fun s hs => Or.inl (List.mem_reverse.mp hs)
  | case2 _ _ _ _ ih | case3 _ _ _ _ ih => exact ih h
  | case4 found t ts _ _ ih =>
    obtain ⟨⟨e, stop, rest, hlt⟩, hparse, h⟩ := bind_eq_ok h
    intro s hs
    rcases ih e stop rest hlt h s hs with hfound | hread
    · rcases List.mem_cons.mp hfound with rfl | hfound
      · exact Or.inr ⟨_, _, hparse, rfl⟩
      · exact Or.inl hfound
    · exact Or.inr hread

theorem ne_assignment_of_mem {text : String} {script : Script} {s : Statement} {op : Operator}
    (h : parse text = .ok script) (hs : s ∈ script.statements) (hop : op.BindsWith .right)
    (f : FunctionLiteral) (target : Expr) : s.expr ≠ .binary op f.expr target := by
  obtain ⟨statements, hread, h⟩ := bind_eq_ok h
  cases h
  rcases exists_parse_of_readStatements hread s hs with hfound | ⟨ts, p, hparse, hp⟩
  · cases hfound
  · exact hp ▸ Expr.Parser.ne_assignment_of_parse hparse hop

end Script

namespace Spelling

variable {name : String} {f : FunctionLiteral} (s : Spelling name f)

/-- The text that is scanned and the end of it. -/
def source : Source :=
  ⟨s.chars, (Token.scan s.chars).finish⟩

theorem chars_of_ne (h : s.arrow ≠ .right) : s.chars =
    s.lead ++ (s.target ++ (s.blanks ++ (s.sign ++ (s.behind ++ (s.value ++ s.tail))))) := by
  unfold chars
  split
  · rfl
  · rfl
  · contradiction

theorem chars_of_eq (h : s.arrow = .right) : s.chars =
    s.lead ++ (s.value ++ (s.blanks ++ (s.sign ++ (s.behind ++ (s.target ++ s.tail))))) := by
  rw [chars, h]

/-- The tokens of the value, and where those of the literal are in it. -/
theorem exists_reads (front : List Char) (start : ℕ) {back : List Char}
    (hchars : s.chars = front ++ (s.value ++ back)) (hstart : start = front.length)
    (hback : s.brackets = 0 → HeadIs (· ∈ Token.breaks) back) :
    ∃ (r : Relocation) (tokens : List Token), r.target = s.source ∧
      r.Reads s.scope (Token.scan s.text).tokens f.expr ∧
      Enclosed ((Token.scan s.text).tokens.map (Token.shift r.offset)) s.brackets tokens ∧
      ScansTo start s.value back tokens := by
  obtain ⟨inside, behind, tokens, hvalue, htokens, henclosed⟩ :=
    s.value_wrapped.scansTo s.text_writtenAs start hback
  have hsource : s.source.chars = front ++ inside ++ s.text ++ (behind ++ back) := by
    rw [source, hchars, hvalue]
    simp
  refine ⟨_, tokens, rfl, s.text_writtenAs.reads hsource, ?_, htokens⟩
  rw [placeOf, List.length_append, ← hstart]
  exact henclosed

/-- The text is one statement, which is the expression. -/
def Makes (e : Expr) : Prop :=
  ∃ statement : Statement, statement.expr = e ∧
    Script.parse (String.ofList s.chars) = .ok ⟨s.chars, [statement]⟩

theorem makes_of_tokens {src : Source} {e : Expr} {before ts tail : List Token}
    (hsrc : src = s.source) (htokens : (Token.scan s.chars).tokens = before ++ ts)
    (hbefore : ∀ t ∈ before, t.kind = .newline)
    (h : ∃ stop hlt, Expr.parse src ⟨.top, 0⟩ 0 ts = .ok ⟨e, stop, tail, hlt⟩)
    (htail : ∀ t ∈ tail, t.kind = .newline) : s.Makes e := by
  subst hsrc
  obtain ⟨statement, hexpr, hread⟩ := Script.exists_readStatements hbefore htail h
  rw [← htokens] at hread
  exact ⟨statement, hexpr, Script.parse_of_readStatements hread⟩

/-- No sign follows the operator. -/
theorem not_signs_behind {cs : List Char} (h : Plain cs) (back : List Char) :
    HeadIs (· ∉ Token.signs) (s.behind ++ (cs ++ back)) :=
  fun c hc => ((plain_gap s.behind_gap (h.append back)).2 c hc).2

theorem makes_left (harrow : s.arrow ≠ .right) : ∃ target, Expr.Spells name target ∧
    s.Makes (.assignment s.arrow s.op target (Expr.paren^[s.brackets] f.expr)) := by
  have hchars := s.chars_of_ne harrow
  obtain ⟨kind, hname, hkind⟩ := s.target_isName.scansTo
  obtain ⟨r, tokens, htarget, hreads, henclosed, hvalue⟩ :=
    s.exists_reads (s.lead ++ s.target ++ s.blanks ++ s.sign ++ s.behind)
      (0 + s.lead.length + s.target.length + s.blanks.length + s.sign.length + s.behind.length)
      (by simp [hchars]) (by simp [Nat.add_assoc]) (fun _ => s.tail_ending.headIs)
  have hplain : Plain s.chars := by
    rw [hchars]
    exact plain_gap s.lead_gap (s.target_isName.plain.append _)
  have hstops : HeadIs (· ∈ Token.stops)
      (s.blanks ++ (s.sign ++ (s.behind ++ (s.value ++ s.tail)))) :=
    s.blanks_gap.headIs (fun _ => Token.mem_stops_of_mem_breaks)
      (s.op_bindsWith.headIs_stops harrow s.sign_mem _)
  have hsigns := s.not_signs_behind (s.value_wrapped.plain s.text_writtenAs) s.tail
  have htokens := hplain.tokens_scan.trans (congrArg (Token.tokensFrom 0) hchars)
  rw [s.lead_gap.scansTo, hkind _ _ hstops, s.blanks_gap.scansTo,
    s.blanks_gap.tokensFrom_eq_nil s.newline_not_mem_blanks, List.nil_append,
    Token.operator_scansTo s.sign_mem hsigns, s.behind_gap.scansTo, hvalue, List.singleton_append,
    List.singleton_append] at htokens
  exact ⟨kind.nameExpr, hname.spells, s.makes_of_tokens htarget htokens (s.lead_gap.newlines 0)
    (Expr.Parser.parse_assignment_left hreads henclosed (fun h => (s.scope_of_bare h).1) s.depth_le
      s.op_bindsWith harrow hname (s.behind_gap.newlines _) (s.tail_ending.newlines _))
    (s.tail_ending.newlines _)⟩

theorem makes_right (harrow : s.arrow = .right) : ∃ target, Expr.Spells name target ∧
    s.Makes (.assignment .right s.op target (Expr.paren^[s.brackets] f.expr)) := by
  have hchars := s.chars_of_eq harrow
  have hne : s.brackets ≠ 0 := fun h => (s.scope_of_bare h).2 harrow
  obtain ⟨kind, hname, hkind⟩ := s.target_isName.scansTo
  obtain ⟨r, tokens, htarget, hreads, henclosed, hvalue⟩ :=
    s.exists_reads s.lead (0 + s.lead.length) hchars (Nat.zero_add _) (fun h => absurd h hne)
  have hplain : Plain s.chars := by
    rw [hchars]
    exact plain_gap s.lead_gap ((s.value_wrapped.plain s.text_writtenAs).append _)
  have hstops : HeadIs (· ∈ Token.stops) s.tail :=
    fun c hc => Token.mem_stops_of_mem_breaks (s.tail_ending.headIs c hc)
  have hsigns := s.not_signs_behind s.target_isName.plain s.tail
  have htokens := hplain.tokens_scan.trans (congrArg (Token.tokensFrom 0) hchars)
  rw [s.lead_gap.scansTo, hvalue, s.blanks_gap.scansTo,
    s.blanks_gap.tokensFrom_eq_nil s.newline_not_mem_blanks,
    Token.operator_scansTo s.sign_mem hsigns, s.behind_gap.scansTo, hkind _ _ hstops] at htokens
  exact ⟨kind.nameExpr, hname.spells, s.makes_of_tokens htarget htokens (s.lead_gap.newlines 0)
    (Expr.Parser.parse_assignment_right hreads henclosed hne s.depth_le (harrow ▸ s.op_bindsWith)
      hname (s.behind_gap.newlines _) (s.tail_ending.newlines _))
    (s.tail_ending.newlines _)⟩

/-- A spelling reads as the assignment of the literal, in its brackets, to the name. -/
theorem exists_parse : ∃ target, Expr.Spells name target ∧
    s.Makes (.assignment s.arrow s.op target (Expr.paren^[s.brackets] f.expr)) := by
  by_cases harrow : s.arrow = .right
  · rw [harrow]
    exact s.makes_right harrow
  · exact s.makes_left harrow

/-- A file that holds nothing but a spelling defines the function under the name. -/
theorem exists_extract (path : Path) :
    ∃ d, SourceFile.extract ⟨path, String.ofList s.chars⟩ = .ok [d] ∧ d.Describes name f := by
  obtain ⟨target, hspells, statement, hexpr, hparse⟩ := s.exists_parse
  have hmade : (⟨name, s.arrow, f⟩ : Binding).MadeBy statement.expr :=
    ⟨s.op, target, s.brackets, s.op_bindsWith, hspells, s.name_ne, hexpr⟩
  obtain ⟨d, hd, hdescribes⟩ := SourceFile.exists_definition?_of_madeBy hmade path
    ⟨s.chars, [statement]⟩ (Text.lines s.chars)
  refine ⟨d, Expr.Parser.bind_ok hparse ?_, hdescribes⟩
  rw [SourceFile.definitions, List.filterMap_cons_some hd]
  rfl

end Spelling

/-! ## Bindings -/

theorem exists_writtenAs_call : ∃ f : FunctionLiteral, f.params = ["x"] ∧
    f.text = ⟨"(x)", "function(x) g(x)"⟩ ∧ f.expr.bracketDepth = 1 ∧
    f.WrittenAs .top "function(x) g(x)".toList := by
  have hread : (Expr.parse ⟨"function(x) g(x)".toList, 16⟩ ⟨.top, 0⟩ 0
      (Token.scan "function(x) g(x)".toList).tokens).toOption.map (fun p =>
        (p.value.literal?.map fun f => (f.params, f.text, f.expr.bracketDepth), p.stop, p.rest)) =
      some (some (["x"], ⟨"(x)", "function(x) g(x)"⟩, 1), 16, []) := by
    decide +kernel
  have hfinish : (Token.scan "function(x) g(x)".toList).finish = 16 := by decide +kernel
  cases hparse : Expr.parse ⟨"function(x) g(x)".toList, 16⟩ ⟨.top, 0⟩ 0
      (Token.scan "function(x) g(x)".toList).tokens with
  | error e =>
    rw [hparse] at hread
    cases hread
  | ok p =>
    obtain ⟨e, stop, rest, hlt⟩ := p
    rw [hparse] at hread
    simp only [Except.toOption, Option.map_some, Option.some.injEq, Prod.mk.injEq] at hread
    obtain ⟨he, rfl, rfl⟩ := hread
    obtain ⟨f, hf, hfields⟩ := Option.map_eq_some_iff.mp he
    obtain rfl := Expr.literal?_eq_some_iff.mp hf
    simp only [Prod.mk.injEq] at hfields
    exact ⟨f, hfields.1, hfields.2.1, hfields.2.2, ⟨hlt, hfinish ▸ hparse⟩, Or.inl rfl,
      by decide +kernel, by decide +kernel⟩

theorem exists_parse_bare : ∃ script s, Script.parse "function(x) g(x) -> f" = .ok script ∧
    script.statements = [s] := by
  have hlength : (Script.parse "function(x) g(x) -> f").toOption.map (·.statements.length) =
      some 1 := by
    decide +kernel
  cases hparse : Script.parse "function(x) g(x) -> f" with
  | error e =>
    rw [hparse] at hlength
    cases hlength
  | ok script =>
    rw [hparse] at hlength
    obtain ⟨s, hs⟩ := List.length_eq_one_iff.mp (Option.some.inj hlength)
    exact ⟨script, s, rfl, hs⟩

/-- Without brackets around the literal a right arrow belongs to its body. -/
example : (SourceFile.extract ⟨⟨"a.R"⟩, "function(x) g(x) -> f"⟩).toOption.map
    (fun ds => ds.map Definition.name) = some [] := by
  decide +kernel

end CallAtlas
