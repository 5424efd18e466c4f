import Mathlib.Data.List.Chain
import Mathlib.Data.List.Pairwise
import CallAtlas.Script
import CallAtlas.Proofs.Expr.Parser
import CallAtlas.Proofs.Token.Scan

/-!
# Where the statements of a script stand

Statements are read from tokens that stand one behind the other, each from the tokens behind those
of the statement before it (`exists_of_readStatements`). So the statements of a text are not empty
and stand one behind the other (`ordered_parse`). A statement ends where one of its tokens stops.
That token is a newline only if a member operator stands before it and in a text
without such an operator (`Token.NoDanglingMember`) no statement ends on a newline
(`placed_parse`). All tokens of the text are read, so none is illegal (`legal_of_parse`).
-/

namespace CallAtlas

/-- No member operator is followed by a newline. -/
def Token.NoDanglingMember (ts : List Token) : Prop :=
  ts.IsChain fun s t => s.kind = .operator .member → t.kind ≠ .newline

instance (ts : List Token) : Decidable (Token.NoDanglingMember ts) :=
  inferInstanceAs (Decidable (ts.IsChain _))

/-- The statement starts where one of the tokens starts and ends where one of them stops. -/
def Statement.ReadFrom (ts : List Token) (s : Statement) : Prop :=
  (∃ t ∈ ts, s.start = t.start) ∧
    ∃ t ∈ ts, s.stop = t.stop ∧ (t.kind = .newline → ¬Token.NoDanglingMember ts)

theorem Statement.ReadFrom.of_suffix {ts ts' : List Token} {s : Statement} (h : s.ReadFrom ts)
    (hts : ts <:+ ts') : s.ReadFrom ts' := by
  obtain ⟨⟨t, ht, hstart⟩, u, hu, hstop, hdangling⟩ := h
  refine ⟨⟨t, hts.mem ht, hstart⟩, u, hts.mem hu, hstop, fun hkind hmember => ?_⟩
  exact hdangling hkind (hmember.suffix hts)

namespace Script

/-- The statements are not empty and stand one behind the other. -/
structure Ordered (script : Script) : Prop where
  start_lt_stop : ∀ s ∈ script.statements, s.start < s.stop
  ordered : script.statements.Pairwise fun s s' => s.stop ≤ s'.start

/-- The statements are not empty, stand one behind the other, and end inside the text on characters
that are no newlines. -/
structure Placed (script : Script) : Prop extends script.Ordered where
  last : ∀ s ∈ script.statements, ∃ c ∈ script.chars[s.stop - 1]?, c ≠ '\n'

/-- Of two statements, one stops before the other starts. -/
theorem Ordered.stop_le_start_or {script : Script} (h : script.Ordered) {s s' : Statement}
    (hs : s ∈ script.statements) (hs' : s' ∈ script.statements) (hne : s.start ≠ s'.start) :
    s.stop ≤ s'.start ∨ s'.stop ≤ s.start := by
  refine List.Pairwise.forall_of_forall_of_flip
    (R := fun s s' => s.start ≠ s'.start → s.stop ≤ s'.start ∨ s'.stop ≤ s.start)
    ?_ ?_ ?_ hs hs' hne
  · exact fun _ _ hne => absurd rfl hne
  · exact h.ordered.imp fun hstop _ => Or.inl hstop
  · exact h.ordered.imp fun hstop _ => Or.inr hstop

/-- The statements are read from the tokens, are not empty and stand one behind the other. -/
structure ReadInOrder (ts : List Token) (statements : List Statement) : Prop where
  start_lt_stop : ∀ s ∈ statements, s.start < s.stop
  ordered : statements.Pairwise fun s s' => s.stop ≤ s'.start
  readFrom : ∀ s ∈ statements, s.ReadFrom ts

section

variable {ts ts' : List Token} {s : Statement} {statements : List Statement}

theorem ReadInOrder.of_suffix (h : ReadInOrder ts statements) (hts : ts <:+ ts') :
    ReadInOrder ts' statements :=
  ⟨h.start_lt_stop, h.ordered, fun s hs => (h.readFrom s hs).of_suffix hts⟩

theorem ReadInOrder.cons (h : ReadInOrder ts statements) (hs : s.ReadFrom ts)
    (hstop : s.start < s.stop) (hbehind : ∀ s' ∈ statements, s.stop ≤ s'.start) :
    ReadInOrder ts (s :: statements) where
  start_lt_stop := List.forall_mem_cons.mpr ⟨hstop, h.start_lt_stop⟩
  ordered := List.pairwise_cons.mpr ⟨hbehind, h.ordered⟩
  readFrom := List.forall_mem_cons.mpr ⟨hs, h.readFrom⟩

end

section

variable {chars : List Char} {src : Source} {found statements : List Statement} {t : Token}
  {ts : List Token}

open Expr.Parser in
/-- An expression is not empty, and the tokens left over stand behind it. -/
theorem start_lt_stop_of_parse {ctx : Context} {m : ℕ} {p : Parsed Expr (t :: ts).length}
    (h : Expr.parse src ctx m (t :: ts) = .ok p) (hts : Token.InOrder chars (t :: ts)) :
    t.start < p.stop ∧ ∀ u ∈ p.rest, p.stop ≤ u.start := by
  obtain ⟨last, hstop, hleft, -, -⟩ := parse_endsIn ctx m _ h
  have hrest := hleft.suffix
  rw [← hstop]
  refine ⟨?_, (List.pairwise_cons.mp (hts.of_suffix hrest).ordered).1⟩
  rcases List.mem_cons.mp (hrest.mem List.mem_cons_self) with rfl | hmem
  · exact (hts.placed _ List.mem_cons_self).start_lt_stop
  · calc
      t.start < t.stop := (hts.placed t List.mem_cons_self).start_lt_stop
      _ ≤ last.start := (List.pairwise_cons.mp hts.ordered).1 last hmem
      _ ≤ last.stop := (hts.placed last (List.mem_cons_of_mem t hmem)).start_lt_stop.le

open Expr.Parser in
theorem readFrom_of_parse {ctx : Context} {m : ℕ} {p : Parsed Expr (t :: ts).length}
    (h : Expr.parse src ctx m (t :: ts) = .ok p) :
    (⟨p.value, t.start, p.stop⟩ : Statement).ReadFrom (t :: ts) := by
  obtain ⟨last, hstop, hleft, -, hmember⟩ := parse_endsIn ctx m _ h
  refine ⟨⟨t, List.mem_cons_self, rfl⟩, last, hleft.suffix.mem List.mem_cons_self, hstop.symm, ?_⟩
  intro hkind hchain
  obtain ⟨s, hs, hbefore⟩ := hmember hkind
  exact (List.isChain_cons_cons.mp (hchain.suffix hbefore.suffix)).1 hs hkind

open Expr.Parser in
/-- The statements read after `found` are read from the tokens, one behind the other. -/
theorem exists_of_readStatements (h : readStatements src found ts = .ok statements)
    (hts : Token.InOrder chars ts) :
    ∃ more, statements = found.reverse ++ more ∧ ReadInOrder ts more := by
  fun_induction readStatements src found ts with
  | case1 =>
    cases h
    exact ⟨[], (List.append_nil _).symm, nofun, List.Pairwise.nil, nofun⟩
  | case2 _ _ _ rest ih | case3 _ _ _ rest ih =>
    obtain ⟨more, hmore, hread⟩ := ih h (hts.of_suffix (List.suffix_cons _ rest))
    exact ⟨more, hmore, hread.of_suffix (List.suffix_cons _ rest)⟩
  | case4 found t ts _ _ ih =>
    obtain ⟨⟨e, stop, rest, hlt⟩, hparse, h⟩ := bind_eq_ok h
    have hrest := (parse_endsIn _ _ _ hparse).left.suffix
    obtain ⟨more, rfl, hread⟩ := ih e stop rest hlt h (hts.of_suffix hrest)
    obtain ⟨hstop, hbehind⟩ := start_lt_stop_of_parse hparse hts
    refine ⟨⟨e, t.start, stop⟩ :: more, by simp, ?_⟩
    refine (hread.of_suffix hrest).cons (readFrom_of_parse hparse) hstop fun s hs => ?_
    obtain ⟨u, hu, hstart⟩ := (hread.readFrom s hs).1
    exact hstart ▸ hbehind u hu

open Expr.Parser in
/-- Statements are read from tokens of the language. -/
theorem legal_of_readStatements (h : readStatements src found ts = .ok statements) :
    ∀ t ∈ ts, t.kind ≠ .illegal := by
  fun_induction readStatements src found ts with
  | case1 => simp
  | case2 _ _ _ rest ih | case3 _ _ _ rest ih => exact List.forall_mem_cons.mpr ⟨by simp, ih h⟩
  | case4 found t ts _ _ ih =>
    obtain ⟨⟨e, stop, rest, hlt⟩, hparse, h⟩ := bind_eq_ok h
    obtain ⟨read, hread, hlegal⟩ := (parse_endsIn _ _ _ hparse).left
    rw [hread]
    exact List.forall_mem_append.mpr ⟨hlegal, ih e stop rest hlt h⟩

end

section

variable {text : String} {script : Script}

theorem chars_parse (h : parse text = .ok script) : script.chars = text.toList := by
  obtain ⟨statements, -, h⟩ := bind_eq_ok h
  cases h
  rfl

theorem readInOrder_parse (h : parse text = .ok script) :
    ReadInOrder (Token.scan text.toList).tokens script.statements := by
  obtain ⟨statements, hread, h⟩ := bind_eq_ok h
  cases h
  obtain ⟨more, rfl, hmore⟩ := exists_of_readStatements hread (Token.inOrder_scan text.toList)
  exact hmore

theorem legal_of_parse (h : parse text = .ok script) :
    ∀ t ∈ (Token.scan text.toList).tokens, t.kind ≠ .illegal := by
  obtain ⟨statements, hread, -⟩ := bind_eq_ok h
  exact legal_of_readStatements hread

theorem ordered_parse (h : parse text = .ok script) : script.Ordered :=
  ⟨(readInOrder_parse h).start_lt_stop, (readInOrder_parse h).ordered⟩

theorem placed_parse (h : parse text = .ok script)
    (hmember : Token.NoDanglingMember (Token.scan text.toList).tokens) : script.Placed where
  toOrdered := ordered_parse h
  last s hs := by
    obtain ⟨-, t, ht, hstop, hnewline⟩ := (readInOrder_parse h).readFrom s hs
    rw [chars_parse h, hstop]
    exact ((Token.inOrder_scan text.toList).placed t ht).last fun hkind => hnewline hkind hmember

end

end Script

end CallAtlas
