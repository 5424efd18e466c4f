import CallAtlas.Proofs.Definition
import CallAtlas.Proofs.Documentation
import CallAtlas.Proofs.Token.Comment

/-!
# Documentation and the statements of a file

The documentation of a definition is read from the lines above it, whatever stands on them. The
lines of another statement are among them only if that statement ends on the line that the
definition starts on, or if it ends on a line that looks like a comment and is not one, or not to
its end (`Script.EndsOnCommentLine`). `statement_in_blockAbove` states that nothing else leads
there.
-/

namespace CallAtlas

open Text

theorem eq_ok_of_mem_toOption {ε α : Type} {x : Except ε α} {a : α} (h : a ∈ x.toOption) :
    x = .ok a := by
  cases x with
  | error e => cases h
  | ok b => exact congrArg Except.ok (Option.some.inj h)

/-- The line that a statement ends on starts with a comment sign. The statement reaches it with a
newline behind a member operator, or it stands there behind a carriage return, or behind the end of
a string or a quoted name that starts above. -/
def Script.EndsOnCommentLine (script : Script) (s : Statement) : Prop :=
  let ts := (Token.scan script.chars).tokens
  ∃ line, (Text.lines script.chars)[script.endLine s - 1]? = some line ∧ ¬IsStopLine line ∧
    ((¬Token.NoDanglingMember ts ∧ ∃ t ∈ ts, t.kind = .newline ∧ t.stop = s.stop) ∨
      '\r' ∈ line ∨
      ∃ t ∈ ts, t.kind.IsQuoted ∧ t.stop ≤ s.stop ∧
        lineAt script.chars t.start < script.endLine s ∧
        lineAt script.chars t.stop = script.endLine s)

namespace SourceFile

section

variable {text : String} {script : Script} {s : Statement} {line : List Char}

/-- A statement of a script that ends on a line with a comment sign in front reaches that line in
one of the three ways. -/
theorem endsOnCommentLine (hparse : Script.parse text = .ok script) (hs : s ∈ script.statements)
    (hline : (Text.lines script.chars)[script.endLine s - 1]? = some line)
    (hclear : ¬IsStopLine line) : script.EndsOnCommentLine s := by
  refine ⟨line, hline, hclear, ?_⟩
  obtain ⟨-, t, ht, hstop, hdangling⟩ := (Script.readInOrder_parse hparse).readFrom s hs
  have hlegal := Script.legal_of_parse hparse
  rw [← Script.chars_parse hparse] at ht hdangling hlegal
  by_cases hkind : t.kind = .newline
  · exact Or.inl ⟨hdangling hkind, t, ht, hkind, hstop.symm⟩
  refine Or.inr ?_
  have hsign : (line.find? fun c => !isBlank c) = some '#' := by
    by_contra hne
    exact hclear (Or.inl hne)
  have hend : lineAt script.chars t.stop = script.endLine s := by
    rw [← hstop]
    rfl
  have hpos : script.endLine s - 1 + 1 = script.endLine s :=
    Nat.sub_add_cancel (Nat.le_add_right 1 _)
  obtain ⟨p, hp⟩ := Token.exists_commentSign hline hsign
  rw [hpos] at hp
  rcases Token.return_or_isQuoted_of_commentSign hlegal hp ht hkind hend with
    ⟨i, hi, hnext, hlineAt⟩ | ⟨u, hu, hquoted, hle, hstart, hu'⟩
  · obtain ⟨line', hline', hreturn⟩ := return_mem_line hi hnext
    rw [hlineAt, hline] at hline'
    cases hline'
    exact Or.inl hreturn
  · exact Or.inr ⟨u, hu, hquoted, hstop.symm ▸ hle, hstart, hu'⟩

end

/-- The documentation of a definition is read from the lines directly above it. If one of these
belongs to another statement, then this statement stands before the definition. It ends on the line
that the definition starts on, or on a line that starts with a comment sign, which it reaches with a
newline behind a member operator, behind a carriage return, or behind a string or a quoted name that
starts above. -/
theorem statement_in_blockAbove {file : SourceFile} {ds : List Definition}
    (h : file.extract = .ok ds) :
    ∃ script, Script.parse file.text = .ok script ∧
      let lines := Text.lines script.chars
      ds = script.statements.filterMap (definition? file.path script lines) ∧
      ∀ own ∈ script.statements, ∀ d, definition? file.path script lines own = some d →
        d.doc = (blockText (blockAbove lines d.line)).map String.ofList ∧
        ∀ s ∈ script.statements, s.start ≠ own.start → ∀ m, InBlockAbove lines d.line m →
          script.line s ≤ m → m ≤ script.endLine s →
          s.stop ≤ own.start ∧ (script.endLine s = d.line ∨ script.EndsOnCommentLine s) := by
  obtain ⟨script, hparse, rfl⟩ := extract_eq_ok h
  refine ⟨script, hparse, rfl, fun own hown d hd => ⟨?_, fun s hs hne m hm hline hend => ?_⟩⟩
  · obtain ⟨b, -, rfl⟩ := Option.map_eq_some_iff.mp hd
    rw [← docAbove_eq]
  obtain ⟨hdline, -⟩ := line_of_definition? hd
  have hordered := Script.ordered_parse hparse
  rcases hordered.stop_le_start_or hs hown hne with hbefore | hbehind
  · refine ⟨hbefore, ?_⟩
    have hle : script.endLine s ≤ d.line := by
      rw [hdline]
      exact lineAt_mono _ hbefore
    rcases hle.eq_or_lt with heq | hlt
    · exact Or.inl heq
    · obtain ⟨line, hget, hclear⟩ := (hm.of_le hend hlt).exists_line
      exact Or.inr (endsOnCommentLine hparse hs hget hclear)
  · have hle : d.line ≤ script.line s := by
      rw [hdline]
      exact lineAt_mono _ ((hordered.start_lt_stop own hown).le.trans hbehind)
    have hlt := hm.1
    omega

/-- The theorem applies to a string with a comment sign, which becomes documentation. -/
theorem statement_in_blockAbove_of_text :
    let file : SourceFile := ⟨⟨"a.R"⟩, "x <- \"\n# note\"\nf <- function() 1\n"⟩
    ∃ script, Script.parse file.text = .ok script ∧
      ∃ own ∈ script.statements, ∃ s ∈ script.statements,
      ∃ d ∈ definition? file.path script (Text.lines script.chars) own,
        d.doc = some "note\"" ∧ script.line s ≤ 2 ∧ 2 ≤ script.endLine s ∧ s.stop ≤ own.start ∧
        script.EndsOnCommentLine s := by
  intro file
  have hfile : ∃ script ∈ (Script.parse file.text).toOption,
      ∃ own ∈ script.statements, ∃ s ∈ script.statements,
      ∃ d ∈ definition? file.path script (Text.lines script.chars) own,
        s.start ≠ own.start ∧ InBlockAbove (Text.lines script.chars) d.line 2 ∧
        script.endLine s ≠ d.line ∧ d.doc = some "note\"" ∧
        script.line s ≤ 2 ∧ 2 ≤ script.endLine s := by
    decide +kernel
  obtain ⟨script, hscript, own, hown, s, hs, d, hd, hne, hm, hline, hdoc, hstart, hend⟩ := hfile
  have hparse : Script.parse file.text = .ok script := eq_ok_of_mem_toOption hscript
  have hextract : file.extract = .ok (definitions file.path script) := by
    rw [extract, hparse]
    rfl
  obtain ⟨script', hparse', -, hblock⟩ := statement_in_blockAbove hextract
  cases hparse.symm.trans hparse'
  obtain ⟨hstop, hlast⟩ := (hblock own hown d hd).2 s hs hne 2 hm hstart hend
  exact ⟨script, hparse, own, hown, s, hs, d, hd, hdoc, hstart, hend, hstop,
    hlast.resolve_left hline⟩

/-- Not every documentation is read from lines outside other statements. It may come from the body
of the function that ends where the definition starts. -/
theorem exists_statement_in_blockAbove :
    ¬∀ (file : SourceFile) (script : Script) (own s : Statement) (d : Definition) (m : ℕ),
      Script.parse file.text = .ok script → own ∈ script.statements → s ∈ script.statements →
      s.start ≠ own.start → definition? file.path script (Text.lines script.chars) own = some d →
      d.doc ≠ none → InBlockAbove (Text.lines script.chars) d.line m →
      ¬(script.line s ≤ m ∧ m ≤ script.endLine s) := by
  intro h
  let file : SourceFile := ⟨⟨"a.R"⟩, "g <- function() \x7b\n  # inner\n\x7d; f <- function() 1\n"⟩
  have hfile : ∃ script ∈ (Script.parse file.text).toOption,
      ∃ own ∈ script.statements, ∃ s ∈ script.statements,
      ∃ d ∈ definition? file.path script (Text.lines script.chars) own,
        s.start ≠ own.start ∧ d.doc = some "inner" ∧
        InBlockAbove (Text.lines script.chars) d.line 2 ∧
        script.line s ≤ 2 ∧ 2 ≤ script.endLine s := by
    decide +kernel
  obtain ⟨script, hscript, own, hown, s, hs, d, hd, hne, hdoc, hm, hline⟩ := hfile
  refine h file script own s d 2 (eq_ok_of_mem_toOption hscript) hown hs hne hd ?_ hm hline
  rw [hdoc]
  simp

end SourceFile

end CallAtlas
