import CallAtlas.Proofs.Script
import CallAtlas.Proofs.Text.Line

/-!
# Where the definitions of a file stand

The lines of a file and the line numbers of its definitions come from different places: lines are
the pieces between newlines, and the number of a line is counted from the newlines before an offset.
`line?_lineOfByte` states that the two agree. A definition takes its lines from its statement, so
the definitions stand in the order of the file (`standOnLines_definitions`), and on lines that the
file has if no statement ends on a newline (`standOnLines_of_placed`).
-/

namespace CallAtlas

/-- The definitions stand on the first `n` lines, one behind the other. -/
structure Definition.StandOnLines (n : ℕ) (ds : List Definition) : Prop where
  bounds : ∀ d ∈ ds, 1 ≤ d.line ∧ d.line ≤ d.endLine ∧ d.endLine ≤ n
  ordered : ds.Pairwise fun d d' => d.endLine ≤ d'.line

namespace SourceFile

open Definition

variable {path : Path} {script : Script}

theorem line_of_definition? {lines : List (List Char)} {s : Statement} {d : Definition}
    (h : definition? path script lines s = some d) :
    d.line = script.line s ∧ d.endLine = script.endLine s := by
  obtain ⟨b, -, rfl⟩ := Option.map_eq_some_iff.mp h
  exact ⟨rfl, rfl⟩

/-- The definitions stand on the lines that their statements end on. -/
theorem standOnLines_definitions (horder : script.Ordered) {n : ℕ}
    (hn : ∀ s ∈ script.statements, script.endLine s ≤ n) :
    StandOnLines n (definitions path script) where
  bounds d hd := by
    obtain ⟨s, hs, hd⟩ := List.mem_filterMap.mp hd
    obtain ⟨hline, hendLine⟩ := line_of_definition? hd
    rw [hline, hendLine]
    exact ⟨Nat.le_add_right 1 _, Text.lineAt_mono _ (horder.start_lt_stop s hs).le, hn s hs⟩
  ordered := by
    refine List.pairwise_filterMap.mpr (horder.ordered.imp fun hstop d hd d' hd' => ?_)
    rw [(line_of_definition? hd).2, (line_of_definition? hd').1]
    exact Text.lineAt_mono _ hstop

/-! ## Lines of the file -/

section

variable {file : SourceFile} {n : ℕ} {line : String}

theorem isSome_line?_iff : (file.line? n).isSome ↔ 1 ≤ n ∧ n ≤ file.lineCount := by
  unfold line?
  split_ifs with hn
  · simp [hn]
  · rw [lines, List.getElem?_map, Option.isSome_map, isSome_getElem?, lineCount]
    omega

theorem newlineByte_not_mem_line (h : file.line? n = some line) :
    Text.newlineByte ∉ Text.bytes line := by
  obtain ⟨-, hline⟩ := Option.ite_none_left_eq_some.mp h
  obtain ⟨chars, hchars, rfl⟩ := List.mem_map.mp (List.mem_of_getElem? hline)
  rw [Text.bytes_eq_encode, String.toList_ofList, Text.newlineByte_mem_encode_iff]
  exact Text.newline_not_mem_of_mem_lines hchars

/-- A byte that is neither a newline nor the carriage return before one is found in its line at
its column. -/
theorem line?_lineOfByte {offset : ℕ} {b : UInt8} (h : (Text.bytes file.text)[offset]? = some b)
    (hb : b ≠ Text.newlineByte)
    (hreturn : ¬(b = Text.returnByte ∧
      (Text.bytes file.text)[offset + 1]? = some Text.newlineByte)) :
    ∃ line, file.line? (Text.lineOfByte (Text.bytes file.text) offset) = some line ∧
      (Text.bytes line)[Text.columnOfByte (Text.bytes file.text) offset]? = some b := by
  rw [Text.bytes_eq_encode] at h hreturn ⊢
  obtain ⟨chars, hchars, hcolumn⟩ := Text.getElem?_lineOfByte h hb hreturn
  refine ⟨String.ofList chars, ?_, by rwa [Text.bytes_eq_encode, String.toList_ofList]⟩
  have hpos : Text.lineOfByte (Text.encode file.text.toList) offset ≠ 0 :=
    Nat.ne_of_gt (Nat.le_add_right 1 _)
  rw [line?, if_neg hpos, lines, List.getElem?_map, hchars]
  rfl

theorem lineCount_eq (file : SourceFile) : file.lineCount =
    (Text.bytes file.text).count Text.newlineByte +
      if Text.bytes file.text ≠ [] ∧ (Text.bytes file.text).getLast? ≠ some Text.newlineByte
      then 1 else 0 := by
  rw [lineCount, Text.length_lines, Text.bytes_eq_encode, Text.count_encode]
  simp only [ne_eq, Text.encode_eq_nil_iff, Text.getLast?_encode_eq_newlineByte_iff]

end

/-! ## Definitions of the file -/

theorem extract_eq_ok {file : SourceFile} {ds : List Definition} (h : file.extract = .ok ds) :
    ∃ script, Script.parse file.text = .ok script ∧ ds = definitions file.path script := by
  obtain ⟨script, hparse, h⟩ := bind_eq_ok h
  cases h
  exact ⟨script, hparse, rfl⟩

/-- A definition stands on the lines of the bytes that its statement starts and stops at. -/
theorem exists_statement_of_mem_definitions {file : SourceFile} {d : Definition}
    (hchars : script.chars = file.text.toList) (hd : d ∈ definitions path script) :
    ∃ s ∈ script.statements,
      d.line = Text.lineOfByte (Text.bytes file.text) (Text.byteOffset script.chars s.start) ∧
      d.endLine = Text.lineOfByte (Text.bytes file.text) (Text.byteOffset script.chars s.stop) := by
  obtain ⟨s, hs, hd⟩ := List.mem_filterMap.mp hd
  obtain ⟨hline, hendLine⟩ := line_of_definition? hd
  rw [Text.bytes_eq_encode, ← hchars, hline, hendLine]
  exact ⟨s, hs, (Text.lineOfByte_byteOffset _ _).symm, (Text.lineOfByte_byteOffset _ _).symm⟩

theorem standOnLines_of_placed {file : SourceFile} (hchars : script.chars = file.text.toList)
    (hplaced : script.Placed) : StandOnLines file.lineCount (definitions path script) := by
  refine standOnLines_definitions hplaced.toOrdered fun s hs => ?_
  rw [Script.endLine, hchars]
  have hlast := hplaced.last s hs
  rw [hchars] at hlast
  exact Text.lineAt_le_length_lines (Nat.zero_lt_of_lt (hplaced.start_lt_stop s hs)) hlast

/-- Line numbers and lines agree. Every byte but a newline and the carriage return before one is
found in the line that the newlines before it give, at the column that the last of them gives. The
lines are numbered up to their count and hold no newline, and a newline ends each but the last.
Definitions stand on the lines that their statements start and stop on. Hence they stand on lines of
the file, one behind the other, if the statements are not empty, stand one behind the other and do
not end on a newline. The statements that the parser reads are such unless a member operator is
followed by a newline, which may take the end of a definition to the line behind the last one. -/
theorem lines_and_definitions_agree (file : SourceFile) :
    let bytes := Text.bytes file.text
    (∀ offset b, bytes[offset]? = some b → b ≠ Text.newlineByte →
      ¬(b = Text.returnByte ∧ bytes[offset + 1]? = some Text.newlineByte) →
      ∃ line, file.line? (Text.lineOfByte bytes offset) = some line ∧
        (Text.bytes line)[Text.columnOfByte bytes offset]? = some b) ∧
    (∀ n, (file.line? n).isSome ↔ 1 ≤ n ∧ n ≤ file.lineCount) ∧
    (∀ n line, file.line? n = some line → Text.newlineByte ∉ Text.bytes line) ∧
    file.lineCount = bytes.count Text.newlineByte +
      (if bytes ≠ [] ∧ bytes.getLast? ≠ some Text.newlineByte then 1 else 0) ∧
    (∀ script : Script, script.chars = file.text.toList →
      (∀ d ∈ definitions file.path script, ∃ s ∈ script.statements,
        d.line = Text.lineOfByte bytes (Text.byteOffset script.chars s.start) ∧
        d.endLine = Text.lineOfByte bytes (Text.byteOffset script.chars s.stop)) ∧
      (script.Placed → StandOnLines file.lineCount (definitions file.path script))) ∧
    ∀ ds, file.extract = .ok ds → StandOnLines (file.lineCount + 1) ds ∧
      (Token.NoDanglingMember (Token.scan file.text.toList).tokens →
        StandOnLines file.lineCount ds) := by
  intro bytes
  refine ⟨fun _ _ => line?_lineOfByte, fun _ => isSome_line?_iff,
    fun _ _ => newlineByte_not_mem_line, lineCount_eq file,
    fun script hchars => ⟨fun _ => exists_statement_of_mem_definitions hchars,
      standOnLines_of_placed hchars⟩, fun ds h => ?_⟩
  obtain ⟨script, hparse, rfl⟩ := extract_eq_ok h
  have hchars := Script.chars_parse hparse
  refine ⟨?_, fun hmember => standOnLines_of_placed hchars (Script.placed_parse hparse hmember)⟩
  refine standOnLines_definitions (Script.ordered_parse hparse) fun s _ => ?_
  rw [Script.endLine, hchars]
  exact Text.lineAt_le_length_lines_succ _ _

/-- The theorem applies to a text with carriage returns, an empty line, two definitions on one line
and no newline at its end, at the second byte of a character. -/
theorem lines_and_definitions_agree_of_text :
    let file : SourceFile := ⟨⟨"a.R"⟩,
      "# sum\r\nf <- function(\n  x\n) x$y\n\ng <- \\(s) 'é'; h <- function() 1"⟩
    file.lineCount = 6 ∧
    (Text.bytes file.text)[45]? = some 0xA9 ∧
    (∃ line, file.line? 6 = some line ∧ (Text.bytes line)[12]? = some 0xA9) ∧
    ∃ script, Script.parse file.text = .ok script ∧ script.Placed ∧
      (definitions file.path script).map (fun d => (d.name, d.line, d.endLine)) =
        [("f", 2, 4), ("g", 6, 6), ("h", 6, 6)] ∧
      StandOnLines 6 (definitions file.path script) := by
  intro file
  obtain ⟨hbyte, -, -, -, hplaced, -⟩ := lines_and_definitions_agree file
  have hcount : file.lineCount = 6 := by decide +kernel
  have hat : (Text.bytes file.text)[45]? = some 0xA9 := by decide +kernel
  have hnext : ¬((0xA9 : UInt8) = Text.returnByte ∧
      (Text.bytes file.text)[46]? = some Text.newlineByte) := by decide +kernel
  obtain ⟨line, hline, hcolumn⟩ := hbyte 45 0xA9 hat (by decide) hnext
  have hnumber : Text.lineOfByte (Text.bytes file.text) 45 = 6 := by decide +kernel
  have hcolumns : Text.columnOfByte (Text.bytes file.text) 45 = 12 := by decide +kernel
  rw [hnumber] at hline
  rw [hcolumns] at hcolumn
  have hlines : (Script.parse file.text).toOption.map (fun script =>
      (definitions file.path script).map fun d => (d.name, d.line, d.endLine)) =
        some [("f", 2, 4), ("g", 6, 6), ("h", 6, 6)] := by decide +kernel
  rw [hcount] at hplaced
  cases hparse : Script.parse file.text with
  | error e =>
    rw [hparse] at hlines
    cases hlines
  | ok script =>
    rw [hparse] at hlines
    have hscript := Script.placed_parse hparse (by decide +kernel)
    exact ⟨hcount, hat, ⟨line, hline, hcolumn⟩, script, rfl, hscript, Option.some.inj hlines,
      (hplaced script (Script.chars_parse hparse)).2 hscript⟩

/-- A member operator takes the newline behind it into its statement. -/
example :
    let file : SourceFile := ⟨⟨"a.R"⟩, "f <- function(x) x$\n"⟩
    ¬Token.NoDanglingMember (Token.scan file.text.toList).tokens ∧ file.lineCount = 1 ∧
      file.extract.toOption.map (fun ds => ds.map Definition.endLine) = some [2] := by
  decide +kernel

end SourceFile

end CallAtlas
