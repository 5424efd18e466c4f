import CallAtlas.Definition
import CallAtlas.Proofs.Text.Comment

/-!
# The documentation above a line of a file

The documentation hangs on the lines between the line it stands above and the stop line before it,
and on nothing else in the file (`docAbove_eq_of_stopLine`). No tag stands in it, but for one that
is not recognised: the tag that comes first, behind more than one blank (`tag_in_docAbove_iff`).
-/

namespace CallAtlas.SourceFile

open Text

variable {file : SourceFile} {above between below : List (List Char)} {stop : List Char} {n : ℕ}

theorem docAbove_eq_blockText (file : SourceFile) (n : ℕ) : file.docAbove n =
    (blockText (blockAbove (Text.lines file.text.toList) n)).map String.ofList := by
  rw [docAbove, docAbove_eq]

theorem docAbove_of_lines (h : Text.lines file.text.toList = above ++ below) :
    file.docAbove (above.length + 1) =
      (blockText (above.rtakeWhile isDocLine)).map String.ofList := by
  rw [docAbove_eq_blockText, h, blockAbove_append]

theorem docAbove_behind_stopLine (hstop : IsStopLine stop)
    (h : Text.lines file.text.toList = above ++ [stop] ++ between ++ below) :
    file.docAbove (above.length + 1 + between.length + 1) =
      (blockText (between.rtakeWhile isDocLine)).map String.ofList := by
  have hlength : above.length + 1 + between.length = (above ++ [stop] ++ between).length := by
    rw [List.length_append, List.length_append, List.length_singleton]
  rw [hlength, docAbove_of_lines h, List.append_assoc, List.singleton_append,
    rtakeWhile_append_cons hstop]

/-- Documentation is local. In any two files in which the same lines stand behind some stop line,
and in a file that starts with these lines, the line right behind them has the same documentation.
It is read from the longest run without a stop line that the lines end with: what the comments of
the run say before the first one that starts with `@`, joined with newlines and trimmed. -/
theorem docAbove_eq_of_stopLine {above above' between below below' : List (List Char)}
    {stop stop' : List Char} (hstop : IsStopLine stop) (hstop' : IsStopLine stop')
    {file file' top : SourceFile}
    (hfile : Text.lines file.text.toList = above ++ [stop] ++ between ++ below)
    (hfile' : Text.lines file'.text.toList = above' ++ [stop'] ++ between ++ below')
    (htop : Text.lines top.text.toList = between ++ below) :
    ∃ run, IsLastRun between run ∧
      let texts := (run.map commentText).takeWhile fun text => text.head? != some '@'
      let text := trim (['\n'].intercalate texts)
      let doc := if text = [] then none else some (String.ofList text)
      file.docAbove (above.length + 1 + between.length + 1) = doc ∧
      file'.docAbove (above'.length + 1 + between.length + 1) = doc ∧
      top.docAbove (between.length + 1) = doc := by
  refine ⟨between.rtakeWhile isDocLine, isLastRun_rtakeWhile between, ?_⟩
  intro texts text doc
  have hdoc : (blockText (between.rtakeWhile isDocLine)).map String.ofList = doc := by
    rw [blockText_eq]
    exact apply_ite (Option.map String.ofList) _ _ _
  refine ⟨?_, ?_, ?_⟩
  · rw [docAbove_behind_stopLine hstop hfile, hdoc]
  · rw [docAbove_behind_stopLine hstop' hfile', hdoc]
  · rw [docAbove_of_lines htop, hdoc]

/-- The theorem applies to lines with a stop line among them, behind an empty line, behind a ruler
and at the start of a file. -/
theorem docAbove_eq_of_stopLine_of_texts :
    let file : SourceFile := ⟨⟨"a.R"⟩, "# a\n\nx <- 1\n#' Adds.\n# Fast.\n#' @param x y\nf\ng"⟩
    let file' : SourceFile := ⟨⟨"b.R"⟩, "## ----\r\nx <- 1\n#' Adds.\n# Fast.\n#' @param x y"⟩
    let top : SourceFile := ⟨⟨"c.R"⟩, "x <- 1\n#' Adds.\n# Fast.\n#' @param x y\nf\ng\n"⟩
    IsStopLine [] ∧ IsStopLine "## ----".toList ∧
      top.docAbove 5 = some "Adds.\nFast." ∧ file.docAbove 7 = top.docAbove 5 ∧
      file'.docAbove 6 = top.docAbove 5 := by
  intro file file' top
  have hstop : IsStopLine [] := by decide
  have hstop' : IsStopLine "## ----".toList := by decide +kernel
  have hfile : Text.lines file.text.toList = ["# a".toList] ++ [[]] ++
      ["x <- 1".toList, "#' Adds.".toList, "# Fast.".toList, "#' @param x y".toList] ++
      ["f".toList, "g".toList] := by decide +kernel
  have hfile' : Text.lines file'.text.toList = [] ++ ["## ----".toList] ++
      ["x <- 1".toList, "#' Adds.".toList, "# Fast.".toList, "#' @param x y".toList] ++ [] := by
    decide +kernel
  have htop : Text.lines top.text.toList =
      ["x <- 1".toList, "#' Adds.".toList, "# Fast.".toList, "#' @param x y".toList] ++
      ["f".toList, "g".toList] := by decide +kernel
  obtain ⟨run, -, hdoc, hdoc', hdoc''⟩ := docAbove_eq_of_stopLine hstop hstop' hfile hfile' htop
  exact ⟨hstop, hstop', by decide +kernel, hdoc.trans hdoc''.symm, hdoc'.trans hdoc''.symm⟩

/-- A line of a documentation starts with `@` exactly if it is the first one and the first comment
of the block that says something is a tag behind more blanks than the one that is dropped. -/
theorem tag_in_docAbove_iff {file : SourceFile} {n : ℕ} {doc : String}
    (h : file.docAbove n = some doc) :
    (∀ line ∈ (Text.lines doc.toList).tail, line.head? ≠ some '@') ∧
    ((∃ line ∈ Text.lines doc.toList, line.head? = some '@') ↔
      ∃ before text after,
        (blockAbove (Text.lines file.text.toList) n).map commentText = before ++ text :: after ∧
        (∀ other ∈ before, other = []) ∧ IsIndentedTag text) := by
  rw [docAbove_eq_blockText] at h
  obtain ⟨chars, hchars, rfl⟩ := Option.map_eq_some_iff.mp h
  have hblock : ∀ line ∈ blockAbove (Text.lines file.text.toList) n, '\n' ∉ line :=
    fun line hline => newline_not_mem_of_mem_lines (mem_of_mem_blockAbove hline)
  rw [String.toList_ofList]
  refine ⟨fun line hline htag => ?_, ?_⟩
  · exact not_infix_blockText hblock hchars (infix_of_mem_tail_lines hline htag)
  · rw [exists_tag_lines_iff hblock hchars, head?_blockText_iff hchars]

/-- The theorem applies to a tag behind two blanks and an empty comment. -/
theorem tag_in_docAbove_iff_of_text :
    let file : SourceFile := ⟨⟨"a.R"⟩, "#'\n#'  @param x y\n# Adds.\nf <- function(x) x"⟩
    file.docAbove 4 = some "@param x y\nAdds." ∧
      (∃ line ∈ Text.lines "@param x y\nAdds.".toList, line.head? = some '@') ∧
      ∀ line ∈ (Text.lines "@param x y\nAdds.".toList).tail, line.head? ≠ some '@' := by
  intro file
  have hdoc : file.docAbove 4 = some "@param x y\nAdds." := by decide +kernel
  have hblock : (blockAbove (Text.lines file.text.toList) 4).map commentText =
      [[]] ++ " @param x y".toList :: ["Adds.".toList] := by decide +kernel
  obtain ⟨htail, htag⟩ := tag_in_docAbove_iff hdoc
  exact ⟨hdoc, htag.mpr ⟨_, _, _, hblock, by simp, by decide +kernel⟩, htail⟩

/-- Not every documentation is free of tags. -/
theorem exists_tag_in_docAbove : ¬∀ (file : SourceFile) (n : ℕ) (doc : String),
    file.docAbove n = some doc → ∀ line ∈ Text.lines doc.toList, line.head? ≠ some '@' := by
  intro h
  have hdoc : (⟨⟨"a.R"⟩, "#'  @param x\nf <- function(x) x"⟩ : SourceFile).docAbove 2 =
      some "@param x" := by decide +kernel
  exact h _ _ _ hdoc "@param x".toList (by decide +kernel) (by decide +kernel)

end CallAtlas.SourceFile
