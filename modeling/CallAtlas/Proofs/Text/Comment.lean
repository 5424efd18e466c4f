import Mathlib.Data.List.DropRight
import Mathlib.Data.List.TakeWhile
import CallAtlas.Proofs.Text.Line
import CallAtlas.Text.Comment

/-!
# Blocks of comment lines

The documentation above a line is the text of a block of lines (`docAbove_eq`): the lines right
above it, up to the first one that is no comment or is a boundary (`IsStopLine`). The block is the
longest run of lines without such a one (`isLastRun_rtakeWhile`), and nothing above the stop line
matters (`blockAbove_append`).

Tags are cut off before the lines of a block are joined, and the blanks at the ends of the joined
text only afterwards. So a tag comes first in the documentation if nothing is said before it and
more than one blank stands between it and its `#` (`head?_blockText_iff`). On all further lines
none is left (`not_infix_blockText`).
-/

namespace CallAtlas.Text

variable {c : Char} {cs line doc : List Char} {block lines above below : List (List Char)}
  {k m n : ℕ}

/-! ## Blanks -/

theorem head?_trimLeft (cs : List Char) :
    (trimLeft cs).head? = cs.find? fun c => !isBlank c :=
  (List.find?_not_eq_head?_dropWhile isBlank cs).symm

theorem trimRight_isPrefix (cs : List Char) : trimRight cs <+: cs :=
  List.rdropWhile_prefix isBlank cs

theorem trim_isInfix (cs : List Char) : trim cs <:+: cs :=
  (trimRight_isPrefix _).isInfix.trans (List.dropWhile_suffix isBlank).isInfix

/-- Trimming a text leaves its first character that is not blank in front. -/
theorem head?_trim (cs : List Char) : (trim cs).head? = cs.find? fun c => !isBlank c := by
  rw [← head?_trimLeft]
  cases htrim : trim cs with
  | nil =>
    have hblank : ∀ c ∈ trimLeft cs, isBlank c = true := List.rdropWhile_eq_nil_iff.mp htrim
    cases hleft : trimLeft cs with
    | nil => rfl
    | cons c rest =>
      have hfind := (head?_trimLeft cs).symm
      rw [hleft] at hfind hblank
      simpa [hblank c List.mem_cons_self] using List.find?_some hfind
  | cons c rest =>
    obtain ⟨behind, hbehind⟩ : trim cs <+: trimLeft cs := trimRight_isPrefix _
    rw [← hbehind, htrim]
    rfl

/-- Blanks in front of a character that is not blank are cut off. -/
theorem trimLeft_append_cons (hblanks : ∀ c ∈ cs, isBlank c = true) (hc : isBlank c = false)
    (rest : List Char) : trimLeft (cs ++ c :: rest) = c :: rest := by
  rw [trimLeft, List.dropWhile_append_of_pos hblanks, List.dropWhile_cons_of_neg (by simp [hc])]

theorem exists_eq_append_trimLeft (cs : List Char) :
    ∃ blanks, cs = blanks ++ trimLeft cs ∧ ∀ c ∈ blanks, isBlank c = true :=
  ⟨cs.takeWhile isBlank, List.takeWhile_append_dropWhile.symm, fun _ => List.mem_takeWhile_imp⟩

/-- Blanks behind a text that does not end with a blank are cut off. -/
theorem trimRight_append {behind : List Char} (hlast : ∀ c ∈ cs.getLast?, isBlank c = false)
    (hbehind : ∀ c ∈ behind, isBlank c = true) : trimRight (cs ++ behind) = cs := by
  rw [trimRight, List.reverse_append,
    List.dropWhile_append_of_pos fun c hc => hbehind c (List.mem_reverse.mp hc)]
  exact List.rdropWhile_eq_self_iff.mpr fun hne => by
    simp [hlast _ (List.getLast?_eq_some_getLast hne)]

theorem exists_eq_trimRight_append (cs : List Char) : ∃ behind, cs = trimRight cs ++ behind ∧
    (∀ c ∈ (trimRight cs).getLast?, isBlank c = false) ∧ ∀ c ∈ behind, isBlank c = true := by
  refine ⟨cs.rtakeWhile isBlank, List.rdropWhile_append_rtakeWhile.symm, ?_,
    fun _ => List.mem_rtakeWhile_imp⟩
  intro c hc
  obtain ⟨hne, rfl⟩ := List.mem_getLast?_eq_getLast hc
  have hlast : ¬isBlank ((trimRight cs).getLast hne) := List.rdropWhile_last_not isBlank cs hne
  simpa using hlast

theorem trimRight_eq_nil_of_find? (h : ((trimRight cs).find? fun c => !isBlank c) = none) :
    trimRight cs = [] := by
  by_contra hne
  obtain ⟨-, -, hlast, -⟩ := exists_eq_trimRight_append cs
  have hvisible := hlast _ (List.getLast?_eq_some_getLast hne)
  exact List.find?_eq_none.mp h _ (List.getLast_mem hne) (by simpa using hvisible)

/-- What a comment line says is the end of the line, less the blanks behind it. -/
theorem exists_commentText_eq (line : List Char) :
    ∃ rest, rest <:+ line ∧ commentText line = trimRight rest := by
  unfold commentText
  split
  · next rest hrest =>
    have hline : rest <:+ line :=
      (List.suffix_cons '#' rest).trans (hrest ▸ List.dropWhile_suffix isBlank)
    have htail : ∀ (p : Prop) [Decidable p] (cs : List Char), (if p then cs.tail else cs) <:+ cs :=
      fun p _ cs => by split_ifs <;> simp [List.tail_suffix]
    exact ⟨_, ((htail _ _).trans (htail _ rest)).trans hline, rfl⟩
  · exact ⟨[], List.nil_suffix, rfl⟩

theorem newline_not_mem_commentText (h : '\n' ∉ line) : '\n' ∉ commentText line := by
  obtain ⟨rest, hrest, heq⟩ := exists_commentText_eq line
  rw [heq]
  exact fun hmem => h (hrest.mem ((trimRight_isPrefix rest).mem hmem))

theorem commentText_eq_nil_of_find?
    (h : ((commentText line).find? fun c => !isBlank c) = none) : commentText line = [] := by
  obtain ⟨rest, -, heq⟩ := exists_commentText_eq line
  rw [heq] at h ⊢
  exact trimRight_eq_nil_of_find? h

/-! ## Stop lines -/

/-- A line that no documentation reaches across: its first character that is not blank is no `#`,
or it is a boundary. -/
def IsStopLine (line : List Char) : Prop :=
  (line.find? fun c => !isBlank c) ≠ some '#' ∨ isBoundary line = true

instance (line : List Char) : Decidable (IsStopLine line) :=
  inferInstanceAs (Decidable (_ ∨ _))

theorem isDocLine_iff : isDocLine line = true ↔ ¬IsStopLine line := by
  rw [isDocLine, IsStopLine, head?_trimLeft]
  simp

/-- The longest run of lines without a stop line that a list of lines ends with. -/
structure IsLastRun (lines run : List (List Char)) : Prop where
  suffix : run <:+ lines
  clear : ∀ line ∈ run, ¬IsStopLine line
  longest : ∀ other, other <:+ lines → (∀ line ∈ other, ¬IsStopLine line) → other <:+ run

theorem isLastRun_rtakeWhile (lines : List (List Char)) :
    IsLastRun lines (lines.rtakeWhile isDocLine) where
  suffix := List.rtakeWhile_suffix isDocLine lines
  clear line hline := isDocLine_iff.mp (List.mem_rtakeWhile_imp hline)
  longest other hother hclear := by
    obtain ⟨front, rfl⟩ := hother
    have hdoc : ∀ line ∈ other.reverse, isDocLine line = true := fun line hline =>
      isDocLine_iff.mpr (hclear line (List.mem_reverse.mp hline))
    rw [List.rtakeWhile, List.reverse_append, List.takeWhile_append_of_pos hdoc,
      List.reverse_append, List.reverse_reverse]
    exact List.suffix_append _ _

/-- A run does not reach across a stop line. -/
theorem rtakeWhile_append_cons (hline : IsStopLine line) (above below : List (List Char)) :
    (above ++ line :: below).rtakeWhile isDocLine = below.rtakeWhile isDocLine := by
  induction below using List.reverseRecOn with
  | nil => exact List.rtakeWhile_concat_neg _ _ _ fun h => isDocLine_iff.mp h hline
  | append_singleton below last ih =>
    rw [← List.cons_append, ← List.append_assoc, List.rtakeWhile_concat, List.rtakeWhile_concat, ih]

/-! ## The block above a line -/

/-- The comment lines that the documentation above the `n`-th line is read from. -/
def blockAbove (lines : List (List Char)) (n : ℕ) : List (List Char) :=
  if n - 1 ≤ lines.length then (lines.take (n - 1)).rtakeWhile isDocLine else []

theorem docAbove_eq (lines : List (List Char)) (n : ℕ) :
    docAbove lines n = blockText (blockAbove lines n) := by
  rw [docAbove, blockAbove, List.rtakeWhile]
  split_ifs
  · rfl
  · rfl

theorem blockAbove_append (above below : List (List Char)) :
    blockAbove (above ++ below) (above.length + 1) = above.rtakeWhile isDocLine := by
  rw [blockAbove, Nat.add_sub_cancel, if_pos (by simp), List.take_left]

theorem mem_of_mem_blockAbove (h : line ∈ blockAbove lines n) : line ∈ lines := by
  unfold blockAbove at h
  split_ifs at h
  · exact List.mem_of_mem_take ((List.rtakeWhile_suffix isDocLine _).mem h)
  · cases h

/-- The documentation above the `n`-th line is read from the `m`-th line, among others. -/
def InBlockAbove (lines : List (List Char)) (n m : ℕ) : Prop :=
  m < n ∧ n ≤ m + (blockAbove lines n).length

instance (lines : List (List Char)) (n m : ℕ) : Decidable (InBlockAbove lines n m) :=
  inferInstanceAs (Decidable (_ ∧ _))

theorem InBlockAbove.of_le (h : InBlockAbove lines n m) (hm : m ≤ k) (hk : k < n) :
    InBlockAbove lines n k :=
  ⟨hk, h.2.trans (Nat.add_le_add_right hm _)⟩

theorem InBlockAbove.exists_line (h : InBlockAbove lines n m) :
    ∃ line, lines[m - 1]? = some line ∧ ¬IsStopLine line := by
  obtain ⟨hm, hblock⟩ := h
  unfold blockAbove at hblock
  split_ifs at hblock with hlength
  · obtain ⟨front, hfront⟩ := List.rtakeWhile_suffix isDocLine (lines.take (n - 1))
    have hcount := congrArg List.length hfront
    rw [List.length_append, List.length_take_of_le hlength] at hcount
    have hget : lines[m - 1]? =
        ((lines.take (n - 1)).rtakeWhile isDocLine)[m - 1 - front.length]? := by
      rw [← List.getElem?_append_right (by omega), hfront, List.getElem?_take_of_lt (by omega)]
    have hlt : m - 1 - front.length < ((lines.take (n - 1)).rtakeWhile isDocLine).length := by omega
    rw [List.getElem?_eq_getElem hlt] at hget
    exact ⟨_, hget, (isLastRun_rtakeWhile _).clear _ (List.getElem_mem hlt)⟩
  · rw [List.length_nil] at hblock
    omega

/-! ## Tags -/

/-- What the lines of a block say before the first tag. -/
def textsBeforeTag (block : List (List Char)) : List (List Char) :=
  (block.map commentText).takeWhile fun text => text.head? != some '@'

/-- A tag behind blanks. -/
def IsIndentedTag (text : List Char) : Prop :=
  text.head?.any isBlank = true ∧ (trimLeft text).head? = some '@'

instance (text : List Char) : Decidable (IsIndentedTag text) :=
  inferInstanceAs (Decidable (_ ∧ _))

theorem blockText_eq (block : List (List Char)) :
    blockText block =
      if trim (['\n'].intercalate (textsBeforeTag block)) = [] then none
      else some (trim (['\n'].intercalate (textsBeforeTag block))) := by
  simp only [blockText, List.isEmpty_iff]
  rfl

theorem blockText_eq_some (h : blockText block = some doc) :
    doc = trim (['\n'].intercalate (textsBeforeTag block)) := by
  rw [blockText_eq] at h
  exact (Option.some.inj (Option.ite_none_left_eq_some.mp h).2).symm

theorem head?_of_mem_textsBeforeTag {text : List Char} (h : text ∈ textsBeforeTag block) :
    text.head? ≠ some '@' := by
  simpa using List.mem_takeWhile_imp h

theorem exists_commentText_of_mem {text : List Char} (h : text ∈ textsBeforeTag block) :
    ∃ line ∈ block, commentText line = text :=
  List.mem_map.mp ((List.takeWhile_prefix _).mem h)

/-- The first visible character of joined texts is that of the first text that has one. -/
theorem find?_intercalate {p : Char → Bool} (hp : p '\n' = false) :
    ∀ texts : List (List Char),
      (['\n'].intercalate texts).find? p = texts.findSome? fun text => text.find? p
  | [] => rfl
  | [text] => by simp
  | text :: text' :: texts => by
    rw [List.intercalate_cons_cons, List.find?_append, List.find?_append,
      find?_intercalate hp (text' :: texts)]
    cases htext : text.find? p <;> simp [hp, htext]

/-- The text of a block starts with `@` if the first text that says something is a tag behind
blanks. -/
theorem head?_blockText_iff (h : blockText block = some doc) : doc.head? = some '@' ↔
    ∃ before text after, block.map commentText = before ++ text :: after ∧
      (∀ other ∈ before, other = []) ∧ IsIndentedTag text := by
  obtain rfl := blockText_eq_some h
  rw [head?_trim, find?_intercalate (by decide), List.findSome?_eq_some_iff]
  constructor
  · rintro ⟨before, text, after, hsplit, htext, hbefore⟩
    have hmem : ∀ other ∈ before ++ text :: after, other ∈ textsBeforeTag block :=
      fun _ h => hsplit ▸ h
    obtain ⟨rest, hrest⟩ : textsBeforeTag block <+: block.map commentText := List.takeWhile_prefix _
    refine ⟨before, text, after ++ rest, by rw [← hrest, hsplit]; simp, fun other hother => ?_, ?_⟩
    · obtain ⟨line, -, rfl⟩ :=
        exists_commentText_of_mem (hmem other (List.mem_append_left _ hother))
      exact commentText_eq_nil_of_find? (hbefore _ hother)
    · refine ⟨?_, by rw [head?_trimLeft, htext]⟩
      have hhead := head?_of_mem_textsBeforeTag (hmem text (by simp))
      cases text with
      | nil => cases htext
      | cons c rest =>
        by_contra hblank
        rw [List.find?_cons_of_pos (by simpa using hblank)] at htext
        exact hhead htext
  · rintro ⟨before, text, after, hsplit, hbefore, hblank, htag⟩
    have hkeep : ∀ other ∈ before, (other.head? != some '@') = true := fun other hother => by
      rw [hbefore other hother]
      rfl
    have htext : (text.head? != some '@') = true := by
      cases text with
      | nil => rfl
      | cons c rest =>
        have hc : isBlank c = true := hblank
        have hne : c ≠ '@' := by
          rintro rfl
          revert hc
          decide
        simpa using hne
    refine ⟨before, text, after.takeWhile fun text => text.head? != some '@', ?_, ?_, ?_⟩
    · rw [textsBeforeTag, hsplit, List.takeWhile_append_of_pos hkeep, List.takeWhile_cons,
        if_pos htext]
    · rw [← head?_trimLeft, htag]
    · intro other hother
      rw [hbefore other hother]
      rfl

/-- Joined texts hold a character behind a newline only at the start of one of them. -/
theorem exists_mem_of_infix_intercalate {texts : List (List Char)}
    (htexts : ∀ text ∈ texts, '\n' ∉ text) (hc : c ≠ '\n')
    (h : ['\n', c] <:+: ['\n'].intercalate texts) : ∃ text ∈ texts, text.head? = some c := by
  obtain ⟨front, back, hsplit⟩ := h
  have hne : texts ≠ [] := by
    rintro rfl
    simp at hsplit
  have hpieces : pieces '\n' front ++ pieces '\n' (c :: back) = texts := by
    rw [← pieces_intercalate htexts hne, ← hsplit, ← pieces_append]
    simp
  obtain ⟨piece, more, -, hback⟩ := pieces_cons_of_ne hc back
  refine ⟨c :: piece, ?_, rfl⟩
  rw [← hpieces, hback]
  simp

/-- No newline in the text of a block is followed by `@`. -/
theorem not_infix_blockText (hblock : ∀ line ∈ block, '\n' ∉ line)
    (h : blockText block = some doc) : ¬['\n', '@'] <:+: doc := by
  intro hinside
  obtain rfl := blockText_eq_some h
  have htexts : ∀ text ∈ textsBeforeTag block, '\n' ∉ text := by
    intro text htext
    obtain ⟨line, hline, rfl⟩ := exists_commentText_of_mem htext
    exact newline_not_mem_commentText (hblock line hline)
  obtain ⟨text, htext, hhead⟩ :=
    exists_mem_of_infix_intercalate htexts (by decide) (hinside.trans (trim_isInfix _))
  exact head?_of_mem_textsBeforeTag htext hhead

/-- A line of the text of a block starts with `@` only if the text does. -/
theorem exists_tag_lines_iff (hblock : ∀ line ∈ block, '\n' ∉ line)
    (h : blockText block = some doc) :
    (∃ line ∈ Text.lines doc, line.head? = some '@') ↔ doc.head? = some '@' := by
  constructor
  · rintro ⟨line, hline, htag⟩
    rcases List.infix_cons_iff.mp (infix_of_mem_lines hline htag) with hfirst | hinside
    · obtain ⟨rest, hrest⟩ := hfirst
      rw [← (List.cons.inj hrest).2]
      rfl
    · exact absurd hinside (not_infix_blockText hblock h)
  · intro hhead
    obtain ⟨rest, rfl⟩ := List.head?_eq_some_iff.mp hhead
    obtain ⟨more, hmore⟩ : ∃ more, (Text.lines ([] ++ '@' :: rest))[0]? = some ('@' :: more) :=
      head?_lines (by simp) (by decide) (by simp)
    exact ⟨'@' :: more, List.mem_of_getElem? hmore, rfl⟩

end CallAtlas.Text
