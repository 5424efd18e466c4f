import Mathlib.Data.List.DropRight
import CallAtlas.Definition
import CallAtlas.Proofs.Text.Pieces

/-!
# Lines and bytes of a text

A newline ends the lines before it and starts those behind it (`lines_append`). Cutting a text at
its last newline gives the number of lines (`length_lines`) and the line that a character stands
on (`LastLine.getElem?_lines`): it is preceded there by what stands between it and the newline
before it. So a text has the line that an offset behind a character other than a newline stands on
(`lineAt_le_length_lines`), and a character of a line has an offset that stands on that line
(`exists_offset_of_find?`).

Columns are counted in bytes. A byte up to 127 of the UTF-8 form is the whole of a character
(`utf8EncodeChar_of_mem`), so newlines and carriage returns can be found among the bytes.
`getElem?_lineOfByte` states that a byte is found in the line and the column that its offset gives.
-/

namespace CallAtlas

namespace Text

variable {c : Char} {cs before after column line : List Char} {i j q : ℕ} {p : Char → Bool}

/-! ## Lines -/

/-- Newlines end the lines before them. -/
theorem lines_append (before after : List Char) :
    lines (before ++ '\n' :: after) = (pieces '\n' before).map dropReturn ++ lines after := by
  have hne := pieces_ne_nil '\n' after
  rw [lines, pieces_append, List.dropLast_append_of_ne_nil hne, List.map_append,
    List.getLast?_append_of_ne_nil _ hne, List.append_assoc]
  rfl

theorem lines_of_not_mem (h : '\n' ∉ cs) : lines cs = if cs = [] then [] else [cs] := by
  rw [lines, pieces_of_not_mem h]
  cases cs <;> rfl

/-- The column is what stands behind the last newline, or the whole text if it has none. -/
def LastLine (cs column : List Char) : Prop :=
  '\n' ∉ column ∧ (cs = column ∨ ∃ before, cs = before ++ '\n' :: column)

theorem exists_lastLine (cs : List Char) : ∃ column, LastLine cs column := by
  by_cases h : '\n' ∈ cs
  · obtain ⟨column, before, hsplit, hcolumn⟩ :=
      List.eq_append_cons_of_mem (List.mem_reverse.mpr h)
    refine ⟨column.reverse, by simpa using hcolumn, Or.inr ⟨before.reverse, ?_⟩⟩
    rw [← List.reverse_reverse cs, hsplit]
    simp
  · exact ⟨cs, h, Or.inl rfl⟩

/-- Each newline ends a line, and what stands behind the last one is a line too. -/
theorem length_lines (cs : List Char) : (lines cs).length =
    cs.count '\n' + if cs ≠ [] ∧ cs.getLast? ≠ some '\n' then 1 else 0 := by
  obtain ⟨column, hcolumn, rfl | ⟨before, rfl⟩⟩ := exists_lastLine cs
  · have hlast : cs.getLast? ≠ some '\n' := fun h => hcolumn (List.mem_of_getLast? h)
    rw [lines_of_not_mem hcolumn, List.count_eq_zero_of_not_mem hcolumn, Nat.zero_add]
    by_cases hnil : cs = [] <;> simp [hnil, hlast]
  · rw [lines_append, lines_of_not_mem hcolumn, List.length_append, List.length_map,
      length_pieces, List.count_append, List.count_cons_self,
      List.count_eq_zero_of_not_mem hcolumn]
    by_cases hnil : column = []
    · simp [hnil]
    · have hlast : (before ++ '\n' :: column).getLast? ≠ some '\n' := by
        rw [List.append_cons, List.getLast?_append_of_ne_nil _ hnil]
        exact fun h => hcolumn (List.mem_of_getLast? h)
      rw [if_neg hnil, if_pos ⟨by simp, hlast⟩]
      rfl

theorem dropReturn_isPrefix (line : List Char) : dropReturn line <+: line := by
  unfold dropReturn
  split_ifs
  · exact List.dropLast_prefix line
  · exact List.prefix_refl line

theorem newline_not_mem_of_mem_lines (h : line ∈ lines cs) : '\n' ∉ line := by
  rw [lines, List.mem_append, List.mem_map, List.mem_filter, Option.mem_toList] at h
  rcases h with ⟨piece, hpiece, rfl⟩ | ⟨hlast, -⟩
  · have hpiece := not_mem_of_mem_pieces (List.dropLast_subset _ hpiece)
    exact fun hmem => hpiece ((dropReturn_isPrefix piece).subset hmem)
  · exact not_mem_of_mem_pieces (List.mem_of_getLast? hlast)

theorem lines_append_of_not_mem (h : '\n' ∉ before) (after : List Char) :
    lines (before ++ '\n' :: after) = dropReturn before :: lines after := by
  rw [lines_append, pieces_of_not_mem h]
  rfl

theorem isPrefix_of_head?_lines (h : (lines cs)[0]? = some line) : line <+: cs := by
  by_cases hmem : '\n' ∈ cs
  · obtain ⟨before, after, rfl, hbefore⟩ := List.eq_append_cons_of_mem hmem
    rw [lines_append_of_not_mem hbefore] at h
    cases h
    exact (dropReturn_isPrefix before).trans (List.prefix_append before _)
  · rw [lines_of_not_mem hmem] at h
    split_ifs at h
    · cases h
    · cases h
      exact List.prefix_refl cs

/-- A line starts where the text starts, or behind a newline. -/
theorem infix_of_mem_lines {cs line : List Char} {c : Char} (h : line ∈ lines cs)
    (hc : line.head? = some c) : ['\n', c] <:+: '\n' :: cs := by
  by_cases hmem : '\n' ∈ cs
  · obtain ⟨before, after, rfl, hbefore⟩ := List.eq_append_cons_of_mem hmem
    rw [lines_append_of_not_mem hbefore, List.mem_cons] at h
    rcases h with rfl | h
    · obtain ⟨rest, hrest⟩ := dropReturn_isPrefix before
      obtain ⟨more, hmore⟩ := List.head?_eq_some_iff.mp hc
      exact ⟨[], more ++ rest ++ '\n' :: after, by rw [← hrest, hmore]; simp⟩
    · have hsuffix := List.suffix_append ('\n' :: before) ('\n' :: after)
      exact (infix_of_mem_lines h hc).trans hsuffix.isInfix
  · rw [lines_of_not_mem hmem] at h
    split_ifs at h with hnil
    · cases h
    · obtain ⟨rest, rfl⟩ := List.head?_eq_some_iff.mp (List.mem_singleton.mp h ▸ hc)
      exact ⟨[], rest, rfl⟩
termination_by cs.length

/-- A line that is not the first starts behind a newline. -/
theorem infix_of_mem_tail_lines (h : line ∈ (lines cs).tail)
    (hc : line.head? = some c) : ['\n', c] <:+: cs := by
  by_cases hmem : '\n' ∈ cs
  · obtain ⟨before, after, rfl, hbefore⟩ := List.eq_append_cons_of_mem hmem
    rw [lines_append_of_not_mem hbefore, List.tail_cons] at h
    exact (infix_of_mem_lines h hc).trans (List.suffix_append before _).isInfix
  · rw [lines_of_not_mem hmem] at h
    split_ifs at h <;> cases h

/-- A line keeps its characters up to one that is not the carriage return at its end. -/
theorem dropReturn_append_cons (h : c = '\r' → after ≠ []) :
    ∃ rest, dropReturn (column ++ c :: after) = column ++ c :: rest := by
  rcases List.eq_nil_or_concat after with rfl | ⟨rest, d, rfl⟩
  · refine ⟨[], ?_⟩
    have hc : c ≠ '\r' := fun hc => h hc rfl
    simp [dropReturn, hc]
  · have hsplit : column ++ c :: rest.concat d = (column ++ c :: rest) ++ [d] := by simp
    rw [hsplit, dropReturn, List.getLast?_concat, List.dropLast_concat]
    by_cases hd : d = '\r'
    · exact ⟨rest, by rw [hd, if_pos rfl]⟩
    · exact ⟨rest ++ [d], by simp [hd]⟩

/-- The first line holds the characters up to one that is neither a newline nor the carriage
return before one. -/
theorem head?_lines (hcolumn : '\n' ∉ column) (hc : c ≠ '\n')
    (hreturn : ¬(c = '\r' ∧ after.head? = some '\n')) :
    ∃ rest, (lines (column ++ c :: after))[0]? = some (column ++ c :: rest) := by
  by_cases h : '\n' ∈ after
  · obtain ⟨piece, more, rfl, hpiece⟩ := List.eq_append_cons_of_mem h
    have hfirst : '\n' ∉ column ++ c :: piece := by simp [hcolumn, hpiece, Ne.symm hc]
    have hsplit : column ++ c :: (piece ++ '\n' :: more) =
        (column ++ c :: piece) ++ '\n' :: more := by simp
    obtain ⟨rest, hrest⟩ : ∃ rest, dropReturn (column ++ c :: piece) = column ++ c :: rest := by
      refine dropReturn_append_cons fun hc hnil => hreturn ⟨hc, ?_⟩
      rw [hnil]
      rfl
    exact ⟨rest, by rw [hsplit, lines_append, pieces_of_not_mem hfirst, ← hrest]; rfl⟩
  · have hall : '\n' ∉ column ++ c :: after := by simp [hcolumn, h, Ne.symm hc]
    exact ⟨after, by rw [lines_of_not_mem hall, if_neg (by simp)]; rfl⟩

/-- The line of a character that is neither a newline nor the carriage return before one starts
with what stands behind the newline before it, and goes on with the character. -/
theorem LastLine.getElem?_lines (h : LastLine before column) (hc : c ≠ '\n')
    (hreturn : ¬(c = '\r' ∧ after.head? = some '\n')) : ∃ rest,
      (lines (before ++ c :: after))[before.count '\n']? = some (column ++ c :: rest) := by
  obtain ⟨hcolumn, rfl | ⟨before, rfl⟩⟩ := h
  · rw [List.count_eq_zero_of_not_mem hcolumn]
    exact head?_lines hcolumn hc hreturn
  · have hsplit : before ++ '\n' :: column ++ c :: after =
        before ++ '\n' :: (column ++ c :: after) := by simp
    have hcount : (before ++ '\n' :: column).count '\n' =
        ((pieces '\n' before).map dropReturn).length := by
      rw [List.count_append, List.count_cons_self, List.count_eq_zero_of_not_mem hcolumn,
        List.length_map, length_pieces]
    rw [hsplit, hcount, lines_append, List.getElem?_append_right le_rfl, Nat.sub_self]
    exact head?_lines hcolumn hc hreturn

/-! ## The line of an offset -/

theorem lineAt_mono (cs : List Char) (h : i ≤ j) : lineAt cs i ≤ lineAt cs j :=
  Nat.add_le_add_left ((List.take_sublist_take_left h).count_le '\n') 1

theorem lineAt_succ (cs : List Char) (i : ℕ) :
    lineAt cs (i + 1) = lineAt cs i + if cs[i]? = some '\n' then 1 else 0 := by
  rw [lineAt, lineAt, List.take_add_one, List.count_append, Nat.add_assoc]
  cases cs[i]? with
  | none => rfl
  | some c => simp [List.count_singleton]

/-- A newline takes the offsets behind it to a later line. -/
theorem lineAt_lt_lineAt (hi : i ≤ q) (hj : q < j) (hq : cs[q]? = some '\n') :
    lineAt cs i < lineAt cs j := by
  calc
    lineAt cs i ≤ lineAt cs q := lineAt_mono cs hi
    _ < lineAt cs (q + 1) := by
      rw [lineAt_succ, if_pos hq]
      omega
    _ ≤ lineAt cs j := lineAt_mono cs hj

/-- Between two offsets on different lines stands a newline. -/
theorem exists_newline_of_lineAt_lt (h : lineAt cs i < lineAt cs j) :
    ∃ q, i ≤ q ∧ q < j ∧ cs[q]? = some '\n' := by
  induction j with
  | zero => exact absurd (lineAt_mono cs (Nat.zero_le i)) (by omega)
  | succ j ih =>
    by_cases hlt : lineAt cs i < lineAt cs j
    · obtain ⟨q, hiq, hqj, hq⟩ := ih hlt
      exact ⟨q, hiq, by omega, hq⟩
    · have hij : i ≤ j := by
        by_contra hij
        have hmono := lineAt_mono cs (show j + 1 ≤ i by omega)
        omega
      rw [lineAt_succ] at h
      split_ifs at h with hj
      · exact ⟨j, hij, by omega, hj⟩
      · omega

theorem lineAt_append (h : '\n' ∉ before) (after : List Char) (hi : i ≤ before.length) :
    lineAt (before ++ after) i = 1 := by
  rw [lineAt, List.take_append_of_le_length hi,
    List.count_eq_zero_of_not_mem fun hmem => h (List.mem_of_mem_take hmem)]

theorem lineAt_append_cons (h : '\n' ∉ before) (after : List Char) (i : ℕ) :
    lineAt (before ++ '\n' :: after) (before.length + 1 + i) = lineAt after i + 1 := by
  have hsplit : before.length + 1 + i = (before ++ ['\n']).length + i := by simp
  have hcount : (before ++ ['\n']).count '\n' = 1 := by
    simp [List.count_eq_zero_of_not_mem h]
  rw [lineAt, List.append_cons, hsplit, List.take_length_add_append, List.count_append, hcount,
    lineAt]
  omega

/-- The first character of a line that has a property stands in the text on that line, behind
characters that do not have it. -/
theorem exists_offset_of_find? (h : (lines cs)[i]? = some line) (hc : line.find? p = some c) :
    ∃ q, cs[q]? = some c ∧ lineAt cs q = i + 1 ∧
      ∀ r < q, lineAt cs r = i + 1 → ∃ d ∈ cs[r]?, p d = false := by
  induction i generalizing cs with
  | zero =>
    obtain ⟨behind, rfl⟩ := isPrefix_of_head?_lines h
    obtain ⟨-, front, back, rfl, hfront⟩ := List.find?_eq_some_iff_append.mp hc
    have hnewline : '\n' ∉ front := fun hmem =>
      newline_not_mem_of_mem_lines (List.mem_of_getElem? h) (List.mem_append_left _ hmem)
    rw [List.append_assoc]
    refine ⟨front.length, by simp, lineAt_append hnewline _ le_rfl, fun r hr _ => ?_⟩
    refine ⟨front[r], ?_, by simpa using hfront _ (List.getElem_mem hr)⟩
    rw [List.getElem?_append_left hr]
    exact List.getElem?_eq_getElem hr
  | succ i ih =>
    have hmem : '\n' ∈ cs := by
      by_contra hmem
      rw [lines_of_not_mem hmem] at h
      split_ifs at h <;> simp at h
    obtain ⟨before, after, rfl, hbefore⟩ := List.eq_append_cons_of_mem hmem
    rw [lines_append_of_not_mem hbefore] at h
    obtain ⟨q, hq, hline, hfront⟩ := ih h
    have hshift : ∀ r, (before ++ '\n' :: after)[before.length + 1 + r]? = after[r]? := fun r => by
      rw [List.append_cons, List.getElem?_append_right (by simp)]
      simp
    refine ⟨before.length + 1 + q, by rw [hshift, hq], by rw [lineAt_append_cons hbefore, hline],
      fun r hr hlineAt => ?_⟩
    obtain ⟨r, rfl⟩ : ∃ r', r = before.length + 1 + r' := by
      refine Nat.exists_eq_add_of_le (Nat.lt_of_not_le fun hle => ?_)
      rw [lineAt_append hbefore _ hle] at hlineAt
      omega
    rw [hshift]
    rw [lineAt_append_cons hbefore] at hlineAt
    exact hfront r (by omega) (by omega)

/-- A carriage return that no newline follows stands in its line. -/
theorem return_mem_line (h : cs[i]? = some '\r') (hnext : cs[i + 1]? ≠ some '\n') :
    ∃ line, (lines cs)[lineAt cs i - 1]? = some line ∧ '\r' ∈ line := by
  obtain ⟨column, hcolumn⟩ := exists_lastLine (cs.take i)
  have hsplit : cs.take i ++ '\r' :: cs.drop (i + 1) = cs := by
    obtain ⟨hi, hget⟩ := List.getElem?_eq_some_iff.mp h
    rw [← hget, List.getElem_cons_drop, List.take_append_drop]
  obtain ⟨rest, hrest⟩ := hcolumn.getElem?_lines (c := '\r') (by decide)
    fun hreturn => hnext (List.head?_drop ▸ hreturn.2)
  rw [hsplit] at hrest
  rw [lineAt, Nat.add_sub_cancel_left]
  exact ⟨_, hrest, by simp⟩

theorem lineAt_le_length_lines_succ (cs : List Char) (i : ℕ) :
    lineAt cs i ≤ (lines cs).length + 1 := by
  have hcount := (List.take_sublist i cs).count_le '\n'
  rw [lineAt, length_lines]
  omega

/-- Behind a character that is no newline stands its own line. A newline at the end of the text
stands behind that character. -/
theorem lineAt_le_length_lines (hi : 0 < i) (hlast : ∃ c ∈ cs[i - 1]?, c ≠ '\n') :
    lineAt cs i ≤ (lines cs).length := by
  obtain ⟨c, hc, hne⟩ := hlast
  obtain ⟨hlt, -⟩ := List.getElem?_eq_some_iff.mp hc
  have hcount : cs.count '\n' = (cs.take i).count '\n' + (cs.drop i).count '\n' := by
    rw [← List.count_append, List.take_append_drop]
  rw [lineAt, length_lines, hcount]
  by_cases hend : cs.getLast? = some '\n'
  · have hdrop : (cs.drop i).getLast? = some '\n' := by
      rw [List.getLast?_drop, if_neg, hend]
      intro hlength
      have hi : i - 1 = cs.length - 1 := by omega
      rw [List.getLast?_eq_getElem?, ← hi, hc] at hend
      exact hne (Option.some.inj hend)
    have hpos := List.count_pos_iff.mpr (List.mem_of_getLast? hdrop)
    omega
  · rw [if_pos ⟨List.ne_nil_of_length_pos (by omega), hend⟩]
    omega

/-! ## Bytes -/

/-- The byte that stands for a newline. -/
def newlineByte : UInt8 := 0x0A

/-- The byte that stands for a carriage return. -/
def returnByte : UInt8 := 0x0D

/-- The bytes of the UTF-8 form of some characters. -/
def encode (cs : List Char) : List UInt8 :=
  cs.flatMap String.utf8EncodeChar

/-- The bytes of the UTF-8 form of a text. -/
def bytes (text : String) : List UInt8 :=
  text.toUTF8.data.toList

theorem bytes_eq_encode (text : String) : bytes text = encode text.toList := by
  obtain ⟨cs, rfl⟩ : ∃ cs, text = String.ofList cs := ⟨text.toList, String.ofList_toList.symm⟩
  rw [bytes, String.toUTF8_eq_toByteArray, String.toByteArray_ofList, String.toList_ofList,
    List.utf8Encode, List.data_toByteArray]
  rfl

theorem encode_append (cs cs' : List Char) : encode (cs ++ cs') = encode cs ++ encode cs' :=
  List.flatMap_append

theorem encode_cons (c : Char) (cs : List Char) :
    encode (c :: cs) = String.utf8EncodeChar c ++ encode cs :=
  List.flatMap_cons

/-- The bytes of a character beyond 127 are all beyond 127. -/
theorem lt_of_mem_utf8EncodeChar {b : UInt8} (hc : 127 < c.toNat)
    (h : b ∈ String.utf8EncodeChar c) : 127 < b.toNat := by
  have hbyte : ∀ n, 127 < n → n < 256 → 127 < (UInt8.ofNat n).toNat := by
    intro n hn hn'
    rwa [UInt8.toNat_ofNat', Nat.mod_eq_of_lt hn']
  have hc : ¬c.val.toNat ≤ 127 := not_le.mpr hc
  simp only [String.utf8EncodeChar, if_neg hc] at h
  split_ifs at h <;> simp only [List.mem_cons, List.not_mem_nil, or_false] at h
  · rcases h with rfl | rfl <;> exact hbyte _ (by omega) (by omega)
  · rcases h with rfl | rfl | rfl <;> exact hbyte _ (by omega) (by omega)
  · rcases h with rfl | rfl | rfl | rfl <;> exact hbyte _ (by omega) (by omega)

/-- A byte up to 127 is the whole of its character. -/
theorem utf8EncodeChar_of_mem {b : UInt8} (hb : b.toNat ≤ 127)
    (h : b ∈ String.utf8EncodeChar c) : c = Char.ofNat b.toNat ∧ String.utf8EncodeChar c = [b] := by
  have hc : c.val.toNat ≤ 127 :=
    not_lt.mp fun hc => absurd (lt_of_mem_utf8EncodeChar hc h) (not_lt.mpr hb)
  have hsingle : String.utf8EncodeChar c = [UInt8.ofNat c.toNat] := by
    simp only [String.utf8EncodeChar, if_pos hc]
    rfl
  rw [hsingle, List.mem_singleton] at h
  have hb : b.toNat = c.toNat := by
    rw [h, UInt8.toNat_ofNat']
    exact Nat.mod_eq_of_lt (hc.trans_lt (by decide))
  rw [hsingle, h, ← h, hb, Char.ofNat_toNat]
  exact ⟨rfl, rfl⟩

theorem newlineByte_mem_utf8EncodeChar_iff : newlineByte ∈ String.utf8EncodeChar c ↔ c = '\n' := by
  refine ⟨fun h => (utf8EncodeChar_of_mem (by decide) h).1, ?_⟩
  rintro rfl
  decide

theorem newlineByte_not_mem_take (hc : c ≠ '\n') (k : ℕ) :
    newlineByte ∉ (String.utf8EncodeChar c).take k := fun hmem =>
  hc (newlineByte_mem_utf8EncodeChar_iff.mp (List.mem_of_mem_take hmem))

theorem newlineByte_mem_encode_iff : newlineByte ∈ encode cs ↔ '\n' ∈ cs := by
  simp [encode, newlineByte_mem_utf8EncodeChar_iff]

theorem count_encode : ∀ cs : List Char, (encode cs).count newlineByte = cs.count '\n'
  | [] => rfl
  | c :: cs => by
    rw [encode_cons, List.count_append, count_encode cs]
    by_cases hc : c = '\n'
    · rw [hc, List.count_cons_self, Nat.add_comm]
      rfl
    · rw [List.count_eq_zero_of_not_mem (mt newlineByte_mem_utf8EncodeChar_iff.mp hc),
        List.count_cons_of_ne hc, Nat.zero_add]

theorem encode_eq_nil_iff : encode cs = [] ↔ cs = [] := by
  cases cs with
  | nil => simp [encode]
  | cons c cs => simp [encode_cons, String.utf8EncodeChar_ne_nil]

theorem getLast?_encode_eq_newlineByte_iff :
    (encode cs).getLast? = some newlineByte ↔ cs.getLast? = some '\n' := by
  rcases List.eq_nil_or_concat cs with rfl | ⟨init, c, rfl⟩
  · simp [encode]
  · have hne : String.utf8EncodeChar c ≠ [] := String.utf8EncodeChar_ne_nil
    have hsingle : encode [c] = String.utf8EncodeChar c := List.append_nil _
    rw [List.concat_eq_append, encode_append, hsingle, List.getLast?_concat,
      List.getLast?_append_of_ne_nil _ hne, Option.some.injEq]
    constructor
    · exact fun h => newlineByte_mem_utf8EncodeChar_iff.mp (List.mem_of_getLast? h)
    · rintro rfl
      rfl

/-! ## Offsets -/

/-- The number of the line of the byte at an offset. -/
def lineOfByte (bytes : List UInt8) (offset : ℕ) : ℕ :=
  1 + (bytes.take offset).count newlineByte

/-- The number of bytes between the one at an offset and the newline before it, or the start. -/
def columnOfByte (bytes : List UInt8) (offset : ℕ) : ℕ :=
  ((bytes.take offset).rtakeWhile fun b => b ≠ newlineByte).length

/-- The number of bytes before the character at an offset. -/
def byteOffset (cs : List Char) (offset : ℕ) : ℕ :=
  (encode (cs.take offset)).length

/-- Lines are numbered alike by characters and by bytes. -/
theorem lineOfByte_byteOffset (cs : List Char) (offset : ℕ) :
    lineOfByte (encode cs) (byteOffset cs offset) = lineAt cs offset := by
  have htake : (encode cs).take (byteOffset cs offset) = encode (cs.take offset) := by
    calc
      (encode cs).take (byteOffset cs offset)
      _ = (encode (cs.take offset) ++ encode (cs.drop offset)).take (byteOffset cs offset) := by
        rw [← encode_append, List.take_append_drop]
      _ = encode (cs.take offset) := List.take_left
  rw [lineOfByte, htake, count_encode, lineAt]

/-- A byte belongs to a character of the text. -/
theorem exists_char_of_byte : ∀ {cs : List Char} {offset : ℕ} {b : UInt8},
    (encode cs)[offset]? = some b → ∃ before c after k, cs = before ++ c :: after ∧
      offset = (encode before).length + k ∧ (String.utf8EncodeChar c)[k]? = some b
  | [], _, _, h => by simp [encode] at h
  | c :: cs, offset, b, h => by
    rw [encode_cons] at h
    by_cases hlt : offset < (String.utf8EncodeChar c).length
    · rw [List.getElem?_append_left hlt] at h
      exact ⟨[], c, cs, offset, rfl, (Nat.zero_add offset).symm, h⟩
    · rw [List.getElem?_append_right (not_lt.mp hlt)] at h
      obtain ⟨before, d, after, k, rfl, hoffset, hb⟩ := exists_char_of_byte h
      refine ⟨c :: before, d, after, k, rfl, ?_, hb⟩
      rw [encode_cons, List.length_append]
      omega

/-- The bytes of a text, and more that hold no newline, end with the bytes behind the last
newline. -/
theorem LastLine.rtakeWhile_encode (h : LastLine cs column) {part : List UInt8}
    (hpart : newlineByte ∉ part) :
    (encode cs ++ part).rtakeWhile (fun b => b ≠ newlineByte) = encode column ++ part := by
  have hnot : ∀ b ∈ encode column ++ part, b ≠ newlineByte := by
    rintro b hb rfl
    rw [List.mem_append, newlineByte_mem_encode_iff] at hb
    exact hb.elim h.1 hpart
  obtain ⟨-, rfl | ⟨before, rfl⟩⟩ := h
  · exact List.rtakeWhile_eq_self_iff.mpr fun b hb => decide_eq_true (hnot b hb)
  · have hsplit : encode (before ++ '\n' :: column) ++ part =
        (encode before ++ [newlineByte]) ++ (encode column ++ part) := by
      rw [encode_append, encode_cons, List.append_assoc, List.append_assoc, List.append_assoc]
      rfl
    have htake : (encode column ++ part).reverse.takeWhile (fun b => b ≠ newlineByte) =
        (encode column ++ part).reverse :=
      List.takeWhile_eq_self_iff.mpr fun b hb => decide_eq_true (hnot b (List.mem_reverse.mp hb))
    rw [hsplit, List.rtakeWhile, List.reverse_append, List.takeWhile_append, htake, if_pos rfl,
      List.reverse_concat]
    simp

section

variable {k : ℕ} (hk : k < (String.utf8EncodeChar c).length) (hc : c ≠ '\n')

include hk

theorem take_encode (before after : List Char) :
    (encode (before ++ c :: after)).take ((encode before).length + k) =
      encode before ++ (String.utf8EncodeChar c).take k := by
  rw [encode_append, encode_cons, List.take_length_add_append,
    List.take_append_of_le_length hk.le]

include hc

theorem lineOfByte_append_cons (before after : List Char) :
    lineOfByte (encode (before ++ c :: after)) ((encode before).length + k) =
      1 + before.count '\n' := by
  rw [lineOfByte, take_encode hk, List.count_append, count_encode,
    List.count_eq_zero_of_not_mem (newlineByte_not_mem_take hc k), Nat.add_zero]

theorem columnOfByte_append_cons (h : LastLine before column) (after : List Char) :
    columnOfByte (encode (before ++ c :: after)) ((encode before).length + k) =
      (encode column).length + k := by
  rw [columnOfByte, take_encode hk, h.rtakeWhile_encode (newlineByte_not_mem_take hc k),
    List.length_append, List.length_take_of_le hk.le]

end

/-- A byte that is neither a newline nor the carriage return before one is found in its line at
its column. -/
theorem getElem?_lineOfByte {offset : ℕ} {b : UInt8} (h : (encode cs)[offset]? = some b)
    (hb : b ≠ newlineByte)
    (hreturn : ¬(b = returnByte ∧ (encode cs)[offset + 1]? = some newlineByte)) :
    ∃ line, (lines cs)[lineOfByte (encode cs) offset - 1]? = some line ∧
      (encode line)[columnOfByte (encode cs) offset]? = some b := by
  obtain ⟨before, c, after, k, rfl, rfl, hk⟩ := exists_char_of_byte h
  have hlt : k < (String.utf8EncodeChar c).length := (List.getElem?_eq_some_iff.mp hk).1
  have hc : c ≠ '\n' := by
    rintro rfl
    exact hb (List.mem_singleton.mp (List.mem_of_getElem? hk))
  have hreturn : ¬(c = '\r' ∧ after.head? = some '\n') := by
    rintro ⟨rfl, hafter⟩
    obtain ⟨rest, rfl⟩ := List.head?_eq_some_iff.mp hafter
    have hzero : k = 0 := Nat.lt_one_iff.mp hlt
    refine hreturn ⟨List.mem_singleton.mp (List.mem_of_getElem? hk), ?_⟩
    rw [hzero, encode_append, List.getElem?_append_right (by omega), Nat.add_zero,
      Nat.add_sub_cancel_left]
    rfl
  obtain ⟨column, hlast⟩ := exists_lastLine before
  obtain ⟨rest, hline⟩ := hlast.getElem?_lines hc hreturn
  refine ⟨column ++ c :: rest, ?_, ?_⟩
  · rw [lineOfByte_append_cons hlt hc, Nat.add_sub_cancel_left, hline]
  · rw [columnOfByte_append_cons hlt hc hlast, encode_append, encode_cons,
      List.getElem?_append_right (Nat.le_add_right _ _), Nat.add_sub_cancel_left,
      List.getElem?_append_left hlt, hk]

end Text

end CallAtlas
