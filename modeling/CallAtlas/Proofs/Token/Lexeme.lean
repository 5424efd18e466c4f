import CallAtlas.Proofs.Token.Scan
import CallAtlas.Text.Blank

/-!
# The lexemes of a text

What starts at a character is a blank, a comment or a token (`lexeme_cases`). A blank character
starts no token of the language but a newline (`eq_illegal_of_isBlank`): the scanner skips it, or it
is illegal, as every character is that no token starts with (`StartsNothing`).

The scanner cuts a text into lexemes and keeps the tokens among them. So every character belongs
to a lexeme (`exists_lexemeAt`), and no token reaches into a lexeme that it is not (`LexemeAt`).
-/

namespace CallAtlas.Token

variable {c : Char} {chars cs rest : List Char} {found : List Token} {t : Token} {l : Lexeme}
  {kind : Kind} {i n start finish : ℕ}

/-! ## Lexemes -/

/-- The characters that a comment goes on with. -/
def inComment (c : Char) : Bool :=
  c != '\r' && c != '\n' && c != null

theorem exists_quoteLexeme {quote : Char} {escape : Char → List Char → Bool}
    {kindOf : List Char → Kind} (h : quoteLexeme quote escape kindOf rest = (l, n)) :
    ∃ kind, l = .token kind := by
  rcases quoteLexeme_cases h with ⟨rfl, -⟩ | ⟨-, rfl⟩
  · exact ⟨_, rfl⟩
  · exact ⟨_, rfl⟩

theorem exists_signLexeme (h : signLexeme c rest = (l, n)) : ∃ kind, l = .token kind := by
  unfold signLexeme at h
  grind

/-- A lexeme is a blank, a comment or a token. -/
theorem lexeme_cases (h : lexeme c rest = (l, n)) :
    (l = .blank ∧ n = 0 ∧ isSpace c = true) ∨
    (l = .comment ∧ n = (rest.takeWhile inComment).length ∧ c = '#') ∨
    (∃ kind, l = .token kind) ∧ isSpace c = false ∧ c ≠ '#' := by
  unfold lexeme at h
  generalize (if c = 'r' ∨ c = 'R' then rawOpening? rest else none) = raw at h
  split_ifs at h with hnewline hspace hhash
  · cases h
    exact Or.inr (Or.inr ⟨⟨.newline, rfl⟩, hnewline ▸ rfl, hnewline ▸ by decide⟩)
  · cases h
    exact Or.inl ⟨rfl, rfl, hspace⟩
  · cases h
    exact Or.inr (Or.inl ⟨rfl, rfl, hhash⟩)
  all_goals
    refine Or.inr (Or.inr ⟨?_, by simpa using hspace, hhash⟩)
  · exact exists_quoteLexeme h
  · exact exists_quoteLexeme h
  · cases h
    exact ⟨_, rfl⟩
  · split at h
    · split at h
      · cases h
        exact ⟨_, rfl⟩
      · cases h
        exact ⟨_, rfl⟩
    · split at h
      · cases h
        exact ⟨_, rfl⟩
      · exact exists_signLexeme h

/-- No token of the language starts with the character. -/
def StartsNothing (c : Char) : Prop :=
  c ∉ ['\n', '#', '"', '\x27', '\x60', '.', 'r', 'R', '(', ')', '{', '}', '[', ']', ',', ';', '\\',
    '%'] ∧ isSpace c = false ∧ c.isDigit = false ∧ isWordStart c = false ∧
    ∀ s ∈ Operator.spellings, s.1 ≠ [] ∧ s.1.head? ≠ some c

instance (c : Char) : Decidable (StartsNothing c) :=
  inferInstanceAs (Decidable (_ ∧ _))

theorem lexeme_of_startsNothing (h : StartsNothing c) (rest : List Char) :
    lexeme c rest = (.token .illegal, 0) := by
  obtain ⟨hc, hspace, hdigit, hword, hoperator⟩ := h
  simp only [List.mem_cons, List.not_mem_nil, or_false, not_or] at hc
  have hfind : Operator.spellings.find? (fun s => s.1.isPrefixOf (c :: rest)) = none := by
    rw [List.find?_eq_none]
    intro s hs hfront
    obtain ⟨hne, hhead⟩ := hoperator s hs
    obtain ⟨d, more, hspelling⟩ := List.exists_cons_of_ne_nil hne
    rw [hspelling] at hfront hhead
    simp only [List.isPrefixOf_cons_cons, Bool.and_eq_true, beq_iff_eq] at hfront
    exact hhead (by rw [hfront.1]; rfl)
  have hsign : signLexeme c rest = (.token .illegal, 0) := by
    unfold signLexeme
    split
    case h_11 => rw [hfind]
    all_goals simp at hc
  simp [lexeme, wordLength?, hc, hspace, hdigit, hword, hsign]

theorem inRanges_eq_any (ranges : Array (ℕ × ℕ)) (n : ℕ) :
    Text.inRanges ranges n = ranges.toList.any fun r => r.1 ≤ n && n ≤ r.2 :=
  (Array.any_toList ..).symm

/-- A blank character is a newline or one that the scanner skips, or no token starts with it. The
ranges of letters are searched as lists here, along which the kernel walks faster. -/
theorem isBlank_cases (h : Text.isBlank c = true) :
    c = '\n' ∨ isSpace c = true ∨ StartsNothing c := by
  let codes := [0x09, 0x0A, 0x0B, 0x0C, 0x0D, 0x20, 0x85, 0xA0, 0x1680, 0x2000, 0x2001, 0x2002,
    0x2003, 0x2004, 0x2005, 0x2006, 0x2007, 0x2008, 0x2009, 0x200A, 0x2028, 0x2029, 0x202F, 0x205F,
    0x3000]
  have hcode : c.toNat ∈ codes := by
    simp only [Text.isBlank, Bool.or_eq_true, Bool.and_eq_true, decide_eq_true_eq, beq_iff_eq] at h
    simp only [codes, List.mem_cons, List.not_mem_nil, or_false]
    omega
  have hall : ∀ n ∈ codes, Char.ofNat n = '\n' ∨ isSpace (Char.ofNat n) = true ∨
      StartsNothing (Char.ofNat n) := by
    simp only [StartsNothing, isWordStart, Text.isIdentifierStart, inRanges_eq_any]
    decide +kernel
  have hc := hall c.toNat hcode
  rwa [Char.ofNat_toNat] at hc

/-- No token of the language but a newline starts with a blank. -/
theorem eq_illegal_of_isBlank (hc : Text.isBlank c = true) (hne : c ≠ '\n')
    (h : lexeme c rest = (.token kind, n)) : kind = .illegal := by
  rcases isBlank_cases hc with hnewline | hspace | hnothing
  · exact absurd hnewline hne
  · rcases lexeme_cases h with ⟨hl, -⟩ | ⟨hl, -⟩ | ⟨-, hnot, -⟩
    · cases hl
    · cases hl
    · rw [hnot] at hspace
      cases hspace
  · cases (lexeme_of_startsNothing hnothing rest).symm.trans h
    rfl

/-! ## The lexemes of a text -/

/-- The lexeme of `n + 1` characters at an offset. It is one of the tokens, or it is none and no
token reaches into it. -/
structure LexemeAt (chars : List Char) (ts : List Token) (start : ℕ) (l : Lexeme) (n : ℕ) :
    Prop where
  read : ∃ c rest, chars.drop start = c :: rest ∧ lexeme c rest = (l, n)
  mem : ∀ kind, l = .token kind → ⟨kind, start, start + 1 + n⟩ ∈ ts
  apart : ∀ t ∈ ts, t.stop ≤ start ∨ start + 1 + n ≤ t.start ∨
    l = .token t.kind ∧ t.start = start ∧ t.stop = start + 1 + n

theorem getElem?_of_drop_eq_cons (h : chars.drop start = c :: rest) (i : ℕ) :
    chars[start + i]? = (c :: rest)[i]? := by
  rw [← h, List.getElem?_drop]

theorem LexemeAt.exists_rest {ts : List Token} (h : LexemeAt chars ts start l n)
    (hc : chars[start]? = some c) :
    ∃ rest, chars.drop start = c :: rest ∧ lexeme c rest = (l, n) := by
  obtain ⟨d, rest, hcs, hl⟩ := h.read
  obtain rfl : d = c := Option.some.inj ((getElem?_of_drop_eq_cons hcs 0).symm.trans hc)
  exact ⟨rest, hcs, hl⟩

theorem mem_scanFrom (h : t ∈ (scanFrom start finish found cs).tokens) :
    t ∈ found ∨ start ≤ t.start := by
  fun_induction scanFrom start finish found cs with
  | case1 => exact Or.inl (List.mem_reverse.mp h)
  | case2 _ _ _ _ _ _ _ _ ih | case3 _ _ _ _ _ _ _ _ ih =>
    exact (ih h).imp_right fun hle => by omega
  | case4 start _ _ _ _ n stop kind _ ih =>
    rcases ih h with hmem | hle
    · rcases List.mem_cons.mp hmem with rfl | hmem
      · exact Or.inr le_rfl
      · exact Or.inl hmem
    · exact Or.inr (by omega)

theorem mem_scanFrom_of_mem (h : t ∈ found) : t ∈ (scanFrom start finish found cs).tokens := by
  fun_induction scanFrom start finish found cs with
  | case1 => exact List.mem_reverse.mpr h
  | case2 _ _ _ _ _ _ _ _ ih | case3 _ _ _ _ _ _ _ _ ih => exact ih h
  | case4 _ _ _ _ _ _ _ _ _ ih => exact ih (List.mem_cons_of_mem _ h)

/-- One step of the scanner reads the lexeme at its offset. -/
theorem lexemeAt_of_scanFrom (hcs : chars.drop start = c :: rest) (hl : lexeme c rest = (l, n))
    (hmem : ∀ kind, l = .token kind → ⟨kind, start, start + 1 + n⟩ ∈ found)
    (hfound : ∀ t ∈ found, t.stop ≤ start ∨
      l = .token t.kind ∧ t.start = start ∧ t.stop = start + 1 + n) :
    LexemeAt chars (scanFrom (start + 1 + n) finish found (rest.drop n)).tokens start l n where
  read := ⟨c, rest, hcs, hl⟩
  mem kind hkind := mem_scanFrom_of_mem (hmem kind hkind)
  apart t ht := by
    rcases mem_scanFrom ht with hold | hnew
    · exact (hfound t hold).imp_right Or.inr
    · exact Or.inr (Or.inl hnew)

theorem exists_lexemeAt_scanFrom (hcs : chars.drop start = cs)
    (hfound : ∀ t ∈ found, t.stop ≤ start) (hstart : start ≤ i) (hi : i < chars.length) :
    ∃ j l n, LexemeAt chars (scanFrom start finish found cs).tokens j l n ∧ j ≤ i ∧ i ≤ j + n := by
  fun_induction scanFrom start finish found cs with
  | case1 =>
    have hlength := List.drop_eq_nil_iff.mp hcs
    omega
  | case2 start _ _ _ _ n stop hl ih | case3 start _ _ _ _ n stop hl ih =>
    by_cases hle : i ≤ start + n
    · refine ⟨start, _, n, lexemeAt_of_scanFrom hcs hl (by simp) fun t ht => ?_, hstart, hle⟩
      exact Or.inl (hfound t ht)
    · refine ih (drop_of_drop_eq_cons hcs n) (fun t ht => (hfound t ht).trans ?_) ?_ <;> omega
  | case4 start _ _ _ _ n stop kind hl ih =>
    by_cases hle : i ≤ start + n
    · refine ⟨start, _, n, lexemeAt_of_scanFrom hcs hl ?_ fun t ht => ?_, hstart, hle⟩
      · intro _ hkind
        cases hkind
        exact List.mem_cons_self
      · rcases List.mem_cons.mp ht with rfl | ht
        · exact Or.inr ⟨rfl, rfl, rfl⟩
        · exact Or.inl (hfound t ht)
    · refine ih (drop_of_drop_eq_cons hcs n) (List.forall_mem_cons.mpr ⟨le_rfl, fun t ht => ?_⟩) ?_
      · exact (hfound t ht).trans (by omega)
      · omega

/-- The scanner starts in front of all characters but a byte order mark. -/
theorem exists_scan_eq (chars : List Char) :
    ∃ first, scan chars = scanFrom first 0 [] (chars.drop first) ∧
      ∀ i c, chars[i]? = some c → c ≠ '\uFEFF' → first ≤ i := by
  unfold scan
  split
  · refine ⟨1, rfl, fun i c hi hc => ?_⟩
    cases i with
    | zero => exact absurd (Option.some.inj hi).symm hc
    | succ i => exact Nat.le_add_left 1 i
  · exact ⟨0, rfl, fun i _ _ _ => Nat.zero_le i⟩

/-- Every character but a byte order mark belongs to a lexeme. -/
theorem exists_lexemeAt (hi : chars[i]? = some c) (hc : c ≠ '\uFEFF') :
    ∃ j l n, LexemeAt chars (scan chars).tokens j l n ∧ j ≤ i ∧ i ≤ j + n := by
  obtain ⟨first, hscan, hfirst⟩ := exists_scan_eq chars
  obtain ⟨hlength, -⟩ := List.getElem?_eq_some_iff.mp hi
  rw [hscan]
  exact exists_lexemeAt_scanFrom rfl (by simp) (hfirst i c hi hc) hlength

/-- A token is the lexeme at its start. -/
theorem exists_lexemeAt_of_mem (ht : t ∈ (scan chars).tokens) (hkind : t.kind ≠ .newline) :
    ∃ n, LexemeAt chars (scan chars).tokens t.start (.token t.kind) n ∧
      t.stop = t.start + 1 + n := by
  have hplaced := (inOrder_scan chars).placed t ht
  obtain ⟨d, hd, -⟩ := hplaced.last hkind
  obtain ⟨hlength, -⟩ := List.getElem?_eq_some_iff.mp hd
  have hlt := hplaced.start_lt_stop
  obtain ⟨j, l, n, hat, hle, hge⟩ :
      ∃ j l n, LexemeAt chars (scan chars).tokens j l n ∧ j ≤ t.start ∧ t.start ≤ j + n := by
    obtain ⟨first, hscan, -⟩ := exists_scan_eq chars
    rw [hscan] at ht ⊢
    have hfirst := (mem_scanFrom ht).resolve_left (by simp)
    exact exists_lexemeAt_scanFrom rfl (by simp) hfirst (by omega)
  rcases hat.apart t ht with hbefore | hbehind | ⟨rfl, rfl, hstop⟩
  · omega
  · omega
  · exact ⟨n, hat, hstop⟩

end CallAtlas.Token
