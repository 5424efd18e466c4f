import Mathlib.Data.List.Find
import Mathlib.Tactic.FinCases
import CallAtlas.Proofs.Token.Lexeme

/-!
# Scanning a text in parts

The scanner takes the longest token that it can, so what stands behind a part of a text may change
the tokens of the part. It does not if it starts with a character that ends the last token
(`lexeme_append`): a blank, a newline, a comment sign or a closing bracket ends every token
(`breaks`), and `<` and `=` end every token but an operator (`stops`).

`ScansTo` states which tokens a part of a text is, in front of what stands behind it. The parts are
put together by `ScansTo.append`. A part that is scanned as it is on its own is one that ends with a
token (`scansTo_of_last`), an operator that no sign follows (`operator_scansTo`), or what stands
between tokens (`Gap.scansTo`).
-/

namespace CallAtlas.Token

variable {c : Char} {cs rest back : List Char} {n read : ℕ} {kind : Kind} {p : Char → Bool}

/-! ## Characters that end a token -/

/-- Blanks, newlines, comment signs and closing brackets. They end every token before them, strings
and quoted names aside. -/
def breaks : List Char :=
  [' ', '\t', '\r', '\x0b', '\x0c', '\n', '#', ')']

/-- The characters that end every token before them but an operator. -/
def stops : List Char :=
  '<' :: '=' :: breaks

theorem mem_stops_of_mem_breaks (h : c ∈ breaks) : c ∈ stops :=
  List.mem_cons_of_mem _ (List.mem_cons_of_mem _ h)

/-- The characters that operators are spelled with, those between percent signs aside. -/
def signs : List Char :=
  ['?', '=', '~', '|', '&', '!', '<', '>', '+', '-', '*', '/', ':', '^', '$', '@']

/-- The text starts with a character that has the property, if with any. -/
def HeadIs (P : Char → Prop) (cs : List Char) : Prop :=
  ∀ c ∈ cs.head?, P c

theorem headIs_nil (P : Char → Prop) : HeadIs P [] := by
  simp [HeadIs]

/-- A run of characters stops before one that is not of the run. -/
theorem takeWhile_append_of_head (h : HeadIs (p · = false) back) (cs : List Char) :
    (cs ++ back).takeWhile p = cs.takeWhile p := by
  induction cs with
  | nil =>
    cases back with
    | nil => rfl
    | cons d back => exact List.takeWhile_cons_of_neg (by simp [h d rfl])
  | cons c cs ih =>
    rw [List.cons_append, List.takeWhile_cons, List.takeWhile_cons, ih]

theorem any_head?_append (h : HeadIs (p · = false) back) (cs : List Char) :
    (cs ++ back).head?.any p = cs.head?.any p := by
  cases cs with
  | nil =>
    cases back with
    | nil => rfl
    | cons d back => exact h d rfl
  | cons c cs => rfl

section

variable (hback : HeadIs (· ∈ stops) back)

include hback

/-- What starts with a character that ends tokens does not go on with a class that has none of them.
-/
theorem HeadIs.of_stops (hp : stops.any p = false) : HeadIs (p · = false) back :=
  fun c hc => Bool.eq_false_iff.mpr (List.any_eq_false.mp hp c (hback c hc))

theorem HeadIs.cases_of_stops : back = [] ∨ ∃ d more, back = d :: more ∧ ∀ c ∉ stops, d ≠ c := by
  cases back with
  | nil => exact Or.inl rfl
  | cons d more =>
    refine Or.inr ⟨d, more, rfl, ?_⟩
    rintro c hc rfl
    exact hc (hback d rfl)

/-! ## Numbers -/

theorem digitCount_append (cs : List Char) : digitCount (cs ++ back) = digitCount cs := by
  rw [digitCount, takeWhile_append_of_head (hback.of_stops (by decide)), digitCount]

theorem hexCount_append (cs : List Char) : hexCount (cs ++ back) = hexCount cs := by
  rw [hexCount, takeWhile_append_of_head (hback.of_stops (by decide)), hexCount]

theorem signCount_append (cs : List Char) : signCount (cs ++ back) = signCount cs := by
  rw [signCount, any_head?_append (hback.of_stops (by decide)), signCount]

/-- A fraction needs a point, and no character that ends tokens is one. -/
theorem mantissaLength_append {count : List Char → ℕ} (hcount : ∀ cs, Clear (count cs) cs)
    (happend : ∀ cs, count (cs ++ back) = count cs) (cs : List Char) :
    mantissaLength count (cs ++ back) = mantissaLength count cs := by
  have hdrop : (cs ++ back).drop (count cs) = cs.drop (count cs) ++ back :=
    List.drop_append_of_le_length (hcount cs).1
  unfold mantissaLength
  simp only [happend, hdrop]
  cases cs.drop (count cs) with
  | nil =>
    rcases hback.cases_of_stops with rfl | ⟨d, more, rfl, hd⟩
    · rfl
    · simp [hd '.' (by decide)]
  | cons d more =>
    by_cases hd : d = '.'
    · subst hd
      simp [happend]
    · simp [hd]

/-- The digits of a power, behind its sign, end where they do on their own. -/
theorem powerDigits_append (rest : List Char) :
    digitCount ((rest ++ back).drop (signCount rest)) =
      digitCount (rest.drop (signCount rest)) := by
  rw [List.drop_append_of_le_length (clear_signCount rest).1, digitCount_append hback]

/-- A power starts with a letter, and no character that ends tokens is one. -/
theorem decimalPowerLength_append (cs : List Char) :
    decimalPowerLength (cs ++ back) = decimalPowerLength cs := by
  cases cs with
  | nil =>
    rcases hback.cases_of_stops with rfl | ⟨d, more, rfl, hd⟩
    · rfl
    · simp [decimalPowerLength, hd 'e' (by decide), hd 'E' (by decide)]
  | cons e rest =>
    simp only [List.cons_append, decimalPowerLength, signCount_append hback,
      powerDigits_append hback]

theorem binaryPowerLength_append (cs : List Char) :
    binaryPowerLength (cs ++ back) = binaryPowerLength cs := by
  cases cs with
  | nil =>
    rcases hback.cases_of_stops with rfl | ⟨d, more, rfl, hd⟩
    · rfl
    · simp [binaryPowerLength, hd 'p' (by decide), hd 'P' (by decide)]
  | cons p rest =>
    simp only [List.cons_append, binaryPowerLength, signCount_append hback,
      powerDigits_append hback]

/-- A hexadecimal number starts with two characters, which may both stand in the first text, or one,
or none. -/
theorem hexNumberLength_append (cs : List Char) :
    hexNumberLength (cs ++ back) = hexNumberLength cs := by
  rcases cs with _ | ⟨c, _ | ⟨x, rest⟩⟩
  · rcases hback.cases_of_stops with rfl | ⟨d, more, rfl, hd⟩
    · rfl
    · simp [hexNumberLength, hd '0' (by decide)]
  · rcases hback.cases_of_stops with rfl | ⟨d, more, rfl, hd⟩
    · rfl
    · by_cases hc : c = '0'
      · simp [hexNumberLength, hc, hd 'x' (by decide), hd 'X' (by decide)]
      · simp [hexNumberLength, hc]
  · by_cases hc : c = '0'
    · have hmantissa := mantissaLength_append hback clear_hexCount (hexCount_append hback) rest
      have hdrop : (rest ++ back).drop (mantissaLength hexCount rest) =
          rest.drop (mantissaLength hexCount rest) ++ back :=
        List.drop_append_of_le_length (clear_mantissaLength clear_hexCount rest).1
      simp only [hc, List.cons_append, hexNumberLength, hmantissa, hdrop,
        binaryPowerLength_append hback]
    · simp [hexNumberLength, hc]

/-- A number ends where it does on its own. -/
theorem numberLength_append (cs : List Char) : numberLength (cs ++ back) = numberLength cs := by
  have hmantissa := mantissaLength_append hback clear_digitCount (digitCount_append hback) cs
  have hdrop : (cs ++ back).drop (mantissaLength digitCount cs) =
      cs.drop (mantissaLength digitCount cs) ++ back :=
    List.drop_append_of_le_length (clear_mantissaLength clear_digitCount cs).1
  simp only [numberLength, hexNumberLength_append hback, hmantissa, hdrop,
    decimalPowerLength_append hback]

/-! ## Words -/

end

/-- A word can go on with what it can start with. -/
theorem isWordRest_of_start (h : (isWordStart c || c == '.') = true) : isWordRest c = true := by
  simp only [isWordStart, Bool.or_eq_true, beq_iff_eq] at h
  rcases h with (hstart | rfl) | rfl
  · simp only [isWordRest, Text.isIdentifierStart, Text.isIdentifierRest, Char.isAlphanum]
      at hstart ⊢
    split_ifs at hstart ⊢ <;> simp [hstart]
  · decide
  · decide

/-- A word ends where it does on its own. -/
theorem wordLength?_append (hback : HeadIs (isWordRest · = false) back) (c : Char)
    (rest : List Char) : wordLength? c (rest ++ back) = wordLength? c rest := by
  have hstart : HeadIs (fun d => (isWordStart d || d == '.') = false) back := by
    intro d hd
    refine Bool.eq_false_iff.mpr fun h => ?_
    exact Bool.false_ne_true ((hback d hd).symm.trans (isWordRest_of_start h))
  simp only [wordLength?, takeWhile_append_of_head hback, any_head?_append hstart]

/-! ## Strings and quoted names -/

theorem takeWhile_append_of_lt (h : (cs.takeWhile p).length < cs.length) (back : List Char) :
    (cs ++ back).takeWhile p = cs.takeWhile p := by
  rw [List.takeWhile_append, if_neg (by omega)]

/-- An escape in braces is complete with its closing brace. -/
theorem bracedHex_append {most : ℕ} (h : bracedHex most cs = true) (back : List Char) :
    bracedHex most (cs ++ back) = true := by
  simp only [bracedHex, Bool.and_eq_true, beq_iff_eq] at h ⊢
  obtain ⟨more, hmore⟩ := List.head?_eq_some_iff.mp h.2
  have hlt : hexCount cs < cs.length := by
    by_contra hle
    rw [List.drop_eq_nil_of_le (by omega)] at hmore
    cases hmore
  have hcount : hexCount (cs ++ back) = hexCount cs := by
    rw [hexCount, takeWhile_append_of_lt hlt, hexCount]
  rw [hcount, List.drop_append_of_le_length hlt.le, hmore]
  exact ⟨h.1, rfl⟩

theorem any_head?_append_of_any (h : cs.head?.any p = true) (back : List Char) :
    (cs ++ back).head?.any p = true := by
  cases cs with
  | nil => cases h
  | cons c cs => exact h

/-- What is an escape on its own is one in front of other characters. -/
theorem isEscape_append {e : Char} (h : isEscape e rest = true) (back : List Char) :
    isEscape e (rest ++ back) = true := by
  unfold isEscape at h ⊢
  generalize (if e = 'u' then 4 else 8) = most at h ⊢
  split_ifs at h ⊢
  · exact h
  · exact any_head?_append_of_any h back
  · cases rest with
    | nil => cases h
    | cons d rest =>
      by_cases hd : d = '{'
      · subst hd
        exact bracedHex_append h back
      · simpa [hd] using h
  · exact h

/-- A quote that is closed is closed at the same place in a longer text. -/
theorem quoteEnd?_append {quote : Char} (hquote : quote ≠ '\\')
    {escape : Char → List Char → Bool} (h : quoteEnd? quote escape read cs = some n)
    (hescape : ∀ e rest, escape e rest = true → escape e (rest ++ back) = true) :
    quoteEnd? quote escape read (cs ++ back) = some n := by
  fun_induction quoteEnd? quote escape read cs with
  | case1 => cases h
  | case2 _ e rest hesc ih =>
    simp only [List.cons_append, quoteEnd?]
    rw [if_pos (hescape e rest hesc)]
    exact ih h
  | case3 => cases h
  | case4 =>
    cases h
    simp [quoteEnd?, hquote]
  | case5 => cases h
  | case6 read c rest hpattern hne hnull ih =>
    have hc : c ≠ '\\' := by
      rintro rfl
      cases rest with
      | nil => cases h
      | cons e rest => exact hpattern e rest rfl rfl
    simp [quoteEnd?, hc, hne, hnull, ih h]

/-- What stands behind the closing quote does not matter, if it makes no escape invalid. -/
theorem quoteLexeme_append {quote : Char} (hquote : quote ≠ '\\')
    {escape : Char → List Char → Bool} {kindOf : List Char → Kind}
    (h : quoteLexeme quote escape kindOf rest = (.token kind, n)) (hkind : kind ≠ .illegal)
    (hescape : ∀ e rest, escape e rest = true → escape e (rest ++ back) = true) :
    quoteLexeme quote escape kindOf (rest ++ back) = (.token kind, n) := by
  rcases quoteLexeme_cases h with ⟨hillegal, -⟩ | ⟨hend, hfound⟩
  · cases hillegal
    exact absurd rfl hkind
  · obtain ⟨m, hm, hlast⟩ := quoteEnd?_eq_some hend
    obtain ⟨hlt, -⟩ := List.getElem?_eq_some_iff.mp hlast
    have htake : (rest ++ back).take n = rest.take n :=
      List.take_append_of_le_length (by omega)
    rw [quoteLexeme, quoteEnd?_append hquote hend hescape, hfound, ← htake]

/-- A raw string that is closed is closed at the same place in a longer text. The closing text is
found in what is left, so it is not found before with the characters behind. -/
theorem rawEnd?_append {closer : List Char} (h : rawEnd? closer read cs = some n)
    (back : List Char) : rawEnd? closer read (cs ++ back) = some n := by
  fun_induction rawEnd? closer read cs with
  | case1 => cases h
  | case2 _ c rest hcloser =>
    cases h
    rw [List.isPrefixOf_iff_prefix] at hcloser
    have hcloser := hcloser.trans (List.prefix_append (c :: rest) back)
    exact if_pos (List.isPrefixOf_iff_prefix.mpr hcloser)
  | case3 _ c rest hcloser ih =>
    obtain ⟨m, -, hm⟩ := rawEnd?_eq_some h
    have hle := hm.length_le.trans (List.drop_sublist m rest).length_le
    rw [List.cons_append, rawEnd?, if_neg, ih h]
    intro hcloser'
    refine hcloser (List.isPrefixOf_iff_prefix.mpr ?_)
    exact List.prefix_of_prefix_length_le (List.isPrefixOf_iff_prefix.mp hcloser')
      (List.prefix_append (c :: rest) back) (hle.trans (Nat.le_succ _))

/-- A raw string is opened by a quote, hyphens and a bracket, none of which ends tokens. -/
theorem rawOpening?_append (hback : HeadIs (· ∈ stops) back) (cs : List Char) :
    rawOpening? (cs ++ back) = rawOpening? cs := by
  cases cs with
  | nil =>
    rcases hback.cases_of_stops with rfl | ⟨d, more, rfl, hd⟩
    · rfl
    · simp [rawOpening?, hd '"' (by decide), hd '\x27' (by decide)]
  | cons quote rest =>
    have hhyphens := takeWhile_append_of_head (p := fun c => c == '-')
      (hback.of_stops (by decide)) rest
    have hcloser : ∀ cs : List Char,
        ((cs ++ back).head? >>= rawCloser?) = (cs.head? >>= rawCloser?) := by
      rintro (_ | ⟨c, cs⟩)
      · rcases hback.cases_of_stops with rfl | ⟨d, more, rfl, hd⟩
        · rfl
        · simp [rawCloser?, hd '(' (by decide), hd '[' (by decide), hd '{' (by decide)]
      · rfl
    have hle := (List.takeWhile_prefix (p := fun c => c == '-') (l := rest)).length_le
    simp only [List.cons_append, rawOpening?, hhyphens, List.drop_append_of_le_length hle, hcloser]

/-! ## One lexeme -/

/-- A text that lacks the first character of the second part does not reach into it. -/
theorem isPrefixOf_append_of_head {front : List Char} (h : HeadIs (· ∉ front) back)
    (cs : List Char) : front.isPrefixOf (cs ++ back) = front.isPrefixOf cs := by
  induction front generalizing cs with
  | nil => simp
  | cons a front ih =>
    cases cs with
    | nil =>
      cases back with
      | nil => rfl
      | cons d more =>
        have hd := h d rfl
        simp only [List.mem_cons, not_or] at hd
        rw [List.nil_append, List.isPrefixOf_cons_cons, beq_false_of_ne (Ne.symm hd.1)]
        rfl
    | cons c cs =>
      have hfront : HeadIs (· ∉ front) back := fun d hd hmem => h d hd (List.mem_cons_of_mem a hmem)
      rw [List.cons_append, List.isPrefixOf_cons_cons, List.isPrefixOf_cons_cons, ih hfront]

theorem subset_signs_of_mem_spellings : ∀ s ∈ Operator.spellings, s.1 ⊆ signs := by
  decide

theorem not_mem_signs_of_mem_breaks : ∀ c ∈ breaks, c ∉ signs := by
  simp [breaks, signs]

/-- The operator that is found is the same if no sign follows. -/
theorem find?_spellings_append (hback : HeadIs (· ∉ signs) back) (cs : List Char) :
    Operator.spellings.find? (fun s => s.1.isPrefixOf (cs ++ back)) =
      Operator.spellings.find? fun s => s.1.isPrefixOf cs := by
  refine List.find?_congr fun s hs => isPrefixOf_append_of_head (fun d hd hmem => ?_) cs
  exact hback d hd (subset_signs_of_mem_spellings s hs hmem)

theorem head?_append_eq_iff (hback : HeadIs (· ∈ stops) back) {d : Char} (hd : d ∉ stops)
    (cs : List Char) : (cs ++ back).head? = some d ↔ cs.head? = some d := by
  cases cs with
  | nil =>
    refine ⟨fun h => absurd (hback d h) hd, fun h => ?_⟩
    cases h
  | cons c cs => rfl

/-- A sign is read as it is on its own. More than one character is looked at for a square bracket,
which may be doubled (`h_5`), for an operator between percent signs (`h_10`) and for an operator
with a fixed spelling (`h_11`). -/
theorem signLexeme_append (hback : HeadIs (· ∈ stops) back)
    (h : signLexeme c rest = (.token kind, n)) (hkind : kind ≠ .illegal)
    (hoperator : ∀ op, kind = .operator op → HeadIs (· ∈ breaks) back) :
    signLexeme c (rest ++ back) = (.token kind, n) := by
  unfold signLexeme at h ⊢
  split at h
  case h_5 =>
    simpa only [head?_append_eq_iff hback (d := '[') (by decide)] using h
  case h_10 =>
    extract_lets length at h
    split_ifs at h with hpercent
    · cases h
      obtain ⟨more, hmore⟩ := List.head?_eq_some_iff.mp hpercent
      have hlt : length < rest.length := by
        by_contra hle
        rw [List.drop_eq_nil_of_le (by omega)] at hmore
        cases hmore
      dsimp only
      rw [takeWhile_append_of_lt hlt, List.drop_append_of_le_length hlt.le, hmore]
      rfl
    · cases h
      exact absurd rfl hkind
  case h_11 =>
    have hback : HeadIs (· ∈ breaks) back := by
      split at h
      · next op _ =>
        cases h
        exact hoperator op rfl
      · cases h
        exact absurd rfl hkind
    have hsigns : HeadIs (· ∉ signs) back := fun d hd => not_mem_signs_of_mem_breaks d (hback d hd)
    rwa [← List.cons_append, find?_spellings_append hsigns]
  all_goals exact h

/-- What follows a token of the language does not matter if it starts with a character that ends the
token. -/
theorem lexeme_append (hback : HeadIs (· ∈ stops) back) (h : lexeme c rest = (.token kind, n))
    (hkind : kind ≠ .illegal) (hoperator : ∀ op, kind = .operator op → HeadIs (· ∈ breaks) back) :
    lexeme c (rest ++ back) = (.token kind, n) := by
  have hdigit := any_head?_append (p := Char.isDigit) (hback.of_stops (by decide)) rest
  have hnumber := numberLength_append hback (c :: rest)
  have hword := wordLength?_append (hback.of_stops (by decide)) c rest
  unfold lexeme at h ⊢
  rw [hdigit, rawOpening?_append hback, hword]
  generalize hraw : (if c = 'r' ∨ c = 'R' then rawOpening? rest else none) = raw at h ⊢
  split_ifs at h ⊢ with hnewline hspace hcomment htext hname hdigit
  · exact h
  · cases h
  · cases h
  · refine quoteLexeme_append ?_ h hkind fun e rest he => isEscape_append he back
    rintro rfl
    simp at htext
  · refine quoteLexeme_append ?_ h hkind fun e rest he => he
    rintro rfl
    simp at hname
  · rw [← List.cons_append, hnumber]
    exact h
  · split at h
    · next closer opening =>
      split at h
      · next hend =>
        cases h
        have hlt : opening < rest.length := by
          by_contra hle
          rw [List.drop_eq_nil_of_le (by omega)] at hend
          cases hend
        rw [List.drop_append_of_le_length hlt.le, rawEnd?_append hend back]
      · cases h
        exact absurd rfl hkind
    · split at h
      · next hlength =>
        cases h
        have hle := (clear_wordLength? hnewline hlength).1
        rw [List.take_append_of_le_length (Nat.le_of_succ_le_succ hle)]
      · exact signLexeme_append hback h hkind hoperator

/-- A sign starts an operator with a fixed spelling. -/
theorem lexeme_of_mem_signs (hc : c ∈ signs) (rest : List Char) :
    ∃ s ∈ Operator.spellings.find? fun s => s.1.isPrefixOf (c :: rest),
      lexeme c rest = (.token (.operator s.2), s.1.length - 1) := by
  have hlexeme : lexeme c rest = signLexeme c rest := by
    fin_cases hc <;> rfl
  have hsign : ∃ s ∈ Operator.spellings, s.1 = [c] := by
    fin_cases hc <;> decide
  cases hfind : Operator.spellings.find? fun s => s.1.isPrefixOf (c :: rest) with
  | none =>
    obtain ⟨s, hs, hspelling⟩ := hsign
    have hno := List.find?_eq_none.mp hfind s hs
    simp [hspelling] at hno
  | some s =>
    refine ⟨s, rfl, hlexeme.trans ?_⟩
    unfold signLexeme
    split
    case h_11 => rw [hfind]
    all_goals simp [signs] at hc

theorem length_le_of_lexeme (h : lexeme c rest = (.token kind, n)) : n ≤ rest.length := by
  by_cases hc : c = '\n'
  · subst hc
    cases h
    exact Nat.zero_le _
  · rcases clear_or_isQuoted hc h with hclear | ⟨-, d, hd, -⟩
    · exact Nat.le_of_succ_le_succ hclear.1
    · exact Nat.le_of_lt_succ (List.getElem?_eq_some_iff.mp hd).1

/-! ## The whole text -/

/-- The token, so many characters further on. -/
def shift (d : ℕ) (t : Token) : Token :=
  ⟨t.kind, t.start + d, t.stop + d⟩

/-- The tokens that a scanning step finds. -/
def Lexeme.tokens (start stop : ℕ) : Lexeme → List Token
  | .blank | .comment => []
  | .token kind => [⟨kind, start, stop⟩]

/-- The tokens of a text that stands at an offset. -/
def tokensFrom (start : ℕ) (cs : List Char) : List Token :=
  match cs with
  | [] => []
  | c :: rest =>
    let (l, n) := lexeme c rest
    l.tokens start (start + 1 + n) ++ tokensFrom (start + 1 + n) (rest.drop n)
termination_by cs.length
decreasing_by simp only [List.length_drop, List.length_cons]; omega

variable {start : ℕ} {l : Lexeme} {t : Token} {ts ts' : List Token}

theorem tokensFrom_nil (start : ℕ) : tokensFrom start [] = [] := by
  rw [tokensFrom]

theorem tokensFrom_cons (h : lexeme c rest = (l, n)) (start : ℕ) :
    tokensFrom start (c :: rest) =
      l.tokens start (start + 1 + n) ++ tokensFrom (start + 1 + n) (rest.drop n) := by
  rw [tokensFrom, h]

/-- The scanner collects the tokens in reverse order. -/
theorem tokens_scanFrom (start finish : ℕ) (found : List Token) (cs : List Char) :
    (scanFrom start finish found cs).tokens = found.reverse ++ tokensFrom start cs := by
  fun_induction scanFrom start finish found cs with
  | case1 => rw [tokensFrom_nil, List.append_nil]
  | case2 _ _ _ _ _ _ _ hl ih | case3 _ _ _ _ _ _ _ hl ih =>
    rw [tokensFrom_cons hl, ih]
    rfl
  | case4 _ _ _ _ _ _ _ _ hl ih =>
    rw [tokensFrom_cons hl, ih, List.reverse_cons, List.append_assoc]
    rfl

/-- The scanner finds the tokens of the text, if no byte order mark starts it. -/
theorem tokens_scan (h : cs.head? ≠ some '\uFEFF') : (scan cs).tokens = tokensFrom 0 cs := by
  unfold scan
  split
  · exact absurd rfl h
  · rw [tokens_scanFrom, List.reverse_nil, List.nil_append]

/-- Further on, the tokens are the same. -/
theorem tokensFrom_add (start d : ℕ) (cs : List Char) :
    tokensFrom (start + d) cs = (tokensFrom start cs).map (shift d) := by
  fun_induction tokensFrom start cs with
  | case1 => rw [tokensFrom_nil, List.map_nil]
  | case2 start c rest l n hl ih =>
    have hstop : start + d + 1 + n = start + 1 + n + d := by omega
    rw [tokensFrom_cons hl, hstop, ih, List.map_append]
    cases l <;> rfl

/-! ## Parts of a text -/

/-- In front of `back`, the characters are the tokens `ts`. -/
def ScansTo (start : ℕ) (cs back : List Char) (ts : List Token) : Prop :=
  tokensFrom start (cs ++ back) = ts ++ tokensFrom (start + cs.length) back

theorem ScansTo.nil (start : ℕ) (back : List Char) : ScansTo start [] back [] :=
  rfl

theorem ScansTo.cons (hl : lexeme c (rest ++ back) = (l, n)) (hn : n ≤ rest.length)
    (h : ScansTo (start + 1 + n) (rest.drop n) back ts) :
    ScansTo start (c :: rest) back (l.tokens start (start + 1 + n) ++ ts) := by
  have hlength : start + 1 + n + (rest.drop n).length = start + (c :: rest).length := by
    simp only [List.length_cons, List.length_drop]
    omega
  rw [ScansTo, hlength] at h
  rw [ScansTo, List.cons_append, tokensFrom_cons hl, List.drop_append_of_le_length hn, h,
    List.append_assoc]

theorem ScansTo.token (hl : lexeme c (rest ++ back) = (.token kind, rest.length)) (start : ℕ) :
    ScansTo start (c :: rest) back [⟨kind, start, start + (c :: rest).length⟩] := by
  have hstop : start + (c :: rest).length = start + 1 + rest.length := by
    rw [List.length_cons, Nat.add_right_comm, Nat.add_assoc]
  rw [hstop]
  have hnil := ScansTo.nil (start + 1 + rest.length) back
  rw [← List.drop_length (l := rest)] at hnil
  exact .cons hl le_rfl hnil

/-- Two parts of a text are the tokens of the one and of the other. -/
theorem ScansTo.append {front : List Char} (h : ScansTo start front (cs ++ back) ts)
    (h' : ScansTo (start + front.length) cs back ts') :
    ScansTo start (front ++ cs) back (ts ++ ts') := by
  rw [ScansTo, List.append_assoc, h, h', List.length_append, Nat.add_assoc, List.append_assoc]

theorem opening_scansTo (start : ℕ) (back : List Char) :
    ScansTo start ['('] back [⟨.opening .round, start, start + 1⟩] :=
  .token rfl start

theorem closing_scansTo (start : ℕ) (back : List Char) :
    ScansTo start [')'] back [⟨.closing .round, start, start + 1⟩] :=
  .token rfl start

theorem lexeme_of_isSpace (h : isSpace c = true) (rest : List Char) :
    lexeme c rest = (.blank, 0) := by
  have hc : c ≠ '\n' := by
    rintro rfl
    cases h
  rw [lexeme, if_neg hc, if_pos h]

theorem isSpace_of_blank (h : lexeme c rest = (.blank, n)) : n = 0 ∧ isSpace c = true := by
  rcases lexeme_cases h with ⟨-, hn, hspace⟩ | ⟨hcomment, -⟩ | ⟨⟨kind, htoken⟩, -⟩
  · exact ⟨hn, hspace⟩
  · cases hcomment
  · cases htoken

theorem length_of_comment (h : lexeme c rest = (.comment, n)) :
    n = (rest.takeWhile inComment).length ∧ c = '#' := by
  rcases lexeme_cases h with ⟨hblank, -⟩ | ⟨-, hn, hc⟩ | ⟨⟨kind, htoken⟩, -⟩
  · cases hblank
  · exact ⟨hn, hc⟩
  · cases htoken

/-- A text that ends with a token of the language is scanned as it is on its own, if what follows
starts with a character that ends the token. A comment in it does not reach its end, where the token
stands. -/
theorem scansTo_of_last (hback : HeadIs (· ∈ stops) back)
    (hlegal : ∀ t ∈ tokensFrom start cs, t.kind ≠ .illegal ∧
      ∀ op, t.kind = .operator op → HeadIs (· ∈ breaks) back)
    (hlast : ∃ t ∈ (tokensFrom start cs).getLast?, t.stop = start + cs.length) :
    ScansTo start cs back (tokensFrom start cs) := by
  fun_induction tokensFrom start cs with
  | case1 start => exact .nil start back
  | case2 start c rest l n hl ih =>
    obtain ⟨t, ht, hstop⟩ := hlast
    have hlegal' := fun t ht => hlegal t (List.mem_append_right _ ht)
    cases l with
    | blank =>
      obtain ⟨rfl, hspace⟩ := isSpace_of_blank hl
      refine .cons (lexeme_of_isSpace hspace _) (Nat.zero_le _) (ih hlegal' ⟨t, ht, ?_⟩)
      simp only [List.length_cons, List.length_drop] at hstop ⊢
      omega
    | comment =>
      obtain ⟨rfl, rfl⟩ := length_of_comment hl
      have hlt : (rest.takeWhile inComment).length < rest.length := by
        by_contra hle
        rw [List.drop_eq_nil_of_le (by omega), tokensFrom_nil] at ht
        cases ht
      have hl' : lexeme '#' (rest ++ back) = (.comment, (rest.takeWhile inComment).length) := by
        rw [← takeWhile_append_of_lt hlt back]
        rfl
      refine .cons hl' hlt.le (ih hlegal' ⟨t, ht, ?_⟩)
      simp only [List.length_cons, List.length_drop] at hstop ⊢
      omega
    | token kind =>
      have hle := length_le_of_lexeme hl
      obtain ⟨hkind, hoperator⟩ := hlegal _ List.mem_cons_self
      refine .cons (lexeme_append hback hl hkind hoperator) hle ?_
      rw [Lexeme.tokens, List.singleton_append, List.getLast?_cons] at ht
      cases hbehind : (tokensFrom (start + 1 + n) (rest.drop n)).getLast? with
      | none =>
        rw [hbehind] at ht
        cases ht
        have hn : rest.length ≤ n := by
          simp only [Option.getD_none, List.length_cons] at hstop
          omega
        rw [List.drop_eq_nil_of_le hn, tokensFrom_nil]
        exact .nil _ back
      | some u =>
        rw [hbehind] at ht
        cases ht
        refine ih hlegal' ⟨u, hbehind, ?_⟩
        simp only [Option.getD_some, List.length_cons, List.length_drop] at hstop ⊢
        omega

/-- An operator is read as it is spelled if no sign follows it. -/
theorem operator_scansTo {op : Operator} (h : (cs, op) ∈ Operator.spellings)
    (hback : HeadIs (· ∉ signs) back) (start : ℕ) :
    ScansTo start cs back [⟨.operator op, start, start + cs.length⟩] := by
  have hspelling : ∀ s ∈ Operator.spellings, s.1 ≠ [] ∧
      Operator.spellings.find? (fun u => u.1.isPrefixOf s.1) = some s := by
    decide
  obtain ⟨hne, hfind⟩ := hspelling _ h
  obtain ⟨c, rest, rfl⟩ := List.exists_cons_of_ne_nil hne
  have hc := subset_signs_of_mem_spellings _ h List.mem_cons_self
  obtain ⟨s, hs, hl⟩ := lexeme_of_mem_signs hc (rest ++ back)
  rw [← List.cons_append, find?_spellings_append hback, hfind] at hs
  cases hs
  exact .token hl start

/-! ## Between tokens -/

/-- Blanks, newlines and comments, as they may stand between tokens. -/
inductive Gap : List Char → Prop
  | nil : Gap []
  | blank {c : Char} {gap : List Char} : isSpace c = true → Gap gap → Gap (c :: gap)
  | newline {gap : List Char} : Gap gap → Gap ('\n' :: gap)
  | comment {text gap : List Char} {c : Char} : (∀ d ∈ text, inComment d = true) →
      inComment c = false → Gap (c :: gap) → Gap ('#' :: (text ++ c :: gap))

theorem lexeme_comment {text : List Char} (htext : ∀ d ∈ text, inComment d = true)
    (hback : HeadIs (inComment · = false) back) :
    lexeme '#' (text ++ back) = (.comment, text.length) := by
  have htake : (text ++ back).takeWhile inComment = text := by
    rw [takeWhile_append_of_head hback]
    exact List.takeWhile_eq_self_iff.mpr htext
  change (Lexeme.comment, ((text ++ back).takeWhile inComment).length) = _
  rw [htake]

/-- What stands between tokens is scanned to its newlines, whatever follows. -/
theorem Gap.exists_tokens {gap : List Char} (h : Gap gap) (start : ℕ) :
    ∃ ts, (∀ back, ScansTo start gap back ts) ∧ (∀ t ∈ ts, t.kind = .newline) ∧
      ('\n' ∉ gap → ts = []) := by
  induction h generalizing start with
  | nil => exact ⟨[], ScansTo.nil start, by simp, fun _ => rfl⟩
  | blank hc _ ih =>
    obtain ⟨ts, hts, hkind, hnil⟩ := ih (start + 1)
    refine ⟨ts, fun back => ?_, hkind, fun hnew => hnil fun hmem => ?_⟩
    · exact .cons (lexeme_of_isSpace hc _) (Nat.zero_le _) (hts back)
    · exact hnew (List.mem_cons_of_mem _ hmem)
  | newline _ ih =>
    obtain ⟨ts, hts, hkind, -⟩ := ih (start + 1)
    refine ⟨⟨.newline, start, start + 1⟩ :: ts, fun back => ?_, ?_, fun hnew => ?_⟩
    · exact .cons (l := .token .newline) (n := 0) rfl (Nat.zero_le _) (hts back)
    · exact List.forall_mem_cons.mpr ⟨rfl, hkind⟩
    · exact absurd List.mem_cons_self hnew
  | @comment text gap c htext hc _ ih =>
    obtain ⟨ts, hts, hkind, hnil⟩ := ih (start + 1 + text.length)
    refine ⟨ts, fun back => ?_, hkind, fun hnew => hnil fun hmem => ?_⟩
    · have hhead : HeadIs (inComment · = false) (c :: gap ++ back) := by
        rintro d hd
        cases hd
        exact hc
      have hl := lexeme_comment htext hhead
      rw [← List.append_assoc] at hl
      exact .cons hl (by simp) (by rw [List.drop_left]; exact hts back)
    · exact hnew (List.mem_cons_of_mem _ (List.mem_append_right text hmem))

theorem Gap.tokensFrom_eq {gap : List Char} (hts : ∀ back, ScansTo start gap back ts) :
    tokensFrom start gap = ts := by
  have hts := hts []
  rwa [ScansTo, List.append_nil, tokensFrom_nil, List.append_nil] at hts

theorem Gap.scansTo {gap : List Char} (h : Gap gap) (start : ℕ) (back : List Char) :
    ScansTo start gap back (tokensFrom start gap) := by
  obtain ⟨ts, hts, -⟩ := h.exists_tokens start
  exact tokensFrom_eq hts ▸ hts back

/-- Nothing but newlines stands between tokens. -/
theorem Gap.newlines {gap : List Char} (h : Gap gap) (start : ℕ) :
    ∀ t ∈ tokensFrom start gap, t.kind = .newline := by
  obtain ⟨ts, hts, hkind, -⟩ := h.exists_tokens start
  exact tokensFrom_eq hts ▸ hkind

theorem Gap.tokensFrom_eq_nil {gap : List Char} (h : Gap gap) (hnew : '\n' ∉ gap) (start : ℕ) :
    tokensFrom start gap = [] := by
  obtain ⟨ts, hts, -, hnil⟩ := h.exists_tokens start
  exact (tokensFrom_eq hts).trans (hnil hnew)

/-- What stands between tokens starts with a character that ends the token before it. -/
theorem Gap.headIs {P : Char → Prop} {gap : List Char} (h : Gap gap) (hP : ∀ c ∈ breaks, P c)
    (hback : HeadIs P back) : HeadIs P (gap ++ back) := by
  cases h with
  | nil => exact hback
  | @blank c _ hc =>
    rintro d hd
    cases hd
    refine hP c ?_
    simp only [isSpace, Bool.or_eq_true, beq_iff_eq] at hc
    rcases hc with (((rfl | rfl) | rfl) | rfl) | rfl <;> decide
  | newline =>
    rintro d hd
    cases hd
    exact hP _ (by decide)
  | comment =>
    rintro d hd
    cases hd
    exact hP _ (by decide)

/-- What may stand behind the last token of a text. -/
inductive Ending : List Char → Prop
  | gap {gap : List Char} : Gap gap → Ending gap
  | comment {gap text : List Char} : Gap gap → (∀ d ∈ text, inComment d = true) →
      Ending (gap ++ '#' :: text)

theorem Ending.newlines (h : Ending cs) (start : ℕ) :
    ∀ t ∈ tokensFrom start cs, t.kind = .newline := by
  cases h with
  | gap hgap => exact hgap.newlines start
  | comment hgap htext =>
    have hl := lexeme_comment htext (headIs_nil _)
    rw [List.append_nil] at hl
    rw [hgap.scansTo, tokensFrom_cons hl, List.drop_length, tokensFrom_nil]
    simpa [Lexeme.tokens] using hgap.newlines start

theorem Ending.headIs (h : Ending cs) : HeadIs (· ∈ breaks) cs := by
  cases h with
  | gap hgap =>
    rw [← List.append_nil cs]
    exact hgap.headIs (fun _ => id) (headIs_nil _)
  | comment hgap => exact hgap.headIs (fun _ => id) (by simp [HeadIs, breaks])

/-! ## The first character -/

theorem head_ne_mark (h : ∃ t ∈ (scan cs).tokens, t.start = 0) : HeadIs (· ≠ '\uFEFF') cs := by
  obtain ⟨t, ht, hstart⟩ := h
  rintro c hc rfl
  obtain ⟨rest, rfl⟩ := List.head?_eq_some_iff.mp hc
  have hle := (mem_scanFrom (show t ∈ (scanFrom 1 0 [] rest).tokens from ht)).resolve_left (by simp)
  omega

theorem head_not_mem_signs (h : ∀ t ∈ (tokensFrom start cs).head?, ∀ op, t.kind ≠ .operator op) :
    HeadIs (· ∉ signs) cs := by
  rintro c hc hsign
  obtain ⟨rest, rfl⟩ := List.head?_eq_some_iff.mp hc
  obtain ⟨s, -, hl⟩ := lexeme_of_mem_signs hsign rest
  rw [tokensFrom_cons hl] at h
  exact h _ rfl s.2 rfl

end CallAtlas.Token
