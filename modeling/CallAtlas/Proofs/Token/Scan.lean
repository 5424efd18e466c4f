import Mathlib.Data.List.TakeWhile
import CallAtlas.Token.Scan

/-!
# Where the tokens of a text stand

The scanner takes a text from its front to its end, so its tokens are not empty and stand one
behind the other (`inOrder_scan`). They lie inside the text, and only a newline ends on a newline
(`last_lexeme`): the characters of words, numbers and operators are no newlines (`Clear`), and
strings and quoted names end on their quote (`clear_or_isQuoted`).
-/

namespace CallAtlas

namespace Token

variable {c quote : Char} {cs rest : List Char} {i j k n read : ℕ} {kind : Kind}

/-! ## Characters that are no newlines -/

/-- The text has `n` characters in front that are no newlines. -/
def Clear (n : ℕ) (cs : List Char) : Prop :=
  n ≤ cs.length ∧ '\n' ∉ cs.take n

theorem clear_zero (cs : List Char) : Clear 0 cs := by
  simp [Clear]

theorem clear_one (hc : c ≠ '\n') : Clear 1 (c :: rest) := by
  simp [Clear, hc.symm]

/-- Characters that are no newlines may follow each other. -/
theorem Clear.add (hj : Clear j cs) (hk : Clear k (cs.drop j)) : Clear (j + k) cs := by
  obtain ⟨hjlength, hj⟩ := hj
  obtain ⟨hklength, hk⟩ := hk
  rw [List.length_drop] at hklength
  refine ⟨by omega, ?_⟩
  rw [List.take_add, List.mem_append, not_or]
  exact ⟨hj, hk⟩

theorem clear_of_isPrefix {front : List Char} (h : front <+: cs) (hfront : '\n' ∉ front) :
    Clear front.length cs :=
  ⟨h.length_le, List.prefix_iff_eq_take.mp h ▸ hfront⟩

/-- A class without newlines has none in its runs. -/
theorem clear_takeWhile {p : Char → Bool} (hp : p '\n' = false) (cs : List Char) :
    Clear (cs.takeWhile p).length cs := by
  refine clear_of_isPrefix (List.takeWhile_prefix p) fun hmem => ?_
  rw [List.mem_takeWhile_imp hmem] at hp
  cases hp

theorem Clear.last (h : Clear n cs) (hi : i < n) : ∃ d ∈ cs[i]?, d ≠ '\n' := by
  obtain ⟨hlength, hclear⟩ := h
  refine ⟨cs[i], List.getElem?_eq_getElem _, fun hd => hclear ?_⟩
  exact hd ▸ List.mem_take_iff_getElem.mpr ⟨i, by omega, rfl⟩

/-! ## Numbers -/

theorem clear_digitCount (cs : List Char) : Clear (digitCount cs) cs :=
  clear_takeWhile (by decide) cs

theorem clear_hexCount (cs : List Char) : Clear (hexCount cs) cs :=
  clear_takeWhile (by decide) cs

theorem clear_signCount (cs : List Char) : Clear (signCount cs) cs := by
  unfold signCount
  split_ifs with h
  · cases cs with
    | nil => cases h
    | cons c rest =>
      refine clear_one ?_
      rintro rfl
      cases h
  · exact clear_zero cs

/-- Digits, a point and digits. -/
theorem clear_mantissaLength {count : List Char → ℕ} (hcount : ∀ cs, Clear (count cs) cs)
    (cs : List Char) : Clear (mantissaLength count cs) cs := by
  unfold mantissaLength
  extract_lets whole
  split
  · next fraction hpoint =>
    have hrest : (cs.drop (whole + 1)) = fraction := by
      rw [← List.drop_drop, hpoint]
      rfl
    have hpoint : Clear (whole + 1) cs := (hcount cs).add (hpoint ▸ clear_one (by decide))
    exact hpoint.add (hrest ▸ hcount fraction)
  · exact hcount cs

/-- A letter, a sign and digits. -/
theorem clear_power (hc : c ≠ '\n') (rest : List Char) :
    Clear (1 + signCount rest + digitCount (rest.drop (signCount rest))) (c :: rest) := by
  have hsign : Clear (1 + signCount rest) (c :: rest) :=
    (clear_one hc).add (clear_signCount rest)
  refine hsign.add ?_
  rw [Nat.add_comm 1, List.drop_succ_cons]
  exact clear_digitCount _

theorem clear_decimalPowerLength (cs : List Char) : Clear (decimalPowerLength cs) cs := by
  unfold decimalPowerLength
  split
  · split_ifs with he
    · refine clear_power ?_ _
      rintro rfl
      exact absurd he (by decide)
    · exact clear_zero _
  · exact clear_zero _

theorem clear_binaryPowerLength (cs : List Char) : Clear (binaryPowerLength cs) cs := by
  unfold binaryPowerLength
  split
  · extract_lets digits
    split_ifs with hp
    · refine clear_power ?_ _
      rintro rfl
      exact absurd hp.1 (by decide)
    · exact clear_zero _
  · exact clear_zero _

/-- A zero, a letter, a mantissa and a power. -/
theorem clear_hexNumberLength (cs : List Char) : Clear (hexNumberLength cs) cs := by
  unfold hexNumberLength
  split
  · next x rest =>
    extract_lets mantissa
    split_ifs with hx
    · have hx : Clear 2 ('0' :: x :: rest) := by
        refine (clear_one (by decide)).add (clear_one ?_)
        rintro rfl
        exact absurd hx.1 (by decide)
      have hmantissa : Clear (2 + mantissa) ('0' :: x :: rest) :=
        hx.add (clear_mantissaLength clear_hexCount rest)
      refine hmantissa.add ?_
      rw [Nat.add_comm 2, List.drop_succ_cons, List.drop_succ_cons]
      exact clear_binaryPowerLength _
    · exact clear_zero _
  · exact clear_zero _

theorem clear_numberLength (cs : List Char) : Clear (numberLength cs) cs := by
  unfold numberLength
  extract_lets hex mantissa
  split_ifs
  · exact clear_hexNumberLength cs
  · exact (clear_mantissaLength clear_digitCount cs).add (clear_decimalPowerLength _)

/-! ## Strings -/

/-- A quote is closed by a quote. -/
theorem quoteEnd?_eq_some {escape : Char → List Char → Bool}
    (h : quoteEnd? quote escape read cs = some n) :
    ∃ m, n = read + m + 1 ∧ cs[m]? = some quote := by
  fun_induction quoteEnd? quote escape read cs with
  | case1 => cases h
  | case2 _ _ _ _ ih =>
    obtain ⟨m, rfl, hm⟩ := ih h
    exact ⟨m + 2, by omega, hm⟩
  | case3 => cases h
  | case4 =>
    cases h
    exact ⟨0, rfl, rfl⟩
  | case5 => cases h
  | case6 _ _ _ _ _ _ ih =>
    obtain ⟨m, rfl, hm⟩ := ih h
    exact ⟨m + 1, by omega, hm⟩

theorem getElem?_of_quoteEnd? {escape : Char → List Char → Bool}
    (h : quoteEnd? c escape 0 rest = some n) : (c :: rest)[n]? = some c := by
  obtain ⟨m, rfl, hm⟩ := quoteEnd?_eq_some h
  rw [Nat.zero_add, List.getElem?_cons_succ, hm]

/-- What starts with a quote is closed by one, or the quote alone is illegal. -/
theorem quoteLexeme_cases {quote : Char} {escape : Char → List Char → Bool}
    {kindOf : List Char → Kind} {l : Lexeme} (h : quoteLexeme quote escape kindOf rest = (l, n)) :
    (l = .token .illegal ∧ n = 0) ∨
      quoteEnd? quote escape 0 rest = some n ∧ l = .token (kindOf (rest.take n)) := by
  unfold quoteLexeme at h
  split at h
  · next hend =>
    cases h
    exact Or.inr ⟨hend, rfl⟩
  · cases h
    exact Or.inl ⟨rfl, rfl⟩

/-- A raw string is closed by its closing text. -/
theorem rawEnd?_eq_some {closer : List Char} (h : rawEnd? closer read cs = some n) :
    ∃ m, n = read + m + closer.length ∧ closer <+: cs.drop m := by
  fun_induction rawEnd? closer read cs with
  | case1 => cases h
  | case2 _ _ _ hcloser =>
    cases h
    exact ⟨0, rfl, List.isPrefixOf_iff_prefix.mp hcloser⟩
  | case3 _ _ _ _ ih =>
    obtain ⟨m, rfl, hm⟩ := ih h
    exact ⟨m + 1, by omega, hm⟩

theorem rawOpening?_eq_some {closer : List Char} (h : rawOpening? cs = some (closer, n)) :
    ∃ front quote, closer = front ++ [quote] ∧ quote ≠ '\n' := by
  unfold rawOpening? at h
  split at h
  · cases h
  · extract_lets hyphens at h
    split_ifs at h with hquote
    obtain ⟨_, -, h⟩ := Option.map_eq_some_iff.mp h
    cases h
    refine ⟨_, _, rfl, ?_⟩
    rintro rfl
    exact absurd hquote.1 (by decide)

/-- The closing text of a raw string ends with a quote. -/
theorem last_raw {closer : List Char} {opening : ℕ}
    (hopening : rawOpening? rest = some (closer, opening))
    (hend : rawEnd? closer opening (rest.drop opening) = some n) :
    ∃ d ∈ (c :: rest)[n]?, d ≠ '\n' := by
  obtain ⟨front, quote, rfl, hquote⟩ := rawOpening?_eq_some hopening
  obtain ⟨m, rfl, behind, hbehind⟩ := rawEnd?_eq_some hend
  refine ⟨quote, ?_, hquote⟩
  have hlast : ((rest.drop opening).drop m)[front.length]? = some quote := by
    simp [← hbehind]
  rw [List.getElem?_drop, List.getElem?_drop] at hlast
  rw [List.length_append, List.length_singleton, ← Nat.add_assoc, List.getElem?_cons_succ,
    Nat.add_assoc]
  exact hlast

/-! ## One token -/

theorem newline_not_mem_spellings : ∀ s ∈ Operator.spellings, s.1 ≠ [] ∧ '\n' ∉ s.1 := by
  decide

/-- No sign holds a newline. More than one character is read of a square bracket, which may be
doubled (`h_5`), of an operator between percent signs (`h_10`) and of an operator with a fixed
spelling (`h_11`). -/
theorem clear_signLexeme (hc : c ≠ '\n') (h : signLexeme c rest = (.token kind, n)) :
    Clear (n + 1) (c :: rest) := by
  unfold signLexeme at h
  split at h
  case h_5 =>
    split_ifs at h with hnext
    · cases h
      obtain ⟨more, rfl⟩ := List.head?_eq_some_iff.mp hnext
      exact (clear_one hc).add (clear_one hc)
    · cases h
      exact clear_one hc
  case h_10 =>
    extract_lets length at h
    split_ifs at h with hpercent
    · cases h
      obtain ⟨more, hmore⟩ := List.head?_eq_some_iff.mp hpercent
      have hinner : Clear (1 + length) ('%' :: rest) :=
        (clear_one hc).add (clear_takeWhile (by decide) rest)
      rw [Nat.add_comm length]
      refine hinner.add ?_
      rw [Nat.add_comm 1, List.drop_succ_cons, hmore]
      exact clear_one hc
    · cases h
      exact clear_one hc
  case h_11 =>
    split at h
    · next spelling op hfind =>
      cases h
      obtain ⟨hnil, hspelling⟩ := newline_not_mem_spellings _ (List.mem_of_find?_eq_some hfind)
      have hfront : spelling <+: c :: rest := by
        simpa only [List.isPrefixOf_iff_prefix] using List.find?_some hfind
      rw [Nat.sub_add_cancel (List.length_pos_iff.mpr hnil)]
      exact clear_of_isPrefix hfront hspelling
    · cases h
      exact clear_one hc
  all_goals
    cases h
    exact clear_one hc

/-- A word holds no newline. -/
theorem clear_wordLength? (hc : c ≠ '\n') (h : wordLength? c rest = some n) :
    Clear (n + 1) (c :: rest) := by
  have hword : Clear (1 + (rest.takeWhile isWordRest).length) (c :: rest) :=
    (clear_one hc).add (clear_takeWhile (by decide) rest)
  rw [Nat.add_comm 1] at hword
  unfold wordLength? at h
  dsimp only at h
  split_ifs at h
  · cases h
    exact hword
  · cases h
    exact hword
  · cases h
    exact clear_one hc

/-- Strings and quoted names, the tokens that may hold newlines. -/
def Kind.IsQuoted : Kind → Prop
  | .text _ | .quoted _ | .rawText => True
  | _ => False

/-- What starts with a quote ends on it, unless the quote is all there is. -/
theorem clear_or_isQuoted_of_quoteLexeme {escape : Char → List Char → Bool}
    {kindOf : List Char → Kind} (hc : c ≠ '\n')
    (h : quoteLexeme c escape kindOf rest = (.token kind, n))
    (hkindOf : ∀ body, (kindOf body).IsQuoted) :
    Clear (n + 1) (c :: rest) ∨ kind.IsQuoted ∧ ∃ d ∈ (c :: rest)[n]?, d ≠ '\n' := by
  rcases quoteLexeme_cases h with ⟨-, rfl⟩ | ⟨hend, hfound⟩
  · exact Or.inl (clear_one hc)
  · cases hfound
    exact Or.inr ⟨hkindOf _, c, getElem?_of_quoteEnd? hend, hc⟩

/-- A token other than a newline holds no newline, or it is a string or a quoted name and ends on
its quote. -/
theorem clear_or_isQuoted (hc : c ≠ '\n') (h : lexeme c rest = (.token kind, n)) :
    Clear (n + 1) (c :: rest) ∨ kind.IsQuoted ∧ ∃ d ∈ (c :: rest)[n]?, d ≠ '\n' := by
  unfold lexeme at h
  generalize hraw : (if c = 'r' ∨ c = 'R' then rawOpening? rest else none) = raw at h
  rw [if_neg hc] at h
  split_ifs at h
  · cases h
  · cases h
  · exact clear_or_isQuoted_of_quoteLexeme hc h fun _ => trivial
  · exact clear_or_isQuoted_of_quoteLexeme hc h fun _ => trivial
  · cases h
    refine Or.inl ?_
    rcases Nat.eq_zero_or_pos (numberLength (c :: rest)) with hzero | hpos
    · rw [hzero]
      exact clear_one hc
    · rw [Nat.sub_add_cancel hpos]
      exact clear_numberLength _
  · split at h
    · have hopening := (Option.ite_none_right_eq_some.mp hraw).2
      split at h
      · next hend =>
        cases h
        exact Or.inr ⟨trivial, last_raw hopening hend⟩
      · cases h
        exact Or.inl (clear_one hc)
    · split at h
      · next hword =>
        cases h
        exact Or.inl (clear_wordLength? hc hword)
      · exact Or.inl (clear_signLexeme hc h)

theorem ne_newline_of_lexeme (hkind : kind ≠ .newline) (h : lexeme c rest = (.token kind, n)) :
    c ≠ '\n' := by
  rintro rfl
  cases h
  exact hkind rfl

/-- Only a newline ends on a newline. -/
theorem last_lexeme (hkind : kind ≠ .newline) (h : lexeme c rest = (.token kind, n)) :
    ∃ d ∈ (c :: rest)[n]?, d ≠ '\n' := by
  rcases clear_or_isQuoted (ne_newline_of_lexeme hkind h) h with hclear | ⟨-, hlast⟩
  · exact hclear.last (Nat.lt_succ_self n)
  · exact hlast

/-! ## The whole text -/

/-- The token is not empty, and if it is no newline, it ends inside the text on a character that is
no newline. -/
structure Placed (chars : List Char) (t : Token) : Prop where
  start_lt_stop : t.start < t.stop
  last : t.kind ≠ .newline → ∃ d ∈ chars[t.stop - 1]?, d ≠ '\n'

/-- The tokens stand in the text one behind the other. -/
structure InOrder (chars : List Char) (ts : List Token) : Prop where
  placed : ∀ t ∈ ts, t.Placed chars
  ordered : ts.Pairwise fun t t' => t.stop ≤ t'.start

/-- A token behind all others may be put at the end. -/
theorem InOrder.concat {chars : List Char} {ts : List Token} {t : Token} (hts : InOrder chars ts)
    (ht : t.Placed chars) (hbehind : ∀ s ∈ ts, s.stop ≤ t.start) : InOrder chars (ts ++ [t]) where
  placed s hs := by
    rcases List.mem_append.mp hs with hs | hs
    · exact hts.placed s hs
    · exact List.mem_singleton.mp hs ▸ ht
  ordered := by
    refine List.pairwise_append.mpr ⟨hts.ordered, List.pairwise_singleton _ t, fun s hs u hu => ?_⟩
    exact List.mem_singleton.mp hu ▸ hbehind s hs

theorem InOrder.of_suffix {chars : List Char} {ts ts' : List Token} (h : InOrder chars ts)
    (hts : ts' <:+ ts) : InOrder chars ts' :=
  ⟨fun t ht => h.placed t (hts.mem ht), h.ordered.sublist hts.sublist⟩

/-- The characters behind a token are those that the scanner goes on with. -/
theorem drop_of_drop_eq_cons {chars : List Char} {start : ℕ} (h : chars.drop start = c :: rest)
    (n : ℕ) : chars.drop (start + 1 + n) = rest.drop n := by
  rw [← List.drop_drop, ← List.drop_drop, h]
  rfl

/-- What the scanner finds at an offset is placed there. -/
theorem placed_of_lexeme {chars : List Char} {start : ℕ} (hcs : chars.drop start = c :: rest)
    (h : lexeme c rest = (.token kind, n)) :
    Placed chars ⟨kind, start, start + 1 + n⟩ where
  start_lt_stop := by
    dsimp only
    omega
  last hkind := by
    obtain ⟨d, hd, hne⟩ := last_lexeme hkind h
    refine ⟨d, ?_, hne⟩
    rw [← hcs, List.getElem?_drop] at hd
    rwa [Nat.add_right_comm]

/-- The scanner has found tokens in order, all of them before the offset that it has come to. -/
theorem inOrder_scanFrom {chars : List Char} {start finish : ℕ} {found : List Token}
    (hcs : chars.drop start = cs) (hfound : InOrder chars found.reverse)
    (hstart : ∀ t ∈ found, t.stop ≤ start) :
    InOrder chars (scanFrom start finish found cs).tokens := by
  fun_induction scanFrom start finish found cs with
  | case1 => exact hfound
  | case2 start _ _ _ _ n stop _ ih | case3 start _ _ _ _ n stop _ ih =>
    refine ih (drop_of_drop_eq_cons hcs n) hfound fun t ht => (hstart t ht).trans ?_
    omega
  | case4 start _ found _ _ n stop kind hlexeme ih =>
    refine ih (drop_of_drop_eq_cons hcs n) ?_ (List.forall_mem_cons.mpr ⟨le_rfl, fun t ht => ?_⟩)
    · rw [List.reverse_cons]
      refine hfound.concat (placed_of_lexeme hcs hlexeme) fun t ht => ?_
      exact hstart t (List.mem_reverse.mp ht)
    · exact (hstart t ht).trans (by omega)

/-- The tokens of a text stand in it one behind the other. -/
theorem inOrder_scan (chars : List Char) : InOrder chars (scan chars).tokens := by
  have hnone : InOrder chars [] := ⟨nofun, List.Pairwise.nil⟩
  unfold scan
  split
  · exact inOrder_scanFrom rfl hnone nofun
  · exact inOrder_scanFrom rfl hnone nofun

end Token

end CallAtlas
