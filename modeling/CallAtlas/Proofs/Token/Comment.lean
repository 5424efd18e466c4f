import CallAtlas.Proofs.Text.Line
import CallAtlas.Proofs.Token.Lexeme
import CallAtlas.Text.Blank

/-!
# Tokens on lines that start with a comment sign

In a text without illegal tokens, a line whose first visible character is `#` (`CommentSign`) is
mostly a comment, and no token ends on it. There are two ways around that
(`return_or_isQuoted_of_commentSign`). The `#` may belong to a string or a quoted name that reaches
the line from above, and then tokens may stand behind its end. Or the comment ends before the line
does: a carriage return ends a comment, but a line only if a newline follows.
-/

namespace CallAtlas.Token

variable {c : Char} {chars rest line : List Char} {t : Token} {kind : Kind}
  {i j k m n p start : ℕ}

open Text

/-- Only a string or a quoted name reaches a later line than it starts on. -/
theorem isQuoted_of_lineAt_lt (hcs : chars.drop start = c :: rest) (hc : c ≠ '\n')
    (hl : lexeme c rest = (.token kind, n)) (hi : i ≤ start + 1 + n)
    (h : lineAt chars start < lineAt chars i) : kind.IsQuoted := by
  rcases clear_or_isQuoted hc hl with hclear | ⟨hquoted, -⟩
  · obtain ⟨q, hstart, hlt, hq⟩ := exists_newline_of_lineAt_lt h
    obtain ⟨r, rfl⟩ := Nat.exists_eq_add_of_le hstart
    obtain ⟨d, hd, hne⟩ := hclear.last (show r < n + 1 by omega)
    rw [getElem?_of_drop_eq_cons hcs] at hq
    cases hq.symm.trans hd
    exact absurd rfl hne
  · exact hquoted

/-- A comment goes up to a carriage return, a newline or the null character. -/
theorem inComment_of_lexeme (hcs : chars.drop start = c :: rest)
    (hl : lexeme c rest = (.comment, n)) :
    (∀ i, start < i → i ≤ start + n → ∃ d ∈ chars[i]?, inComment d = true) ∧
      ∀ d ∈ chars[start + 1 + n]?, inComment d = false := by
  obtain rfl : n = (rest.takeWhile inComment).length := by
    rcases lexeme_cases hl with ⟨hblank, -⟩ | ⟨-, hn, -⟩ | ⟨⟨kind, htoken⟩, -⟩
    · cases hblank
    · exact hn
    · cases htoken
  refine ⟨fun i hlt hle => ?_, fun d hd => ?_⟩
  · obtain ⟨r, rfl⟩ := Nat.exists_eq_add_of_lt hlt
    have hr : r < (rest.takeWhile inComment).length := by omega
    refine ⟨_, ?_, List.mem_takeWhile_imp (List.getElem_mem hr)⟩
    rw [Nat.add_assoc, getElem?_of_drop_eq_cons hcs, List.getElem?_cons_succ]
    exact List.getElem?_eq_some_iff.mpr
      ⟨_, ((List.takeWhile_prefix inComment).getElem hr).symm⟩
  · have hdrop : chars.drop (start + 1 + (rest.takeWhile inComment).length) =
        rest.dropWhile inComment := by
      rw [drop_of_drop_eq_cons hcs]
      nth_rewrite 2 [← List.takeWhile_append_dropWhile (p := inComment) (l := rest)]
      exact List.drop_left
    have hhead := List.head?_dropWhile_not inComment rest
    rw [← hdrop, List.head?_drop, hd] at hhead
    exact hhead

/-- The line starts with a comment sign, behind blanks, at the offset. -/
structure CommentSign (chars : List Char) (k p : ℕ) : Prop where
  sign : chars[p]? = some '#'
  line : lineAt chars p = k
  blank : ∀ i < p, lineAt chars i = k → ∃ c ∈ chars[i]?, isBlank c = true

theorem exists_commentSign (hline : (Text.lines chars)[k]? = some line)
    (hsign : (line.find? fun c => !isBlank c) = some '#') : ∃ p, CommentSign chars (k + 1) p := by
  obtain ⟨p, hp, hlineAt, hblank⟩ := exists_offset_of_find? hline hsign
  exact ⟨p, hp, hlineAt, by simpa using hblank⟩

section

variable (hlegal : ∀ t ∈ (scan chars).tokens, t.kind ≠ .illegal)

include hlegal

/-- No token but a newline starts with a blank. -/
theorem not_isBlank_of_lexemeAt (h : LexemeAt chars (scan chars).tokens start (.token kind) n)
    (hc : chars[start]? = some c) (hne : c ≠ '\n') : isBlank c = false := by
  obtain ⟨rest, -, hl⟩ := h.exists_rest hc
  by_contra hblank
  have hkind := eq_illegal_of_isBlank (by simpa using hblank) hne hl
  exact hlegal _ (h.mem kind rfl) hkind

/-- A token that starts before the comment sign and reaches its line is a string or a quoted name
from a line above. -/
theorem isQuoted_of_commentSign (hp : CommentSign chars k p)
    (h : LexemeAt chars (scan chars).tokens start (.token kind) n)
    (hnewline : chars[start]? ≠ some '\n') (hstart : start < p)
    (hline : k ≤ lineAt chars (start + 1 + n)) : lineAt chars start < k ∧ kind.IsQuoted := by
  obtain ⟨c, rest, hcs, hl⟩ := h.read
  have hc : chars[start]? = some c := getElem?_of_drop_eq_cons hcs 0
  have hne : c ≠ '\n' := fun heq => hnewline (heq ▸ hc)
  have habove : lineAt chars start < k := by
    refine lt_of_le_of_ne (hp.line ▸ lineAt_mono chars hstart.le) fun heq => ?_
    obtain ⟨d, hd, hblank⟩ := hp.blank start hstart heq
    cases hc.symm.trans hd
    rw [not_isBlank_of_lexemeAt hlegal h hc hne] at hblank
    cases hblank
  exact ⟨habove, isQuoted_of_lineAt_lt hcs hne hl le_rfl (habove.trans_le hline)⟩

/-- The null character does not stand behind a comment. -/
theorem null_not_behind_comment (h : LexemeAt chars (scan chars).tokens start .comment n) :
    chars[start + 1 + n]? ≠ some null := by
  intro hnull
  obtain ⟨j, l, m, hat, hle, hge⟩ := exists_lexemeAt hnull (by decide)
  rcases hle.lt_or_eq with hlt | rfl
  · obtain ⟨c, rest, hcs, hl⟩ := hat.read
    rcases lexeme_cases hl with ⟨-, rfl, -⟩ | ⟨rfl, -⟩ | ⟨⟨kind, rfl⟩, -⟩
    · omega
    · obtain ⟨d, hd, hin⟩ := (inComment_of_lexeme hcs hl).1 _ hlt hge
      cases hnull.symm.trans hd
      cases hin
    · rcases h.apart _ (hat.mem kind rfl) with hbefore | hbehind | ⟨hcomment, -⟩
      · dsimp only at hbefore
        omega
      · dsimp only at hbehind
        omega
      · cases hcomment
  · have hnothing : StartsNothing null := by decide +kernel
    obtain ⟨rest, -, hl⟩ := hat.exists_rest hnull
    cases (lexeme_of_startsNothing hnothing rest).symm.trans hl
    exact hlegal _ (hat.mem .illegal rfl) rfl

/-- A token on the line of a comment stands behind a carriage return, with which it does not start.
-/
theorem exists_return_of_comment (h : LexemeAt chars (scan chars).tokens start .comment n)
    (ht : LexemeAt chars (scan chars).tokens j (.token kind) m) (hbehind : start + 1 + n ≤ j)
    (hline : lineAt chars (j + 1 + m) = lineAt chars start) :
    ∃ i, chars[i]? = some '\r' ∧ chars[i + 1]? ≠ some '\n' ∧
      lineAt chars i = lineAt chars start := by
  have hclear : ∀ q, start ≤ q → q < j + 1 + m → chars[q]? ≠ some '\n' := fun q hq hlt heq =>
    (lineAt_lt_lineAt hq hlt heq).ne hline.symm
  obtain ⟨c, rest, hcs, hl⟩ := h.read
  obtain ⟨c', rest', hcs', -⟩ := ht.read
  have hc' : chars[j]? = some c' := getElem?_of_drop_eq_cons hcs' 0
  obtain ⟨hlength, -⟩ := List.getElem?_eq_some_iff.mp hc'
  obtain ⟨d, hd⟩ : ∃ d, chars[start + 1 + n]? = some d :=
    ⟨_, List.getElem?_eq_getElem (by omega)⟩
  have hend := (inComment_of_lexeme hcs hl).2 d hd
  obtain rfl : d = '\r' := by
    by_contra hne
    have hnewline : d ≠ '\n' := fun heq => hclear _ (by omega) (by omega) (heq ▸ hd)
    have hnull : d ≠ null := fun heq => null_not_behind_comment hlegal h (heq ▸ hd)
    simp [inComment, hne, hnewline, hnull] at hend
  refine ⟨start + 1 + n, hd, ?_, le_antisymm ?_ (lineAt_mono chars (by omega))⟩
  · have hne : start + 1 + n ≠ j := by
      rintro rfl
      have hblank := not_isBlank_of_lexemeAt hlegal ht hd (by decide)
      revert hblank
      decide
    exact hclear _ (by omega) (by omega)
  · exact hline ▸ lineAt_mono chars (by omega)

end

/-- The comment that a comment sign belongs to starts there. -/
theorem CommentSign.eq_of_comment (hp : CommentSign chars k p)
    (hcs : chars.drop start = '#' :: rest) (hl : lexeme '#' rest = (.comment, n))
    (hle : start ≤ p) (hge : p ≤ start + n) : start = p := by
  have hc : chars[start]? = some '#' := getElem?_of_drop_eq_cons hcs 0
  by_contra hne
  have hline : lineAt chars start = k := by
    refine le_antisymm (hp.line ▸ lineAt_mono chars hle) (not_lt.mp fun hlt => ?_)
    obtain ⟨q, hq, hqp, hnewline⟩ := exists_newline_of_lineAt_lt (hp.line.symm ▸ hlt)
    rcases hq.lt_or_eq with hq | rfl
    · obtain ⟨d, hd, hin⟩ := (inComment_of_lexeme hcs hl).1 q hq (by omega)
      cases hnewline.symm.trans hd
      cases hin
    · cases hc.symm.trans hnewline
  obtain ⟨d, hd, hblank⟩ := hp.blank start (by omega) hline
  cases hc.symm.trans hd
  revert hblank
  decide

/-- A token ends on a line that starts with a comment sign only behind a string or a quoted name
that reaches the line from above, or behind a carriage return. -/
theorem return_or_isQuoted_of_commentSign (hlegal : ∀ t ∈ (scan chars).tokens, t.kind ≠ .illegal)
    (hp : CommentSign chars k p) (ht : t ∈ (scan chars).tokens) (hkind : t.kind ≠ .newline)
    (hstop : lineAt chars t.stop = k) :
    (∃ i, chars[i]? = some '\r' ∧ chars[i + 1]? ≠ some '\n' ∧ lineAt chars i = k) ∨
    ∃ u ∈ (scan chars).tokens, u.kind.IsQuoted ∧ u.stop ≤ t.stop ∧
      lineAt chars u.start < k ∧ lineAt chars u.stop = k := by
  obtain ⟨n, hat, hend⟩ := exists_lexemeAt_of_mem ht hkind
  by_cases hlt : t.start < p
  · have hnewline : chars[t.start]? ≠ some '\n' := by
      intro hc
      obtain ⟨rest, -, hl⟩ := hat.exists_rest hc
      exact ne_newline_of_lexeme hkind hl rfl
    obtain ⟨habove, hquoted⟩ :=
      isQuoted_of_commentSign hlegal hp hat hnewline hlt (by rw [← hend, hstop])
    exact Or.inr ⟨t, ht, hquoted, le_rfl, habove, hstop⟩
  obtain ⟨j, l, m, hsign, hle, hge⟩ := exists_lexemeAt hp.sign (by decide)
  obtain ⟨c, rest, hcs, hl⟩ := hsign.read
  have hc : chars[j]? = some c := getElem?_of_drop_eq_cons hcs 0
  rcases lexeme_cases hl with ⟨rfl, rfl, hspace⟩ | ⟨rfl, -, rfl⟩ | ⟨⟨kind, rfl⟩, -, hne⟩
  · obtain rfl : j = p := by omega
    cases hc.symm.trans hp.sign
    cases hspace
  · obtain rfl := hp.eq_of_comment hcs hl hle hge
    rcases hsign.apart t ht with hbefore | hbehind | ⟨hcomment, -⟩
    · omega
    · have hline : lineAt chars (t.start + 1 + n) = lineAt chars j := by
        rw [← hend, hstop, hp.line]
      rw [← hp.line]
      exact Or.inl (exists_return_of_comment hlegal hsign hat hbehind hline)
    · cases hcomment
  · have hbefore : j < p := by
      refine lt_of_le_of_ne hle fun heq => hne ?_
      exact Option.some.inj (hc.symm.trans (heq ▸ hp.sign))
    have hnewline : chars[j]? ≠ some '\n' := by
      intro hc
      obtain ⟨rest, -, hl⟩ := hsign.exists_rest hc
      cases hl
      omega
    have hreach : k ≤ lineAt chars (j + 1 + m) := hp.line ▸ lineAt_mono chars (by omega)
    obtain ⟨habove, hquoted⟩ := isQuoted_of_commentSign hlegal hp hsign hnewline hbefore hreach
    have hstops : j + 1 + m ≤ t.stop := by
      rcases hsign.apart t ht with hbefore | hbehind | ⟨-, hstart, -⟩ <;> omega
    exact Or.inr ⟨_, hsign.mem kind rfl, hquoted, hstops, habove,
      le_antisymm (hstop ▸ lineAt_mono chars hstops) hreach⟩

end CallAtlas.Token
