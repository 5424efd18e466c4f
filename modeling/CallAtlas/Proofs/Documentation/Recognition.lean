import CallAtlas.Proofs.Documentation
import CallAtlas.Proofs.Text.Pattern

/-!
# Recognising comment lines

`isBoundary` and `commentText` recognise two patterns by cutting runs of characters off the ends of
a line. Here they are compared with the patterns as they are written (`boundaryPattern`,
`commentPattern`), read leftmost first, and with what these come to in plain terms
(`BoundaryShape`, `Says`).

In the pattern of boundaries two repetitions overlap: the `#` at the front can be part of the
ruler behind it. Looking for the ruler behind the first `#` and behind all of them is enough
(`startsRuler_of_hashes`). In the pattern of comments a lazy group stands before blanks at the end
of the line. It ends at the last character that is not blank (`Says.search_commentPattern`).

`textsUpward` reads the comments above a line by the two patterns, and stops without an answer if
the second one does not match. That never happens (`textsUpward_pred`).
-/

namespace CallAtlas.Text

variable {c : Char} {p : Char → Bool} {cs line text taken rest : List Char}
  {lines : List (List Char)} {k : ℕ}

/-- The characters of a line are no newlines. -/
theorem bne_newline_of_subset (hline : '\n' ∉ line) (hcs : cs ⊆ line) :
    ∀ c ∈ cs, (c != '\n') = true := by
  intro c hc
  rw [bne_iff_ne]
  rintro rfl
  exact hline (hcs hc)

/-! ## Boundaries -/

/-- The shapes of a boundary. Behind some blanks stands `#!`, or a ruler behind one or more `#`
and some blanks, or a comment that ends with dashes, blanks behind them aside. -/
inductive BoundaryShape : List Char → Prop where
  | shebang {blanks any : List Char} (hblanks : ∀ c ∈ blanks, isBlank c = true) :
    BoundaryShape (blanks ++ '#' :: '!' :: any)
  | ruler {blanks hashes gap rule any : List Char} (hblanks : ∀ c ∈ blanks, isBlank c = true)
    (hhashes : 1 ≤ hashes.length ∧ ∀ c ∈ hashes, c = '#') (hgap : ∀ c ∈ gap, isBlank c = true)
    (hrule : 4 ≤ rule.length ∧ ∀ c ∈ rule, c = '-' ∨ c = '=' ∨ c = '#') :
    BoundaryShape (blanks ++ (hashes ++ (gap ++ (rule ++ any))))
  | dashed {blanks any dashes gap : List Char} (hblanks : ∀ c ∈ blanks, isBlank c = true)
    (hdashes : 4 ≤ dashes.length ∧ ∀ c ∈ dashes, c = '-') (hgap : ∀ c ∈ gap, isBlank c = true) :
    BoundaryShape (blanks ++ '#' :: (any ++ (dashes ++ gap)))

theorem isRule_iff : isRule c = true ↔ c = '-' ∨ c = '=' ∨ c = '#' := by
  simp [isRule, or_assoc]

theorem startsRuler_iff : startsRuler cs = true ↔
    ∃ rule any, cs = rule ++ any ∧ 4 ≤ rule.length ∧
      ∀ c ∈ rule, c = '-' ∨ c = '=' ∨ c = '#' := by
  simp only [startsRuler, decide_eq_true_eq, ← isRule_iff]
  constructor
  · intro h
    obtain ⟨rule, any, hcs, hrule, hlength⟩ := le_length_takeWhile_iff.mp h
    exact ⟨rule, any, hcs, hlength.ge, hrule⟩
  · rintro ⟨rule, any, hcs, hlength, hrule⟩
    exact hlength.trans (le_length_takeWhile_iff.mpr ⟨rule, any, hcs, hrule, rfl⟩)

theorem endsDashed_iff : endsDashed cs = true ↔
    ∃ any dashes gap, cs = any ++ (dashes ++ gap) ∧ (4 ≤ dashes.length ∧ ∀ c ∈ dashes, c = '-') ∧
      ∀ c ∈ gap, isBlank c = true := by
  rw [endsDashed, decide_eq_true_eq]
  constructor
  · intro h
    obtain ⟨gap, hgap, -, hblank⟩ := exists_eq_trimRight_append cs
    obtain ⟨dashes, any, hcs, hdashes, hlength⟩ := le_length_takeWhile_iff.mp h
    rw [List.reverse_eq_iff, List.reverse_append] at hcs
    refine ⟨any.reverse, dashes.reverse, gap, ?_, ⟨?_, ?_⟩, hblank⟩
    · rw [← List.append_assoc, ← hcs, ← hgap]
    · rw [List.length_reverse, hlength]
    · simpa using hdashes
  · rintro ⟨any, dashes, gap, rfl, ⟨hlength, hdashes⟩, hblank⟩
    have hlast : ∀ c ∈ (any ++ dashes).getLast?, isBlank c = false := by
      intro c hc
      have hne : dashes ≠ [] := List.length_pos_iff.mp (by omega)
      rw [List.getLast?_append_of_ne_nil _ hne] at hc
      rw [hdashes c (List.mem_of_getLast? hc)]
      decide
    rw [← List.append_assoc, trimRight_append hlast hblank, List.reverse_append]
    refine hlength.trans (le_length_takeWhile_iff.mpr ⟨dashes.reverse, any.reverse, rfl, ?_, ?_⟩)
    · simpa using hdashes
    · exact List.length_reverse

/-- A ruler behind one or more `#` and blanks is found behind the first `#` or behind all of them.
Here the first one is cut off already. Without a blank the others are part of the ruler; a blank
ends their run, so that cutting it off leaves the ruler. -/
theorem startsRuler_of_hashes {hashes gap rule any : List Char} (hhashes : ∀ c ∈ hashes, c = '#')
    (hgap : ∀ c ∈ gap, isBlank c = true)
    (hrule : 4 ≤ rule.length ∧ ∀ c ∈ rule, c = '-' ∨ c = '=' ∨ c = '#')
    (hcs : cs = hashes ++ (gap ++ (rule ++ any))) :
    startsRuler cs = true ∨ startsRuler (trimLeft (cs.dropWhile fun c => c == '#')) = true := by
  subst hcs
  cases gap with
  | nil =>
    left
    refine startsRuler_iff.mpr ⟨hashes ++ rule, any, by simp, ?_, ?_⟩
    · exact hrule.1.trans (by simp)
    · intro c hc
      rcases List.mem_append.mp hc with hc | hc
      · exact .inr (.inr (hhashes c hc))
      · exact hrule.2 c hc
  | cons g gap =>
    right
    obtain ⟨d, rule, rfl⟩ := List.exists_cons_of_length_pos (show 0 < rule.length by omega)
    have hg : g ≠ '#' := by
      rintro rfl
      exact absurd (hgap '#' List.mem_cons_self) (by decide)
    have hd : isBlank d = false := by
      rcases hrule.2 d List.mem_cons_self with rfl | rfl | rfl <;> rfl
    have hdrop : (g :: gap ++ (d :: rule ++ any)).dropWhile (fun c => c == '#') =
        g :: gap ++ d :: (rule ++ any) := List.dropWhile_cons_of_neg (by simpa using hg)
    rw [List.dropWhile_append_of_pos (by simpa using hhashes), hdrop,
      trimLeft_append_cons hgap hd]
    exact startsRuler_iff.mpr ⟨d :: rule, any, rfl, hrule⟩

theorem isBoundary_iff_of_trimLeft (h : trimLeft line = '#' :: rest) :
    isBoundary line = true ↔ rest.head? = some '!' ∨ startsRuler rest = true ∨
      startsRuler (trimLeft (rest.dropWhile fun c => c == '#')) = true ∨
      endsDashed rest = true := by
  simp [isBoundary, h, or_assoc]

theorem boundaryShape_of_isBoundary (h : isBoundary line = true) : BoundaryShape line := by
  obtain ⟨blanks, hline, hblanks⟩ := exists_eq_append_trimLeft line
  cases htrim : trimLeft line with
  | nil => simp [isBoundary, htrim] at h
  | cons c rest =>
    obtain rfl : c = '#' := by
      by_contra hc
      simp [isBoundary, htrim, hc] at h
    rw [htrim] at hline
    subst hline
    rcases (isBoundary_iff_of_trimLeft htrim).mp h with hbang | hruler | hruler | hdashed
    · obtain ⟨any, rfl⟩ := List.head?_eq_some_iff.mp hbang
      exact .shebang hblanks
    · obtain ⟨rule, any, rfl, hrule⟩ := startsRuler_iff.mp hruler
      have hhashes : 1 ≤ ['#'].length ∧ ∀ c ∈ ['#'], c = '#' := by simp
      have hgap : ∀ c ∈ ([] : List Char), isBlank c = true := by simp
      exact .ruler hblanks hhashes hgap hrule
    · obtain ⟨rule, any, hruler, hrule⟩ := startsRuler_iff.mp hruler
      obtain ⟨gap, hdrop, hgap⟩ := exists_eq_append_trimLeft (rest.dropWhile fun c => c == '#')
      obtain ⟨hashes, hrest, hhashes⟩ : ∃ hashes,
          rest = hashes ++ rest.dropWhile (fun c => c == '#') ∧ ∀ c ∈ hashes, c = '#' :=
        ⟨rest.takeWhile fun c => c == '#', List.takeWhile_append_dropWhile.symm,
          fun c hc => by simpa using List.mem_takeWhile_imp hc⟩
      rw [hdrop, hruler] at hrest
      rw [hrest]
      have hhashes : 1 ≤ ('#' :: hashes).length ∧ ∀ c ∈ '#' :: hashes, c = '#' := by
        simpa using hhashes
      exact .ruler hblanks hhashes hgap hrule
    · obtain ⟨any, dashes, gap, rfl, hdashes, hgap⟩ := endsDashed_iff.mp hdashed
      exact .dashed hblanks hdashes hgap

theorem isBoundary_of_boundaryShape (h : BoundaryShape line) : isBoundary line = true := by
  cases h with
  | @shebang blanks any hblanks =>
    exact (isBoundary_iff_of_trimLeft (trimLeft_append_cons hblanks rfl _)).mpr (.inl rfl)
  | @ruler blanks hashes gap rule any hblanks hhashes hgap hrule =>
    obtain ⟨c, hashes, rfl⟩ := List.exists_cons_of_length_pos hhashes.1
    obtain ⟨rfl, hmore⟩ := List.forall_mem_cons.mp hhashes.2
    refine (isBoundary_iff_of_trimLeft (trimLeft_append_cons hblanks rfl _)).mpr (.inr ?_)
    rcases startsRuler_of_hashes hmore hgap hrule rfl with hfirst | hrun
    · exact .inl hfirst
    · exact .inr (.inl hrun)
  | @dashed blanks any dashes gap hblanks hdashes hgap =>
    refine (isBoundary_iff_of_trimLeft (trimLeft_append_cons hblanks rfl _)).mpr ?_
    exact .inr (.inr (.inr (endsDashed_iff.mpr ⟨any, dashes, gap, rfl, hdashes, hgap⟩)))

theorem isBoundary_iff : isBoundary line = true ↔ BoundaryShape line :=
  ⟨boundaryShape_of_isBoundary, isBoundary_of_boundaryShape⟩

/-- The pattern of boundaries, `^\s*(?:#!|#+\s*[-=#]{4,}|#.*-{4,}\s*$)`. -/
def boundaryPattern : Pattern :=
  .chain [.atStart, .atLeast 0 isBlank,
    .either (.chain [.char '#', .char '!'])
      (.either
        (.chain [.atLeast 1 fun c => c == '#', .atLeast 0 isBlank,
          .atLeast 4 fun c => ['-', '=', '#'].contains c])
        (.chain [.char '#', .atLeast 0 fun c => c != '\n', .atLeast 4 fun c => c == '-',
          .atLeast 0 isBlank, .atEnd]))]

theorem isSome_search_boundaryPattern (hline : '\n' ∉ line) :
    (boundaryPattern.search line).isSome = true ↔ BoundaryShape line := by
  rw [boundaryPattern, Pattern.search_chain_atStart, Option.isSome_iff_ne_none, Ne,
    Pattern.head?_ways_eq_none_iff, not_not]
  simp only [Pattern.fits_chain_atLeast, Pattern.fits_chain_either, Pattern.fits_either,
    Pattern.fits_chain_char, Pattern.fits_chain_atEnd, Pattern.fits_chain_nil, and_true]
  constructor
  · rintro ⟨blanks, _, rfl, hblanks, -, hbang | hruler | hdashed⟩
    · obtain ⟨_, rfl, any, rfl⟩ := hbang
      exact .shebang hblanks
    · obtain ⟨hashes, _, rfl, hhashes, hone, hruler⟩ := hruler
      obtain ⟨gap, _, rfl, hgap, -, rule, any, rfl, hrule, hfour⟩ := hruler
      exact .ruler hblanks ⟨hone, by simpa using hhashes⟩ hgap ⟨hfour, by simpa using hrule⟩
    · obtain ⟨_, rfl, any, _, rfl, -, -, hdashed⟩ := hdashed
      obtain ⟨dashes, _, rfl, hdashes, hfour, gap, _, rfl, hgap, -, rfl⟩ := hdashed
      rw [List.append_nil]
      exact .dashed hblanks ⟨hfour, by simpa using hdashes⟩ hgap
  · intro h
    cases h with
    | @shebang blanks any hblanks =>
      exact ⟨blanks, _, rfl, hblanks, Nat.zero_le _, .inl ⟨_, rfl, any, rfl⟩⟩
    | @ruler blanks hashes gap rule any hblanks hhashes hgap hrule =>
      refine ⟨blanks, _, rfl, hblanks, Nat.zero_le _, .inr (.inl ?_)⟩
      refine ⟨hashes, _, rfl, by simpa using hhashes.2, hhashes.1, ?_⟩
      refine ⟨gap, _, rfl, hgap, Nat.zero_le _, ?_⟩
      exact ⟨rule, any, rfl, by simpa using hrule.2, hrule.1⟩
    | @dashed blanks any dashes gap hblanks hdashes hgap =>
      have hany : ∀ c ∈ any, (c != '\n') = true :=
        bne_newline_of_subset hline fun c hc => by simp [hc]
      refine ⟨blanks, _, rfl, hblanks, Nat.zero_le _, .inr (.inr ?_)⟩
      refine ⟨_, rfl, any, _, rfl, hany, Nat.zero_le _, ?_⟩
      refine ⟨dashes, _, rfl, by simpa using hdashes.2, hdashes.1, ?_⟩
      exact ⟨gap, [], (List.append_nil gap).symm, hgap, Nat.zero_le _, rfl⟩

example : (boundaryPattern.search "####".toList).isSome = false := by decide +kernel

/-! ## Comments -/

/-- One character is cut off the front of a text if it is of the class, and else nothing is. -/
def TakesOne (p : Char → Bool) (taken rest : List Char) : Prop :=
  (∃ c, p c = true ∧ taken = [c]) ∨ taken = [] ∧ ∀ c ∈ rest.head?, p c = false

/-- What a comment line says: the line less the blanks at its start, the `#`, an apostrophe right
behind it if there is one, then one blank if there is one, and all blanks at its end. -/
inductive Says : List Char → List Char → Prop where
  | intro {blanks mark gap text behind : List Char} (hblanks : ∀ c ∈ blanks, isBlank c = true)
    (hmark : TakesOne (fun c => c == '\x27') mark (gap ++ (text ++ behind)))
    (hgap : TakesOne isBlank gap (text ++ behind))
    (hlast : ∀ c ∈ text.getLast?, isBlank c = false) (hbehind : ∀ c ∈ behind, isBlank c = true) :
    Says (blanks ++ '#' :: (mark ++ (gap ++ (text ++ behind)))) text

/-- The text behind its first character, if that is of the class. -/
def dropOne (p : Char → Bool) (cs : List Char) : List Char :=
  if cs.head?.any p then cs.tail else cs

theorem TakesOne.dropOne_append (h : TakesOne p taken rest) : dropOne p (taken ++ rest) = rest := by
  rcases h with ⟨c, hc, rfl⟩ | ⟨rfl, hhead⟩
  · simp [dropOne, hc]
  · have hnone : rest.head?.any p = false := by
      cases rest with
      | nil => rfl
      | cons c rest => exact hhead c rfl
    simp [dropOne, hnone]

theorem exists_takesOne (p : Char → Bool) (cs : List Char) :
    ∃ taken rest, cs = taken ++ rest ∧ TakesOne p taken rest := by
  cases cs with
  | nil => exact ⟨[], [], rfl, .inr ⟨rfl, by simp⟩⟩
  | cons c cs =>
    cases hc : p c with
    | true => exact ⟨[c], cs, rfl, .inl ⟨c, hc, rfl⟩⟩
    | false => exact ⟨[], c :: cs, rfl, .inr ⟨rfl, by simpa using hc⟩⟩

theorem commentText_of_trimLeft (h : trimLeft line = '#' :: rest) : commentText line =
    trimRight (dropOne isBlank (dropOne (fun c => c == '\x27') rest)) := by
  cases rest with
  | nil => simp [commentText, h, dropOne]
  | cons c rest => by_cases hc : c = '\x27' <;> simp [commentText, h, dropOne, hc]

theorem Says.find?_eq (h : Says line text) : (line.find? fun c => !isBlank c) = some '#' := by
  cases h with
  | intro hblanks =>
    exact List.find?_eq_some_iff_append.mpr ⟨rfl, _, _, rfl, by simpa using hblanks⟩

theorem Says.commentText_eq (h : Says line text) : commentText line = text := by
  cases h with
  | @intro blanks mark gap text behind hblanks hmark hgap hlast hbehind =>
    rw [commentText_of_trimLeft (trimLeft_append_cons hblanks rfl _), hmark.dropOne_append,
      hgap.dropOne_append, trimRight_append hlast hbehind]

theorem exists_says (h : (line.find? fun c => !isBlank c) = some '#') : ∃ text, Says line text := by
  obtain ⟨-, blanks, rest, rfl, hblanks⟩ := List.find?_eq_some_iff_append.mp h
  obtain ⟨mark, rest, rfl, hmark⟩ := exists_takesOne (fun c => c == '\x27') rest
  obtain ⟨gap, rest, rfl, hgap⟩ := exists_takesOne isBlank rest
  obtain ⟨behind, hrest, hlast, hbehind⟩ := exists_eq_trimRight_append rest
  rw [hrest] at hmark hgap ⊢
  exact ⟨trimRight rest, .intro (by simpa using hblanks) hmark hgap hlast hbehind⟩

theorem says_iff : Says line text ↔
    (line.find? fun c => !isBlank c) = some '#' ∧ commentText line = text := by
  constructor
  · exact fun h => ⟨h.find?_eq, h.commentText_eq⟩
  · rintro ⟨hfind, rfl⟩
    obtain ⟨text, htext⟩ := exists_says hfind
    rwa [htext.commentText_eq]

/-- The pattern of comments, `^\s*#'?\s?(.*?)\s*$`. -/
def commentPattern : Pattern :=
  .chain [.atStart, .atLeast 0 isBlank, .char '#', .maybe fun c => c == '\x27', .maybe isBlank,
    .group (.fewest fun c => c != '\n'), .atLeast 0 isBlank, .atEnd]

theorem TakesOne.head?_chain_maybe {ps : List Pattern} {place reached : Place}
    (h : TakesOne p taken rest) (hrest : place.rest = taken ++ rest)
    (hnext : ((Pattern.chain ps).ways ⟨place.before ++ taken, rest, place.group⟩).head? =
      some reached) :
    ((Pattern.chain (.maybe p :: ps)).ways place).head? = some reached := by
  rcases h with ⟨c, hc, rfl⟩ | ⟨rfl, hhead⟩
  · exact Pattern.head?_chain_greedy hrest (by simpa using hc) (Nat.zero_le _) (by simp) (.inl rfl)
      hnext
  · exact Pattern.head?_chain_greedy hrest (by simp) (Nat.zero_le _) (by simp) (.inr hhead) hnext

/-- Every greedy part of the pattern takes all it can, since the parts behind it fit then. The group
stops where nothing but blanks follows, and no earlier, since its last character is not blank. -/
theorem Says.search_commentPattern (h : Says line text) (hline : '\n' ∉ line) :
    commentPattern.search line = some ⟨line, [], some text⟩ := by
  cases h with
  | @intro blanks mark gap text behind hblanks hmark hgap hlast hbehind =>
    have hhash : ∀ c ∈ ('#' :: (mark ++ (gap ++ (text ++ behind)))).head?, isBlank c = false := by
      rintro c ⟨⟩
      rfl
    have htext : ∀ c ∈ text, (c != '\n') = true :=
      bne_newline_of_subset hline fun c hc => by simp [hc]
    have hend : behind = behind ++ [] := (List.append_nil behind).symm
    rw [commentPattern, Pattern.search_chain_atStart]
    refine Pattern.head?_chain_greedy rfl hblanks (Nat.zero_le _) (by simp) (.inr hhash) ?_
    refine Pattern.head?_chain_char rfl ?_
    refine hmark.head?_chain_maybe rfl (hgap.head?_chain_maybe rfl ?_)
    refine Pattern.head?_chain_group_fewest rfl htext ?_ ?_
    · intro front back hsplit hback hfits
      obtain ⟨taken, _, hrest, hblank, -, hstop⟩ := Pattern.fits_chain_atLeast.mp hfits
      obtain rfl := Pattern.fits_chain_atEnd.mp hstop
      have hmem : back.getLast hback ∈ taken := by
        rw [List.append_nil] at hrest
        exact hrest ▸ List.mem_append_left behind (List.getLast_mem hback)
      have hvisible : isBlank (back.getLast hback) = false := by
        refine hlast _ ?_
        rw [hsplit, List.getLast?_append_of_ne_nil front hback]
        exact List.getLast?_eq_some_getLast hback
      exact Bool.false_ne_true (hvisible.symm.trans (hblank _ hmem))
    · refine Pattern.head?_chain_greedy hend hbehind (Nat.zero_le _) (by simp) (.inr (by simp)) ?_
      simp [Pattern.chain, Pattern.ways]

example : commentPattern.search "#'  a ".toList = some ⟨"#'  a ".toList, [], some " a".toList⟩ := by
  decide +kernel

theorem search_commentPattern_eq_none (h : (line.find? fun c => !isBlank c) ≠ some '#') :
    commentPattern.search line = none := by
  rw [commentPattern, Pattern.search_chain_atStart, Pattern.head?_ways_eq_none_iff]
  intro hfits
  obtain ⟨blanks, rest, hline, hblanks, -, hfits⟩ := Pattern.fits_chain_atLeast.mp hfits
  obtain ⟨rest, rfl, -⟩ := Pattern.fits_chain_char.mp hfits
  exact h (List.find?_eq_some_iff_append.mpr ⟨rfl, blanks, rest, hline, by simpa using hblanks⟩)

/-! ## Reading a block by the patterns -/

/-- The texts of the comments above a line, from the `k`-th line of a file up to the first line
that is no comment or is a boundary. There is no answer if the pattern of comments does not match
a line in between. -/
def textsUpward (lines : List (List Char)) : ℕ → Option (List (List Char))
  | 0 => some []
  | k + 1 =>
    match lines[k]? with
    | none => some []
    | some line =>
      if (line.find? fun c => !isBlank c) ≠ some '#' ∨ (boundaryPattern.search line).isSome then
        some []
      else do
        let found ← commentPattern.search line
        let text ← found.group
        let texts ← textsUpward lines k
        return text :: texts

/-- The pattern of comments matches every line that it is tried on. -/
theorem textsUpward_succ (h : lines[k]? = some line) (hline : '\n' ∉ line) :
    textsUpward lines (k + 1) =
      if isDocLine line then (textsUpward lines k).map (commentText line :: ·) else some [] := by
  have hstop : ((line.find? fun c => !isBlank c) ≠ some '#' ∨
      (boundaryPattern.search line).isSome = true) ↔ IsStopLine line := by
    rw [isSome_search_boundaryPattern hline, ← isBoundary_iff, IsStopLine]
  simp only [textsUpward, h, hstop, isDocLine_iff]
  by_cases hdoc : IsStopLine line
  · simp [hdoc]
  · have hfind : (line.find? fun c => !isBlank c) = some '#' := by
      by_contra hne
      exact hdoc (.inl hne)
    rw [if_neg hdoc, if_pos hdoc, (says_iff.mpr ⟨hfind, rfl⟩).search_commentPattern hline]
    cases textsUpward lines k <;> rfl

theorem textsUpward_eq (hlines : ∀ line ∈ lines, '\n' ∉ line) : ∀ k ≤ lines.length,
    textsUpward lines k = some (((lines.take k).rtakeWhile isDocLine).reverse.map commentText)
  | 0, _ => rfl
  | k + 1, hk => by
    have hget : lines[k]? = some lines[k] := List.getElem?_eq_getElem hk
    rw [textsUpward_succ hget (hlines _ (List.getElem_mem hk)), List.take_add_one, hget,
      textsUpward_eq hlines k (Nat.le_of_succ_le hk), Option.toList_some, List.rtakeWhile_concat]
    split_ifs
    · simp
    · rfl

/-- Reading upwards by the patterns gives the texts of the block above a line. -/
theorem textsUpward_pred (hlines : ∀ line ∈ lines, '\n' ∉ line) (n : ℕ) :
    textsUpward lines (n - 1) = some ((blockAbove lines n).reverse.map commentText) := by
  unfold blockAbove
  split_ifs with hn
  · exact textsUpward_eq hlines _ hn
  · obtain ⟨k, hk⟩ : ∃ k, n - 1 = k + 1 := ⟨n - 2, by omega⟩
    have hget : lines[k]? = none := List.getElem?_eq_none (by omega)
    simp [hk, textsUpward, hget]

end CallAtlas.Text

namespace CallAtlas.SourceFile

open Text

/-- The recognisers of comment lines decide their patterns. A line without a newline is a boundary
exactly if it has the shape of one, and exactly if the pattern of boundaries matches it. If its
first character that is not blank is `#`, the pattern of comments matches the whole line, and the
group is what the line says; if not, there is no match. So the pattern of comments is never tried
in vain when the lines above a line of a file are read by the two patterns, and the texts found
are those that the documentation of the line is made of. -/
theorem recognisers_decide_patterns :
    (∀ line : List Char, '\n' ∉ line →
      (isBoundary line = true ↔ BoundaryShape line) ∧
      (isBoundary line = true ↔ (boundaryPattern.search line).isSome = true) ∧
      ((line.find? fun c => !isBlank c) = some '#' →
        commentPattern.search line = some ⟨line, [], some (commentText line)⟩ ∧
        ∀ text, Says line text ↔ text = commentText line) ∧
      ((line.find? fun c => !isBlank c) ≠ some '#' →
        commentPattern.search line = none ∧ ∀ text, ¬Says line text)) ∧
    ∀ (file : SourceFile) (n : ℕ),
      textsUpward (Text.lines file.text.toList) (n - 1) =
        some ((blockAbove (Text.lines file.text.toList) n).reverse.map commentText) ∧
      file.docAbove n =
        (blockText (blockAbove (Text.lines file.text.toList) n)).map String.ofList := by
  refine ⟨fun line hline => ⟨isBoundary_iff, ?_, fun hfind => ⟨?_, fun text => ?_⟩,
    fun hfind => ⟨?_, fun text h => ?_⟩⟩, fun file n => ⟨?_, docAbove_eq_blockText file n⟩⟩
  · rw [isBoundary_iff, isSome_search_boundaryPattern hline]
  · exact (says_iff.mpr ⟨hfind, rfl⟩).search_commentPattern hline
  · rw [says_iff, and_iff_right hfind, eq_comm]
  · exact search_commentPattern_eq_none hfind
  · exact hfind h.find?_eq
  · exact textsUpward_pred (fun line => newline_not_mem_of_mem_lines) n

/-- The theorem applies to five `#`, which are a ruler, to four, which are none, to dashes before
blanks at the end, and to a comment with an apostrophe and blanks around its text. -/
theorem recognisers_decide_patterns_of_lines :
    '\n' ∉ " #####".toList ∧ BoundaryShape " #####".toList ∧
    '\n' ∉ "####".toList ∧ ¬BoundaryShape "####".toList ∧
    '\n' ∉ "# a ---- ".toList ∧ (boundaryPattern.search "# a ---- ".toList).isSome = true ∧
    '\n' ∉ "\t#'  Adds. ".toList ∧
    ("\t#'  Adds. ".toList.find? fun c => !isBlank c) = some '#' ∧
    commentPattern.search "\t#'  Adds. ".toList =
      some ⟨"\t#'  Adds. ".toList, [], some " Adds.".toList⟩ := by
  obtain ⟨hlines, -⟩ := recognisers_decide_patterns
  have hfive : '\n' ∉ " #####".toList := by decide +kernel
  have hfour : '\n' ∉ "####".toList := by decide +kernel
  have hdashes : '\n' ∉ "# a ---- ".toList := by decide +kernel
  have hcomment : '\n' ∉ "\t#'  Adds. ".toList := by decide +kernel
  have hfind : ("\t#'  Adds. ".toList.find? fun c => !isBlank c) = some '#' := by decide +kernel
  have htext : commentText "\t#'  Adds. ".toList = " Adds.".toList := by decide +kernel
  have hno : ¬isBoundary "####".toList = true := by decide +kernel
  refine ⟨hfive, (hlines _ hfive).1.mp (by decide +kernel), hfour, ?_, hdashes,
    (hlines _ hdashes).2.1.mp (by decide +kernel), hcomment, hfind, ?_⟩
  · exact fun h => hno ((hlines _ hfour).1.mpr h)
  · rw [((hlines _ hcomment).2.2.1 hfind).1, htext]

end CallAtlas.SourceFile
