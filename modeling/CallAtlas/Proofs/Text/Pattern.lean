import Mathlib.Data.List.TakeWhile
import Mathlib.Data.Nat.Notation

/-!
# Patterns

Regular expressions in which single characters are repeated, read leftmost first: of all matches
the leftmost ones count, and of these the one that the pattern prefers. The preference is that of
a reader that tries one way after another. Greedy repetition tries many characters before few and
lazy repetition few before many, and the first of two alternatives is tried before the second.

* `Pattern.ways` lists the matches at a place in the order of preference.
* `Pattern.search` is the match in a text.
* `Pattern.Fits` says that there is a match at a place. What it takes is said without the order,
  by one lemma for each kind of pattern at the front of a chain.
* `head?_chain_greedy` and `head?_chain_group_fewest` say which match is preferred.
-/

namespace CallAtlas.Text

/-- A run of characters of a class is a front of the longest such run. -/
theorem le_length_takeWhile_iff {p : Char → Bool} {cs : List Char} {k : ℕ} :
    k ≤ (cs.takeWhile p).length ↔
      ∃ taken rest, cs = taken ++ rest ∧ (∀ c ∈ taken, p c = true) ∧ taken.length = k := by
  constructor
  · intro hk
    obtain ⟨behind, hbehind⟩ := List.takeWhile_prefix p (l := cs)
    refine ⟨(cs.takeWhile p).take k, (cs.takeWhile p).drop k ++ behind, ?_, ?_, ?_⟩
    · rw [← List.append_assoc, List.take_append_drop, hbehind]
    · exact fun c hc => List.mem_takeWhile_imp (List.mem_of_mem_take hc)
    · exact List.length_take_of_le hk
  · rintro ⟨taken, rest, rfl, htaken, rfl⟩
    rw [List.takeWhile_append_of_pos htaken, List.length_append]
    exact Nat.le_add_right _ _

/-- A place in a text, with what the group of a pattern has matched on the way there. -/
structure Place where
  before : List Char
  rest : List Char
  group : Option (List Char)
  deriving DecidableEq

/-- The place some characters further on. -/
def Place.advance (place : Place) (n : ℕ) : Place :=
  { place with before := place.before ++ place.rest.take n, rest := place.rest.drop n }

theorem Place.advance_length {place : Place} {taken rest : List Char}
    (h : place.rest = taken ++ rest) :
    place.advance taken.length = ⟨place.before ++ taken, rest, place.group⟩ := by
  rw [Place.advance, h, List.take_left, List.drop_left]

/-- A pattern with at most one group. Only single characters are repeated, so no repetition goes
on without reading on. -/
inductive Pattern where
  | empty
  /-- At least `least` characters of a class, and at most `most` if there is such a bound. -/
  | chars (p : Char → Bool) (least : ℕ) (most : Option ℕ) (greedy : Bool)
  | seq (first second : Pattern)
  | either (first second : Pattern)
  | group (inner : Pattern)
  | atStart
  | atEnd

namespace Pattern

variable {p : Char → Bool} {ps : List Pattern} {least : ℕ} {most : Option ℕ} {greedy : Bool}
  {place reached : Place} {taken rest : List Char} {k : ℕ} {c : Char}

/-- Patterns one after another. -/
def chain (ps : List Pattern) : Pattern :=
  ps.foldr seq empty

/-- One character. -/
def char (c : Char) : Pattern :=
  chars (fun d => d == c) 1 (some 1) true

/-- A character of a class, or nothing if there is none. -/
def maybe (p : Char → Bool) : Pattern :=
  chars p 0 (some 1) true

/-- As many characters of a class as possible, and no fewer than `least`. -/
def atLeast (least : ℕ) (p : Char → Bool) : Pattern :=
  chars p least none true

/-- As few characters of a class as possible. -/
def fewest (p : Char → Bool) : Pattern :=
  chars p 0 none false

/-- The numbers of characters that a repetition can take at the front of a text, fewest first. -/
def counts (p : Char → Bool) (least : ℕ) (most : Option ℕ) (rest : List Char) : List ℕ :=
  let run := (rest.takeWhile p).length
  List.range' least (most.elim run (min run) + 1 - least)

/-- The places that a pattern can lead to, in the order in which it tries them. -/
def ways : Pattern → Place → List Place
  | empty, place => [place]
  | chars p least most greedy, place =>
    let counts := counts p least most place.rest
    (if greedy then counts.reverse else counts).map place.advance
  | seq first second, place => (first.ways place).flatMap second.ways
  | either first second, place => first.ways place ++ second.ways place
  | group inner, place => (inner.ways place).map fun reached =>
      { reached with group := some (reached.before.drop place.before.length) }
  | atStart, place => if place.before = [] then [place] else []
  | atEnd, place => if place.rest = [] then [place] else []

/-- The match of a pattern in a text: the leftmost one, and there the first one that is tried. -/
def search (pattern : Pattern) (text : List Char) : Option Place :=
  (List.range (text.length + 1)).findSome? fun k =>
    (pattern.ways ⟨text.take k, text.drop k, none⟩).head?

/-- There is a match at a place. -/
def Fits (pattern : Pattern) (place : Place) : Prop :=
  ∃ reached, reached ∈ pattern.ways place

theorem head?_ways_eq_none_iff {pattern : Pattern} :
    (pattern.ways place).head? = none ↔ ¬pattern.Fits place := by
  rw [List.head?_eq_none_iff, List.eq_nil_iff_forall_not_mem, Fits, not_exists]

theorem head?_chain_cons (pattern : Pattern) (ps : List Pattern) (place : Place) :
    ((chain (pattern :: ps)).ways place).head? =
      (pattern.ways place).findSome? fun reached => ((chain ps).ways reached).head? :=
  List.head?_flatMap

/-! ## Where a chain fits -/

@[simp]
theorem fits_chain_nil (place : Place) : (chain []).Fits place :=
  ⟨place, List.mem_singleton_self place⟩

theorem fits_chain_cons {pattern : Pattern} : (chain (pattern :: ps)).Fits place ↔
    ∃ reached ∈ pattern.ways place, (chain ps).Fits reached := by
  simp only [Fits, chain, List.foldr_cons, ways, List.mem_flatMap]
  exact ⟨fun ⟨last, reached, hreached, hlast⟩ => ⟨reached, hreached, last, hlast⟩,
    fun ⟨reached, hreached, last, hlast⟩ => ⟨last, reached, hreached, hlast⟩⟩

theorem mem_counts : k ∈ counts p least most rest ↔
    least ≤ k ∧ (∀ m ∈ most, k ≤ m) ∧ k ≤ (rest.takeWhile p).length := by
  rw [counts, List.mem_range'_1]
  cases most with
  | none => simp; omega
  | some m => simp; omega

theorem fits_chain_chars : (chain (chars p least most greedy :: ps)).Fits place ↔
    ∃ taken rest, place.rest = taken ++ rest ∧ (∀ c ∈ taken, p c = true) ∧
      least ≤ taken.length ∧ (∀ m ∈ most, taken.length ≤ m) ∧
      (chain ps).Fits ⟨place.before ++ taken, rest, place.group⟩ := by
  have hmem : ∀ k, k ∈ (if greedy then (counts p least most place.rest).reverse
      else counts p least most place.rest) ↔ k ∈ counts p least most place.rest := by
    intro k
    split_ifs
    · exact List.mem_reverse
    · rfl
  simp only [fits_chain_cons, ways, List.mem_map, hmem, mem_counts, le_length_takeWhile_iff]
  constructor
  · rintro ⟨_, ⟨_, ⟨hleast, hmost, taken, rest, hrest, hp, rfl⟩, rfl⟩, hfits⟩
    rw [Place.advance_length hrest] at hfits
    exact ⟨taken, rest, hrest, hp, hleast, hmost, hfits⟩
  · rintro ⟨taken, rest, hrest, hp, hleast, hmost, hfits⟩
    rw [← Place.advance_length hrest] at hfits
    exact ⟨_, ⟨_, ⟨hleast, hmost, taken, rest, hrest, hp, rfl⟩, rfl⟩, hfits⟩

theorem fits_chain_atLeast : (chain (atLeast least p :: ps)).Fits place ↔
    ∃ taken rest, place.rest = taken ++ rest ∧ (∀ c ∈ taken, p c = true) ∧ least ≤ taken.length ∧
      (chain ps).Fits ⟨place.before ++ taken, rest, place.group⟩ := by
  simp [atLeast, fits_chain_chars]

theorem fits_chain_char : (chain (char c :: ps)).Fits place ↔
    ∃ rest, place.rest = c :: rest ∧
      (chain ps).Fits ⟨place.before ++ [c], rest, place.group⟩ := by
  rw [char, fits_chain_chars]
  constructor
  · rintro ⟨taken, rest, hrest, hp, hleast, hmost, hfits⟩
    obtain ⟨d, rfl⟩ := List.length_eq_one_iff.mp (Nat.le_antisymm (hmost 1 rfl) hleast)
    obtain rfl : d = c := by simpa using hp
    exact ⟨rest, hrest, hfits⟩
  · rintro ⟨rest, hrest, hfits⟩
    exact ⟨[c], rest, hrest, by simp, by simp, by simp, hfits⟩

theorem fits_either {first second : Pattern} :
    (either first second).Fits place ↔ first.Fits place ∨ second.Fits place := by
  simp only [Fits, ways, List.mem_append, exists_or]

theorem fits_chain_either {first second : Pattern} :
    (chain [either first second]).Fits place ↔ first.Fits place ∨ second.Fits place := by
  simp only [fits_chain_cons, fits_chain_nil, and_true]
  exact fits_either

theorem fits_chain_atEnd : (chain [atEnd]).Fits place ↔ place.rest = [] := by
  simp [fits_chain_cons, ways]

/-! ## The preferred match -/

/-- A pattern for the start of a text is matched there or nowhere. -/
theorem search_chain_atStart (ps : List Pattern) (text : List Char) :
    (chain (atStart :: ps)).search text = ((chain ps).ways ⟨[], text, none⟩).head? := by
  have hlater : ((List.range text.length).map Nat.succ).findSome? (fun k =>
      ((chain (atStart :: ps)).ways ⟨text.take k, text.drop k, none⟩).head?) = none := by
    rw [List.findSome?_eq_none_iff]
    intro k hk
    obtain ⟨j, hj, rfl⟩ := List.mem_map.mp hk
    have hne : text ≠ [] := List.length_pos_iff.mp (Nat.zero_lt_of_lt (List.mem_range.mp hj))
    simp [head?_chain_cons, ways, hne]
  rw [search, List.range_succ_eq_map, ← List.singleton_append (x := 0), List.findSome?_append,
    hlater]
  simp [head?_chain_cons, ways]

/-- A run that is as long as the bound, or ends before another character, is the longest one. -/
theorem counts_eq_concat (hp : ∀ c ∈ taken, p c = true) (hleast : least ≤ taken.length)
    (hmost : ∀ m ∈ most, taken.length ≤ m)
    (hlast : most = some taken.length ∨ ∀ c ∈ rest.head?, p c = false) :
    counts p least most (taken ++ rest) =
      List.range' least (taken.length - least) ++ [taken.length] := by
  have hrun : most.elim ((taken ++ rest).takeWhile p).length
      (min ((taken ++ rest).takeWhile p).length) = taken.length := by
    rw [List.takeWhile_append_of_pos hp, List.length_append]
    rcases hlast with rfl | hhead
    · exact Nat.min_eq_right (Nat.le_add_right _ _)
    · have hnil : rest.takeWhile p = [] := by
        cases rest with
        | nil => rfl
        | cons c rest => exact List.takeWhile_cons_of_neg (by simp [hhead c rfl])
      rw [hnil, List.length_nil, Nat.add_zero]
      cases most with
      | none => rfl
      | some m => exact Nat.min_eq_left (hmost m rfl)
  rw [counts, hrun, Nat.sub_add_comm hleast, List.range'_concat, Nat.one_mul,
    Nat.add_sub_cancel' hleast]

/-- Greedy repetition takes the longest run, if the rest of the chain fits behind it. -/
theorem head?_chain_greedy (hrest : place.rest = taken ++ rest) (hp : ∀ c ∈ taken, p c = true)
    (hleast : least ≤ taken.length) (hmost : ∀ m ∈ most, taken.length ≤ m)
    (hlast : most = some taken.length ∨ ∀ c ∈ rest.head?, p c = false)
    (hnext : ((chain ps).ways ⟨place.before ++ taken, rest, place.group⟩).head? = some reached) :
    ((chain (chars p least most true :: ps)).ways place).head? = some reached := by
  rw [← Place.advance_length hrest] at hnext
  have hcounts := counts_eq_concat hp hleast hmost hlast
  rw [← hrest] at hcounts
  rw [head?_chain_cons, ways, hcounts]
  simp [hnext]

theorem head?_chain_char (hrest : place.rest = c :: rest)
    (hnext : ((chain ps).ways ⟨place.before ++ [c], rest, place.group⟩).head? = some reached) :
    ((chain (char c :: ps)).ways place).head? = some reached := by
  have htaken : ∀ d ∈ [c], (d == c) = true := by simp
  exact head?_chain_greedy hrest htaken (by simp) (by simp) (.inl rfl) hnext

/-- Lazy repetition takes the shortest run behind which the rest of the chain fits. -/
theorem head?_chain_group_fewest (hrest : place.rest = taken ++ rest)
    (hp : ∀ c ∈ taken, p c = true)
    (hfirst : ∀ front back, taken = front ++ back → back ≠ [] →
      ¬(chain ps).Fits ⟨place.before ++ front, back ++ rest, some front⟩)
    (hnext : ((chain ps).ways ⟨place.before ++ taken, rest, some taken⟩).head? = some reached) :
    ((chain (group (fewest p) :: ps)).ways place).head? = some reached := by
  have hrun : taken.length ≤ (place.rest.takeWhile p).length :=
    le_length_takeWhile_iff.mpr ⟨taken, rest, hrest, hp, rfl⟩
  obtain ⟨more, hmore⟩ := Nat.exists_eq_add_of_le hrun
  have hcounts : counts p 0 none place.rest = List.range' 0 taken.length ++
      taken.length :: List.range' (taken.length + 1) more := by
    rw [counts, Option.elim_none, Nat.sub_zero, hmore, Nat.add_assoc, ← List.range'_append_1,
      Nat.zero_add, List.range'_succ]
  have hhold : ∀ front back, place.rest = front ++ back →
      { place.advance front.length with
        group := some ((place.advance front.length).before.drop place.before.length) } =
      (⟨place.before ++ front, back, some front⟩ : Place) := by
    intro front back h
    rw [Place.advance_length h, List.drop_left]
  rw [head?_chain_cons, ways, fewest, ways, hcounts, List.findSome?_map, List.findSome?_map,
    List.findSome?_eq_some_iff]
  refine ⟨_, _, _, rfl, ?_, fun k hk => ?_⟩
  · rw [Function.comp_apply, Function.comp_apply, hhold taken rest hrest, hnext]
  · have hk : k < taken.length := by simpa using List.mem_range'_1.mp hk
    have hfront : (taken.take k).length = k := List.length_take_of_le hk.le
    have hsplit : place.rest = taken.take k ++ (taken.drop k ++ rest) := by
      rw [← List.append_assoc, List.take_append_drop, hrest]
    have hplace := hhold _ _ hsplit
    rw [hfront] at hplace
    rw [Function.comp_apply, Function.comp_apply, hplace, head?_ways_eq_none_iff]
    exact hfirst _ _ (List.take_append_drop k taken).symm (by simpa using hk)

end Pattern

end CallAtlas.Text
