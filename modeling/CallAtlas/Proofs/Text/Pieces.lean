import Mathlib.Data.List.Basic
import CallAtlas.Text.Pieces

/-!
# Pieces of a text

A separator ends the pieces before it and starts those behind it (`pieces_append`), and a text
without separators is one piece (`pieces_of_not_mem`). So there is one piece more than there are
separators (`length_pieces`), and no piece holds one (`not_mem_of_mem_pieces`). Cutting undoes
joining (`pieces_intercalate`).
-/

namespace CallAtlas.Text

variable {separator c : Char} {cs piece : List Char} {more : List (List Char)}

theorem pieces_ne_nil (separator : Char) : ∀ cs : List Char, pieces separator cs ≠ []
  | [] => by simp [pieces]
  | c :: cs => by
    rw [pieces, List.foldr_cons, addToPieces.eq_def]
    split_ifs
    · simp
    · split <;> simp

theorem pieces_cons_self (separator : Char) (cs : List Char) :
    pieces separator (separator :: cs) = [] :: pieces separator cs := by
  rw [pieces, List.foldr_cons, addToPieces.eq_def, if_pos rfl]
  rfl

/-- A character that is no separator joins the first piece. -/
theorem pieces_cons_of_pieces (h : c ≠ separator) (hpieces : pieces separator cs = piece :: more) :
    pieces separator (c :: cs) = (c :: piece) :: more := by
  rw [pieces] at hpieces ⊢
  rw [List.foldr_cons, hpieces, addToPieces.eq_def, if_neg h]

theorem pieces_cons_of_ne (h : c ≠ separator) (cs : List Char) : ∃ piece more,
    pieces separator cs = piece :: more ∧ pieces separator (c :: cs) = (c :: piece) :: more := by
  obtain ⟨piece, more, hpieces⟩ := List.exists_cons_of_ne_nil (pieces_ne_nil separator cs)
  exact ⟨piece, more, hpieces, pieces_cons_of_pieces h hpieces⟩

theorem pieces_append (separator : Char) : ∀ before after : List Char,
    pieces separator (before ++ separator :: after) =
      pieces separator before ++ pieces separator after
  | [], after => pieces_cons_self separator after
  | c :: before, after => by
    have ih := pieces_append separator before after
    by_cases hc : c = separator
    · rw [hc, List.cons_append, pieces_cons_self, pieces_cons_self, ih, List.cons_append]
    · obtain ⟨piece, more, hbefore, hcons⟩ := pieces_cons_of_ne hc before
      rw [hbefore, List.cons_append] at ih
      rw [List.cons_append, pieces_cons_of_pieces hc ih, hcons, List.cons_append]

theorem pieces_of_not_mem : ∀ {cs : List Char}, separator ∉ cs → pieces separator cs = [cs]
  | [], _ => rfl
  | c :: cs, h => by
    rw [List.mem_cons, not_or] at h
    exact pieces_cons_of_pieces (Ne.symm h.1) (pieces_of_not_mem h.2)

/-- Only the empty text has the empty piece alone. -/
theorem eq_nil_of_pieces : ∀ {cs : List Char}, pieces separator cs = [[]] → cs = []
  | [], _ => rfl
  | c :: cs, h => by
    by_cases hc : c = separator
    · rw [hc, pieces_cons_self] at h
      exact absurd (List.cons.inj h).2 (pieces_ne_nil separator cs)
    · obtain ⟨piece, more, -, hcons⟩ := pieces_cons_of_ne hc cs
      rw [hcons] at h
      exact absurd (List.cons.inj h).1 (List.cons_ne_nil c piece)

/-- Texts without separators are the pieces of what they are joined to. -/
theorem pieces_intercalate : ∀ {texts : List (List Char)}, (∀ text ∈ texts, separator ∉ text) →
    texts ≠ [] → pieces separator ([separator].intercalate texts) = texts
  | [text], h, _ => by
    rw [List.intercalate_singleton, pieces_of_not_mem (h text List.mem_cons_self)]
  | text :: text' :: texts, h, _ => by
    have ih := pieces_intercalate (fun text htext => h text (List.mem_cons_of_mem _ htext))
      (List.cons_ne_nil text' texts)
    rw [List.intercalate_cons_cons, List.append_assoc, List.singleton_append, pieces_append, ih,
      pieces_of_not_mem (h text List.mem_cons_self)]
    rfl

theorem length_pieces (separator : Char) : ∀ cs : List Char,
    (pieces separator cs).length = cs.count separator + 1
  | [] => rfl
  | c :: cs => by
    have ih := length_pieces separator cs
    by_cases hc : c = separator
    · rw [hc, pieces_cons_self, List.length_cons, List.count_cons_self, ih]
    · obtain ⟨piece, more, hpieces, hcons⟩ := pieces_cons_of_ne hc cs
      rw [hcons, List.count_cons_of_ne hc, ← ih, hpieces, List.length_cons, List.length_cons]

theorem not_mem_of_mem_pieces : ∀ {cs piece : List Char}, piece ∈ pieces separator cs →
    separator ∉ piece
  | [], piece, h => by
    rw [List.mem_singleton.mp h]
    exact List.not_mem_nil
  | c :: cs, piece, h => by
    by_cases hc : c = separator
    · rw [hc, pieces_cons_self, List.mem_cons] at h
      rcases h with rfl | h
      · exact List.not_mem_nil
      · exact not_mem_of_mem_pieces h
    · obtain ⟨first, more, hpieces, hcons⟩ := pieces_cons_of_ne hc cs
      have ih : ∀ piece ∈ first :: more, separator ∉ piece := fun piece hpiece =>
        not_mem_of_mem_pieces (hpieces ▸ hpiece)
      rw [hcons, List.mem_cons] at h
      rcases h with rfl | h
      · rw [List.mem_cons, not_or]
        exact ⟨Ne.symm hc, ih first (List.mem_cons_self)⟩
      · exact ih piece (List.mem_cons_of_mem first h)

end CallAtlas.Text
