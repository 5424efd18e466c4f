import CallAtlas.Analysis
import CallAtlas.Proofs.Path

/-!
# Repeated paths among the inputs

A run reads each path once, in the spelling that comes first. The paths it keeps are some of the
inputs in their order, no two of them are the same, and of inputs that are the same the first is
kept (`sublist_distinct`, `pairwise_distinct`, `find?_mem_distinct`). Repetitions can be dropped in
two lists of paths apart if no path is in both (`distinct_append`), and before or after some of the
paths are chosen (`distinct_filter`). All this is proved for a search that has seen some paths
before, by recursion on the inputs.
-/

namespace CallAtlas

namespace Analysis

variable {ps qs : List Path} {p q : Path}

/-! ## One list -/

theorem sublist_distinctFrom : ∀ (ps : List Path) (seen : PathSet),
    (distinctFrom seen ps).Sublist ps
  | [], _ => List.Sublist.refl _
  | p :: ps, seen => by
    rw [distinctFrom]
    split_ifs
    · exact (sublist_distinctFrom ps seen).cons p
    · exact (sublist_distinctFrom ps (seen.add p)).cons_cons p

theorem not_mem_of_mem_distinctFrom : ∀ {ps : List Path} {seen : PathSet},
    q ∈ distinctFrom seen ps → q.components ∉ seen
  | p :: ps, seen, hq => by
    rw [distinctFrom] at hq
    split_ifs at hq with hp
    · exact not_mem_of_mem_distinctFrom hq
    · rcases List.mem_cons.mp hq with rfl | hq
      · exact mt Std.ExtTreeMap.contains_iff_mem.mpr hp
      · exact fun hmem => not_mem_of_mem_distinctFrom hq (PathSet.mem_add_iff.mpr (Or.inr hmem))

theorem pairwise_distinctFrom : ∀ (ps : List Path) (seen : PathSet),
    (distinctFrom seen ps).Pairwise fun p q => p.components ≠ q.components
  | [], _ => List.Pairwise.nil
  | p :: ps, seen => by
    rw [distinctFrom]
    split_ifs
    · exact pairwise_distinctFrom ps seen
    · refine List.Pairwise.cons (fun q hq heq => ?_) (pairwise_distinctFrom ps (seen.add p))
      exact not_mem_of_mem_distinctFrom hq (PathSet.mem_add_iff.mpr (Or.inl heq))

theorem find?_mem_distinctFrom : ∀ {ps : List Path} {seen : PathSet},
    p ∈ ps → p.components ∉ seen →
      ∃ q ∈ distinctFrom seen ps, ps.find? (fun r => r.components = p.components) = some q
  | first :: ps, seen, hp, hnew => by
    by_cases heq : first.components = p.components
    · have hfirst : ¬seen.contains first.components :=
        mt Std.ExtTreeMap.contains_iff_mem.mp (heq ▸ hnew)
      rw [distinctFrom, if_neg hfirst]
      exact ⟨first, List.mem_cons_self, List.find?_cons_of_pos (by simpa using heq)⟩
    · have hrest : p ∈ ps := (List.mem_cons.mp hp).resolve_left fun hpfirst => heq (hpfirst ▸ rfl)
      rw [distinctFrom, List.find?_cons_of_neg (by simpa using heq)]
      split_ifs
      · exact find?_mem_distinctFrom hrest hnew
      · have hnew' : p.components ∉ seen.add first := fun hmem =>
          (PathSet.mem_add_iff.mp hmem).elim heq hnew
        obtain ⟨q, hq, hfind⟩ := find?_mem_distinctFrom hrest hnew'
        exact ⟨q, List.mem_cons_of_mem first hq, hfind⟩

/-- The paths that are kept are some of the inputs, in their order. -/
theorem sublist_distinct (ps : List Path) : (distinct ps).Sublist ps :=
  sublist_distinctFrom ps ∅

/-- No two paths that are kept are the same. -/
theorem pairwise_distinct (ps : List Path) :
    (distinct ps).Pairwise fun p q => p.components ≠ q.components :=
  pairwise_distinctFrom ps ∅

/-- Of the inputs that are the same, the first is kept. -/
theorem find?_mem_distinct (h : p ∈ ps) :
    ∃ q ∈ distinct ps, ps.find? (fun r => r.components = p.components) = some q :=
  find?_mem_distinctFrom h (by simp)

/-- Each input is the same as a path that is kept. -/
theorem exists_mem_distinct (h : p ∈ ps) : ∃ q ∈ distinct ps, q.components = p.components := by
  obtain ⟨q, hq, hfind⟩ := find?_mem_distinct h
  exact ⟨q, hq, by simpa using List.find?_some hfind⟩

/-- Paths of which no two are the same are all kept. -/
theorem distinctFrom_eq_self : ∀ {ps : List Path} {seen : PathSet},
    (∀ p ∈ ps, p.components ∉ seen) → ps.Pairwise (fun p q => p.components ≠ q.components) →
      distinctFrom seen ps = ps
  | [], _, _, _ => rfl
  | p :: ps, seen, hseen, hdistinct => by
    obtain ⟨hp, hps⟩ := List.forall_mem_cons.mp hseen
    obtain ⟨hpq, hrest⟩ := List.pairwise_cons.mp hdistinct
    rw [distinctFrom, if_neg (mt Std.ExtTreeMap.contains_iff_mem.mp hp)]
    refine congrArg (p :: ·) (distinctFrom_eq_self (fun q hq hmem => ?_) hrest)
    rcases PathSet.mem_add_iff.mp hmem with heq | hmem
    · exact hpq q hq heq
    · exact hps q hq hmem

theorem distinct_eq_self (h : ps.Pairwise fun p q => p.components ≠ q.components) :
    distinct ps = ps :=
  distinctFrom_eq_self (by simp) h

/-! ## Two lists -/

/-- Which paths are kept depends only on which of them are seen. -/
theorem distinctFrom_congr : ∀ {ps : List Path} {s t : PathSet},
    (∀ p ∈ ps, p.components ∈ s ↔ p.components ∈ t) → distinctFrom s ps = distinctFrom t ps
  | [], _, _, _ => rfl
  | p :: ps, s, t, h => by
    obtain ⟨hp, hps⟩ := List.forall_mem_cons.mp h
    rw [distinctFrom, distinctFrom]
    simp only [Std.ExtTreeMap.contains_iff_mem, hp]
    split_ifs
    · exact distinctFrom_congr hps
    · refine congrArg (p :: ·) (distinctFrom_congr fun q hq => ?_)
      rw [PathSet.mem_add_iff, PathSet.mem_add_iff, hps q hq]

theorem distinctFrom_append : ∀ (ps qs : List Path) (s : PathSet),
    distinctFrom s (ps ++ qs) = distinctFrom s ps ++ distinctFrom (ps.foldl .add s) qs
  | [], _, _ => rfl
  | p :: ps, qs, s => by
    rw [List.cons_append, distinctFrom, distinctFrom, List.foldl_cons]
    split_ifs with hp
    · have hp : p.components ∈ s := Std.ExtTreeMap.contains_iff_mem.mp hp
      rw [distinctFrom_append]
      refine congrArg (_ ++ ·) (distinctFrom_congr fun q _ => ?_)
      rw [PathSet.mem_foldl_add_iff, PathSet.mem_foldl_add_iff, PathSet.mem_add_iff,
        or_iff_right_of_imp fun heq : p.components = q.components => heq ▸ hp]
    · rw [distinctFrom_append, List.cons_append]

/-- Paths of which none of the first is one of the second are kept apart. -/
theorem distinct_append (h : ∀ p ∈ ps, ∀ q ∈ qs, p.components ≠ q.components) :
    distinct (ps ++ qs) = distinct ps ++ distinct qs := by
  rw [distinct, distinct, distinct, distinctFrom_append]
  refine congrArg (_ ++ ·) (distinctFrom_congr fun q hq => ?_)
  rw [PathSet.mem_foldl_add_iff, or_iff_right]
  rintro ⟨p, hp, heq⟩
  exact h p hp q hq heq

/-! ## Some paths of a list -/

/-- The two searches need to have seen the same of those paths only that are chosen, since no path
that is chosen is the same as one that is left out. -/
theorem distinctFrom_filter {chosen : Path → Bool} : ∀ {ps : List Path} {s t : PathSet},
    (∀ p ∈ ps, ∀ q ∈ ps, p.components = q.components → chosen p = chosen q) →
      (∀ p ∈ ps, chosen p → (p.components ∈ s ↔ p.components ∈ t)) →
        distinctFrom s (ps.filter chosen) = (distinctFrom t ps).filter chosen
  | [], _, _, _, _ => rfl
  | p :: ps, s, t, hsame, hseen => by
    have hsame' : ∀ p ∈ ps, ∀ q ∈ ps, p.components = q.components → chosen p = chosen q :=
      fun q hq r hr => hsame q (List.mem_cons_of_mem p hq) r (List.mem_cons_of_mem p hr)
    obtain ⟨hp, hps⟩ := List.forall_mem_cons.mp hseen
    by_cases hchosen : chosen p
    · rw [List.filter_cons_of_pos hchosen, distinctFrom, distinctFrom]
      simp only [Std.ExtTreeMap.contains_iff_mem, hp hchosen]
      split_ifs
      · exact distinctFrom_filter hsame' hps
      · rw [List.filter_cons_of_pos hchosen]
        refine congrArg (p :: ·) (distinctFrom_filter hsame' fun q hq hqchosen => ?_)
        rw [PathSet.mem_add_iff, PathSet.mem_add_iff, hps q hq hqchosen]
    · rw [List.filter_cons_of_neg hchosen, distinctFrom]
      split_ifs
      · exact distinctFrom_filter hsame' hps
      · rw [List.filter_cons_of_neg hchosen]
        refine distinctFrom_filter hsame' fun q hq hqchosen => ?_
        have hne : p.components ≠ q.components := fun heq => hchosen <| by
          rw [hsame p List.mem_cons_self q (List.mem_cons_of_mem p hq) heq, hqchosen]
        rw [PathSet.mem_add_iff, hps q hq hqchosen, or_iff_right hne]

/-- Repetitions can be dropped before or after paths are chosen, if of paths that are the same
either all are chosen or none is. -/
theorem distinct_filter {chosen : Path → Bool}
    (h : ∀ p ∈ ps, ∀ q ∈ ps, p.components = q.components → chosen p = chosen q) :
    distinct (ps.filter chosen) = (distinct ps).filter chosen :=
  distinctFrom_filter h fun _ _ _ => Iff.rfl

end Analysis

end CallAtlas
