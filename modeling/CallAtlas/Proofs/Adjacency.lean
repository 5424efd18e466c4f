import Mathlib.Data.List.FinRange
import Mathlib.Logic.Relation
import Mathlib.Order.Bounds.Basic
import CallAtlas.Adjacency

/-!
# Closures and distances of a relation on numbered points

`has_closure_iff` : the closure of a relation relates two points exactly if one or more steps
lead from the first to the second. Taking the pairs through one more point keeps the closure
below the transitive closure and makes it transitive at that point (`Closing.through`), so it
is transitive at every point once all of them are taken.

`distances_eq_some_iff` : a search gives a point the number `k` exactly if `k` is the least
number of steps that lead to it. The search keeps its queue in the order of the steps, and no
point that is found lies more than one step behind the front of the queue
(`Search.Consistent`). Expanding the front of the queue keeps that
(`Search.Expands.consistent`), so it holds when the queue is empty, and then every step from
a point that is found leads to a point that is found at most one step further away.
-/

namespace CallAtlas

/-- `k` steps of a relation lead from one point to another. -/
inductive Steps {α : Type*} (r : α → α → Prop) : ℕ → α → α → Prop
  | zero (a : α) : Steps r 0 a a
  | succ {k : ℕ} {a b c : α} : Steps r k a b → r b c → Steps r (k + 1) a c

namespace Adjacency

variable {n : ℕ}

/-! ## Pairs -/

/-- The relation as a proposition. -/
abbrev Related (r : Adjacency n) (i j : ℕ) : Prop :=
  r.has i j = true

theorem has_eq_getLsbD (r : Adjacency n) {i : ℕ} (hi : i < n) (j : ℕ) :
    r.has i j = r[i].getLsbD j := by
  rw [has, dif_pos hi]

/-- A relation holds of numbers below `n` only. -/
theorem lt_of_has {r : Adjacency n} {i j : ℕ} (h : r.has i j) : i < n ∧ j < n := by
  by_cases hi : i < n
  · rw [has_eq_getLsbD r hi] at h
    exact ⟨hi, BitVec.lt_of_getLsbD h⟩
  · simp [has, hi] at h

/-- A row that a list of pairs is folded into holds the bits it held, and those of the pairs. -/
theorem getLsbD_foldl_pairs (i j : ℕ) :
    ∀ (pairs : List (ℕ × ℕ)) (row : BitVec n),
      (pairs.foldl (fun row (a, b) => if a = i then row ||| BitVec.twoPow n b else row)
        row).getLsbD j ↔ row.getLsbD j ∨ j < n ∧ (i, j) ∈ pairs
  | [], row => by simp
  | (a, b) :: pairs, row => by
    rw [List.foldl_cons, getLsbD_foldl_pairs i j pairs]
    by_cases ha : a = i
    · simp only [ha, if_true, BitVec.getLsbD_or, BitVec.getLsbD_twoPow, Bool.or_eq_true,
        Bool.and_eq_true, decide_eq_true_eq, List.mem_cons, Prod.mk.injEq, true_and]
      grind
    · simp only [ha, if_false, List.mem_cons, Prod.mk.injEq]
      grind

theorem has_ofPairs_iff (pairs : List (ℕ × ℕ)) (i j : ℕ) :
    (ofPairs n pairs).has i j ↔ i < n ∧ j < n ∧ (i, j) ∈ pairs := by
  by_cases hi : i < n
  · rw [has_eq_getLsbD _ hi, ofPairs, Vector.getElem_ofFn, getLsbD_foldl_pairs]
    simp [hi]
  · simp [has, hi]

/-! ## The closure -/

theorem has_through (r : Adjacency n) (k : Fin n) (i j : ℕ) :
    (r.through k).has i j = (r.has i j || (r.has i k && r.has k j)) := by
  by_cases hi : i < n
  · simp only [has_eq_getLsbD _ hi, has_eq_getLsbD _ k.isLt, through, Vector.getElem_map]
    cases hk : r[i].getLsbD k with
    | true => rw [if_pos rfl, BitVec.getLsbD_or, Bool.true_and, Fin.getElem_fin]
    | false => rw [if_neg Bool.false_ne_true, Bool.false_and, Bool.or_false]
  · simp [has, hi]

/-- `t` lies between `r` and its transitive closure, and is transitive at the points `ks`. -/
structure Closing (r t : Adjacency n) (ks : List (Fin n)) : Prop where
  base : ∀ i j, r.has i j → t.has i j
  sound : ∀ i j, t.has i j → Relation.TransGen r.Related i j
  trans : ∀ k ∈ ks, ∀ i j, t.has i k → t.has k j → t.has i j

namespace Closing

variable {r t : Adjacency n} {ks : List (Fin n)}

/-- Taking the pairs through `k` makes the relation transitive at `k` too. At the points before, a
detour through `k` on either side is one on the whole. -/
theorem through (h : Closing r t ks) (k : Fin n) : Closing r (t.through k) (ks ++ [k]) where
  base i j hij := by
    rw [has_through, h.base i j hij, Bool.true_or]
  sound i j hij := by
    rw [has_through, Bool.or_eq_true, Bool.and_eq_true] at hij
    rcases hij with hij | ⟨hik, hkj⟩
    · exact h.sound i j hij
    · exact (h.sound i k hik).trans (h.sound k j hkj)
  trans m hm i j him hmj := by
    simp only [has_through, Bool.or_eq_true, Bool.and_eq_true] at him hmj ⊢
    rcases List.mem_append.mp hm with hm | hm
    · rcases him with him | ⟨hik, hkm⟩
      · rcases hmj with hmj | ⟨hmk, hkj⟩
        · exact Or.inl (h.trans m hm i j him hmj)
        · exact Or.inr ⟨h.trans m hm i k him hmk, hkj⟩
      · rcases hmj with hmj | ⟨hmk, hkj⟩
        · exact Or.inr ⟨hik, h.trans m hm k j hkm hmj⟩
        · exact Or.inr ⟨hik, hkj⟩
    · obtain rfl := List.mem_singleton.mp hm
      exact Or.inr ⟨him.elim id And.left, hmj.elim id And.right⟩

theorem foldl_through : ∀ (todo : List (Fin n)) {t : Adjacency n} {done : List (Fin n)},
    Closing r t done → Closing r (todo.foldl Adjacency.through t) (done ++ todo)
  | [], t, done, h => by rwa [List.append_nil]
  | k :: todo, t, done, h => by
    have := foldl_through todo (h.through k)
    rwa [List.append_assoc, List.singleton_append] at this

end Closing

theorem closing_closure (r : Adjacency n) : Closing r r.closure (List.finRange n) := by
  have h : Closing r r [] :=
    ⟨fun _ _ h => h, fun _ _ h => Relation.TransGen.single h, fun _ hk => absurd hk (by simp)⟩
  exact h.foldl_through (List.finRange n)

/-- The closure relates the points that one or more steps lead between. -/
theorem has_closure_iff (r : Adjacency n) (i j : ℕ) :
    r.closure.has i j ↔ Relation.TransGen r.Related i j := by
  have hc := closing_closure r
  refine ⟨hc.sound i j, fun h => ?_⟩
  induction h with
  | single hij => exact hc.base _ _ hij
  | tail _ hjk ih =>
    exact hc.trans ⟨_, (lt_of_has hjk).1⟩ (List.mem_finRange _) _ _ ih (hc.base _ _ hjk)

/-! ## Distances -/

theorem mem_successors {r : Adjacency n} {i j : Fin n} : j ∈ r.successors i ↔ r.has i j := by
  simp [successors]

namespace Search

variable {r : Adjacency n} {s : Search n} {i : Fin n}

@[simp] theorem stepsTo?_queue (s : Search n) (queue : List (Fin n)) (j : Fin n) :
    ({ s with queue } : Search n).stepsTo? j = s.stepsTo? j :=
  rfl

theorem stepsTo?_set (steps : Vector (Option ℕ) n) (queue queue' : List (Fin n)) (a j : Fin n)
    (k : Option ℕ) : (Search.mk (steps.set a k a.isLt) queue).stepsTo? j =
      if j = a then k else (Search.mk steps queue').stepsTo? j := by
  simp only [stepsTo?, Fin.getElem_fin, Vector.getElem_set, Fin.ext_iff, eq_comm]

/-- Visiting points finds those that were not found, and puts them behind the queue. A point that
was found before changes nothing. -/
theorem foldl_visit (count : ℕ) : ∀ (js : List (Fin n)) (s : Search n),
    (∀ j : Fin n, (js.foldl (fun t j => t.visit count j) s).stepsTo? j =
      if s.stepsTo? j = none ∧ j ∈ js then some count else s.stepsTo? j) ∧
    ∃ found, (js.foldl (fun t j => t.visit count j) s).queue = s.queue ++ found ∧
      ∀ j, j ∈ found ↔ s.stepsTo? j = none ∧ j ∈ js
  | [], s => ⟨fun j => by simp, [], by simp, fun j => by simp⟩
  | a :: js, s => by
    obtain ⟨hsteps, found, hqueue, hfound⟩ := foldl_visit count js (s.visit count a)
    rw [List.foldl_cons]
    cases ha : s.stepsTo? a with
    | some k =>
      have hvisit : s.visit count a = s := by rw [visit, if_pos (by rw [ha]; rfl)]
      rw [hvisit] at hsteps hqueue hfound ⊢
      have hmem : ∀ j, s.stepsTo? j = none ∧ j ∈ js ↔ s.stepsTo? j = none ∧ j ∈ a :: js := by
        intro j
        have : s.stepsTo? j = none → j ≠ a := by
          rintro h rfl
          rw [ha] at h
          cases h
        grind
      refine ⟨fun j => ?_, found, hqueue, fun j => (hfound j).trans (hmem j)⟩
      rw [hsteps j, if_congr (hmem j) rfl rfl]
    | none =>
      have hvisit : s.visit count a = ⟨s.steps.set a (some count), s.queue ++ [a]⟩ := by
        rw [visit, if_neg (by rw [ha]; exact Bool.false_ne_true)]
      have hset : ∀ j : Fin n, (s.visit count a).stepsTo? j =
          if j = a then some count else s.stepsTo? j := by
        intro j
        rw [hvisit]
        exact stepsTo?_set s.steps _ s.queue a j _
      refine ⟨fun j => ?_, a :: found, by rw [hqueue, hvisit]; simp, fun j => ?_⟩
      · rw [hsteps j, hset j]
        by_cases hj : j = a
        · subst hj
          simp [ha]
        · simp [hj]
      · rw [List.mem_cons, hfound j, hset j]
        by_cases hj : j = a
        · subst hj
          simp [ha]
        · simp [hj]

/-- What holds of a search from `first` between two expansions. -/
structure Consistent (r : Adjacency n) (first : Fin n) (s : Search n) : Prop where
  /-- The starting point is found after no steps. -/
  origin : s.stepsTo? first = some 0
  /-- The steps that are counted can be taken. -/
  sound : ∀ (i : Fin n) k, s.stepsTo? i = some k → Steps r.Related k first i
  /-- The points in the queue are found. -/
  found : ∀ i ∈ s.queue, (s.stepsTo? i).isSome
  /-- The queue is in the order of the steps. -/
  ordered : s.queue.Pairwise fun i j => ∀ k l, s.stepsTo? i = some k → s.stepsTo? j = some l → k ≤ l
  /-- No point is found more than one step behind a point of the queue. -/
  close : ∀ i ∈ s.queue, ∀ (j : Fin n) k l,
    s.stepsTo? i = some k → s.stepsTo? j = some l → l ≤ k + 1
  /-- The successors of an expanded point are found, at most one step further away. -/
  expanded : ∀ (i : Fin n) k, s.stepsTo? i = some k → i ∉ s.queue →
    ∀ j : Fin n, r.has i j → ∃ l, s.stepsTo? j = some l ∧ l ≤ k + 1

theorem Consistent.start (first : Fin n) : Consistent r first (Search.start first) := by
  have hsteps : ∀ j : Fin n,
      (Search.start first).stepsTo? j = if j = first then some 0 else none := by
    intro j
    rw [Search.start, stepsTo?_set _ _ []]
    simp [stepsTo?]
  have heq : ∀ (j : Fin n) k, (Search.start first).stepsTo? j = some k → j = first ∧ k = 0 := by
    intro j k hj
    rw [hsteps] at hj
    split_ifs at hj with h
    exact ⟨h, (Option.some.inj hj).symm⟩
  have hqueue : (Search.start first).queue = [first] := rfl
  refine ⟨by simp [hsteps], ?_, ?_, ?_, ?_, ?_⟩
  · intro j k hj
    obtain ⟨rfl, rfl⟩ := heq j k hj
    exact Steps.zero _
  · simp [hqueue, hsteps]
  · simp [hqueue]
  · intro i _ j k l _ hj
    rw [(heq j l hj).2]
    exact Nat.zero_le _
  · intro j k hj hmem
    simp [hqueue, (heq j k hj).1] at hmem

/-- `t` is `s` after the expansion of the first point `i` of its queue, which was found after `d`
steps. The rest of the queue stays, and the points `new` are put behind it. -/
structure Expands (r : Adjacency n) (i : Fin n) (d : ℕ) (rest new : List (Fin n))
    (s t : Search n) : Prop where
  before : s.queue = i :: rest
  after : t.queue = rest ++ new
  here : s.stepsTo? i = some d
  mem_new : ∀ j, j ∈ new ↔ s.stepsTo? j = none ∧ r.has i j
  stepsTo? : ∀ j : Fin n, t.stepsTo? j = if j ∈ new then some (d + 1) else s.stepsTo? j

theorem Consistent.exists_expands {first : Fin n} {rest : List (Fin n)}
    (h : Consistent r first s) (hq : s.queue = i :: rest) :
    ∃ d new, Expands r i d rest new s (Search.expand r { s with queue := rest } i) := by
  obtain ⟨d, hd⟩ := Option.isSome_iff_exists.mp (h.found i (by simp [hq]))
  obtain ⟨hsteps, new, hqueue, hnew⟩ :=
    foldl_visit (d + 1) (r.successors i) { s with queue := rest }
  have hexpand : Search.expand r { s with queue := rest } i =
      (r.successors i).foldl (fun t j => t.visit (d + 1) j) { s with queue := rest } := by
    simp only [Search.expand, stepsTo?_queue, hd, Option.getD_some]
  refine ⟨d, new, hq, by rw [hexpand, hqueue], hd, fun j => ?_, fun j => ?_⟩
  · rw [hnew j, stepsTo?_queue, mem_successors]
  · rw [hexpand, hsteps j, if_congr (hnew j).symm rfl rfl, stepsTo?_queue]

namespace Expands

variable {first : Fin n} {d : ℕ} {rest new : List (Fin n)} {t : Search n}

theorem stepsTo?_of_mem_new (h : Expands r i d rest new s t) {j : Fin n} (hj : j ∈ new) :
    t.stepsTo? j = some (d + 1) := by
  rw [h.stepsTo?, if_pos hj]

/-- What was found stays as it was. -/
theorem stepsTo?_of_eq_some (h : Expands r i d rest new s t) {j : Fin n} {k : ℕ}
    (hj : s.stepsTo? j = some k) : t.stepsTo? j = some k := by
  have hnew : j ∉ new := by
    rw [h.mem_new, hj]
    simp
  rw [h.stepsTo?, if_neg hnew, hj]

theorem eq_some_cases (h : Expands r i d rest new s t) {j : Fin n} {k : ℕ}
    (hj : t.stepsTo? j = some k) : j ∈ new ∧ k = d + 1 ∨ s.stepsTo? j = some k := by
  rw [h.stepsTo?] at hj
  split_ifs at hj with hnew
  · exact Or.inl ⟨hnew, (Option.some.inj hj).symm⟩
  · exact Or.inr hj

theorem le_succ (h : Expands r i d rest new s t) (hs : Consistent r first s) {j : Fin n} {k : ℕ}
    (hj : t.stepsTo? j = some k) : k ≤ d + 1 := by
  rcases h.eq_some_cases hj with ⟨-, rfl⟩ | hj
  · exact le_rfl
  · exact hs.close i (by simp [h.before]) j d k h.here hj

/-- The points that stay in the queue are not nearer than the one that is expanded. -/
theorem exists_le_of_mem_rest (h : Expands r i d rest new s t) (hs : Consistent r first s)
    {j : Fin n} (hj : j ∈ rest) : ∃ k, s.stepsTo? j = some k ∧ d ≤ k := by
  obtain ⟨k, hk⟩ := Option.isSome_iff_exists.mp (hs.found j (by simp [h.before, hj]))
  have hordered := hs.ordered
  rw [h.before, List.pairwise_cons] at hordered
  exact ⟨k, hk, hordered.1 j hj d k h.here hk⟩

theorem exists_le_of_mem_queue (h : Expands r i d rest new s t) (hs : Consistent r first s)
    {j : Fin n} (hj : j ∈ t.queue) : ∃ k, t.stepsTo? j = some k ∧ d ≤ k := by
  rw [h.after, List.mem_append] at hj
  rcases hj with hj | hj
  · obtain ⟨k, hk, hdk⟩ := h.exists_le_of_mem_rest hs hj
    exact ⟨k, h.stepsTo?_of_eq_some hk, hdk⟩
  · exact ⟨d + 1, h.stepsTo?_of_mem_new hj, Nat.le_succ d⟩

theorem ordered (h : Expands r i d rest new s t) (hs : Consistent r first s) :
    t.queue.Pairwise fun a b => ∀ k l, t.stepsTo? a = some k → t.stepsTo? b = some l → k ≤ l := by
  rw [h.after, List.pairwise_append]
  refine ⟨?_, ?_, ?_⟩
  · have hordered := hs.ordered
    rw [h.before, List.pairwise_cons] at hordered
    refine hordered.2.imp_of_mem fun {a b} ha hb hab k l hk hl => ?_
    obtain ⟨k', hk', -⟩ := h.exists_le_of_mem_rest hs ha
    obtain ⟨l', hl', -⟩ := h.exists_le_of_mem_rest hs hb
    rw [h.stepsTo?_of_eq_some hk'] at hk
    rw [h.stepsTo?_of_eq_some hl'] at hl
    exact hab k l (hk'.trans hk) (hl'.trans hl)
  · refine List.pairwise_of_forall_mem_list fun a ha b hb k l hk hl => ?_
    rw [h.stepsTo?_of_mem_new ha] at hk
    rw [h.stepsTo?_of_mem_new hb] at hl
    exact (Option.some.inj (hk.symm.trans hl)).le
  · intro a _ b hb k l hk hl
    rw [h.stepsTo?_of_mem_new hb] at hl
    rw [← Option.some.inj hl]
    exact h.le_succ hs hk

/-- The point that was expanded joins those whose successors are found. -/
theorem expanded (h : Expands r i d rest new s t) (hs : Consistent r first s) {a : Fin n} {k : ℕ}
    (ha : t.stepsTo? a = some k) (hmem : a ∉ t.queue) {j : Fin n} (haj : r.has a j) :
    ∃ l, t.stepsTo? j = some l ∧ l ≤ k + 1 := by
  rw [h.after, List.mem_append, not_or] at hmem
  rcases h.eq_some_cases ha with ⟨hnew, -⟩ | ha
  · exact absurd hnew hmem.2
  by_cases hai : a = i
  · subst hai
    obtain rfl : d = k := Option.some.inj (h.here.symm.trans ha)
    cases hj : s.stepsTo? j with
    | some l => exact ⟨l, h.stepsTo?_of_eq_some hj, h.le_succ hs (h.stepsTo?_of_eq_some hj)⟩
    | none => exact ⟨d + 1, h.stepsTo?_of_mem_new ((h.mem_new j).mpr ⟨hj, haj⟩), le_rfl⟩
  · have hqueue : a ∉ s.queue := by simp [h.before, hai, hmem.1]
    obtain ⟨l, hl, hlk⟩ := hs.expanded a k ha hqueue j haj
    exact ⟨l, h.stepsTo?_of_eq_some hl, hlk⟩

theorem consistent (h : Expands r i d rest new s t) (hs : Consistent r first s) :
    Consistent r first t where
  origin := h.stepsTo?_of_eq_some hs.origin
  sound j k hj := by
    rcases h.eq_some_cases hj with ⟨hnew, rfl⟩ | hj
    · exact Steps.succ (hs.sound i d h.here) ((h.mem_new j).mp hnew).2
    · exact hs.sound j k hj
  found j hj := by
    obtain ⟨k, hk, -⟩ := h.exists_le_of_mem_queue hs hj
    rw [hk]
    rfl
  ordered := h.ordered hs
  close a ha j k l hk hl := by
    obtain ⟨k', hk', hdk⟩ := h.exists_le_of_mem_queue hs ha
    obtain rfl : k' = k := Option.some.inj (hk'.symm.trans hk)
    exact (h.le_succ hs hl).trans (Nat.succ_le_succ hdk)
  expanded a k ha hmem j haj := h.expanded hs ha hmem haj

end Expands

namespace Consistent

variable {first : Fin n}

/-- A search stays consistent until its queue is empty. -/
theorem run (h : Consistent r first s) :
    Consistent r first (s.run r) ∧ (s.run r).queue = [] := by
  fun_induction Search.run r s with
  | case1 s hq => exact ⟨h, hq⟩
  | case2 s i rest hq ih =>
    obtain ⟨d, new, hexpands⟩ := h.exists_expands hq
    exact ih (hexpands.consistent h)

/-- When the queue is empty, steps lead only to points that are found, and found in time. -/
theorem le_of_steps (h : Consistent r first s) (hq : s.queue = []) {k i j : ℕ}
    (hi : i = first) (hj : Steps r.Related k i j) :
    ∃ hn : j < n, ∃ l, s.stepsTo? ⟨j, hn⟩ = some l ∧ l ≤ k := by
  induction hj with
  | zero =>
    subst hi
    exact ⟨first.isLt, 0, h.origin, le_rfl⟩
  | succ _ hbc ih =>
    obtain ⟨hb, l, hl, hlk⟩ := ih hi
    obtain ⟨m, hm, hml⟩ := h.expanded ⟨_, hb⟩ l hl (by simp [hq]) ⟨_, (lt_of_has hbc).2⟩ hbc
    exact ⟨(lt_of_has hbc).2, m, hm, hml.trans (Nat.succ_le_succ hlk)⟩

end Consistent

end Search

/-- The search has no point left to expand. -/
theorem search_queue (r : Adjacency n) (start : ℕ) : (r.search start).queue = [] := by
  unfold search
  split_ifs with h
  · exact (Search.Consistent.start _).run.2
  · rfl

/-- The distances are the least numbers of steps. -/
theorem distances_eq_some_iff (r : Adjacency n) {start i : ℕ} (hs : start < n) (hi : i < n)
    (k : ℕ) :
    (r.distances start)[i] = some k ↔ IsLeast {k | Steps r.Related k start i} k := by
  have hsearch : r.search start = (Search.start ⟨start, hs⟩).run r := dif_pos hs
  obtain ⟨h, hq⟩ := (Search.Consistent.start (r := r) ⟨start, hs⟩).run
  unfold distances
  rw [← hsearch] at h hq
  constructor
  · intro hk
    refine ⟨h.sound ⟨i, hi⟩ k hk, fun l hl => ?_⟩
    obtain ⟨_, m, hm, hml⟩ := h.le_of_steps hq rfl hl
    rwa [Option.some.inj (hk.symm.trans hm)]
  · rintro ⟨hk, hleast⟩
    obtain ⟨_, m, hm, hmk⟩ := h.le_of_steps hq rfl hk
    have hkm : k ≤ m := hleast (h.sound ⟨i, hi⟩ m hm)
    exact le_antisymm hmk hkm ▸ hm

end Adjacency

end CallAtlas
