import Mathlib.Data.List.GetD
import CallAtlas.Layout
import CallAtlas.Proofs.Adjacency
import CallAtlas.Proofs.CallGraph
import CallAtlas.Proofs.Dependencies

/-!
# Ranks and relations of an outline

The names of an outline are in strict order, and a name and its rank determine each other
(`nameOf_rank`, `rank_nameOf`). A relation on ranks that says of the ranks what a relation on
names says of the names (`Represents`) has the same closure and the same numbers of steps
(`Represents.transGen_iff`, `Represents.steps_iff`). `directed` represents the calls of an
outline, and `undirected` its links, which are the calls in both directions.

The outline of a graph has the names and the calls of the graph (`mem_names_outline`,
`calls_outline`). Its center comes first among the functions of the highest degree
(`center?_eq_some_iff`).
-/

namespace CallAtlas

/-- A map that keeps a relation keeps the number of its steps. -/
theorem Steps.map {α β : Type*} {r : α → α → Prop} {s : β → β → Prop} (f : α → β)
    (h : ∀ a b, r a b → s (f a) (f b)) {k : ℕ} {a b : α} (hab : Steps r k a b) :
    Steps s k (f a) (f b) := by
  induction hab with
  | zero => exact Steps.zero _
  | succ _ hbc ih => exact Steps.succ ih (h _ _ hbc)

/-- A map that is made from distinct names finds each of them. -/
theorem getElem?_ofList_map {α β : Type*} (name : α → String) (value : α → β) {l : List α}
    (h : (l.map name).Nodup) {x : α} (hx : x ∈ l) :
    (Std.ExtTreeMap.ofList (l.map fun x => (name x, value x)))[name x]? = some (value x) := by
  refine Std.ExtTreeMap.getElem?_ofList_of_mem Std.ReflCmp.compare_self ?_
    (List.mem_map.mpr ⟨x, hx, rfl⟩)
  rw [List.pairwise_map]
  exact (List.pairwise_map.mp h).imp fun hne => mt Std.LawfulEqCmp.eq_of_compare hne

namespace Outline

variable {o : Outline} {a b : String}

/-! ## Names and ranks -/

/-- A map lists its names in strict order. -/
theorem names_ordered (o : Outline) : o.names.Pairwise (· < ·) :=
  Std.ExtTreeMap.ordered_keys.imp fun h => compare_lt_iff_lt.mp h

theorem names_nodup (o : Outline) : o.names.Nodup :=
  o.names_ordered.imp fun h => h.ne

theorem mem_names_iff : a ∈ o.names ↔ ∃ d, o.functions[a]? = some d := by
  rw [names, Std.ExtTreeMap.mem_keys, Std.ExtTreeMap.mem_iff_isSome_getElem?,
    Option.isSome_iff_exists]

theorem rank_lt (h : a ∈ o.names) : o.rank a < o.size :=
  List.idxOf_lt_length_of_mem h

/-- The name with a rank. -/
def nameOf (o : Outline) (i : ℕ) : String :=
  o.names.getD i ""

theorem nameOf_eq {i : ℕ} (h : i < o.names.length) : o.nameOf i = o.names[i] :=
  List.getD_eq_getElem _ _ h

theorem nameOf_mem {i : ℕ} (h : i < o.size) : o.nameOf i ∈ o.names := by
  rw [nameOf_eq h]
  exact List.getElem_mem h

theorem nameOf_rank (h : a ∈ o.names) : o.nameOf (o.rank a) = a := by
  rw [nameOf_eq (rank_lt h)]
  exact List.getElem_idxOf (rank_lt h)

/-- Ranks and names are inverse to each other, since no name is listed twice. -/
theorem rank_nameOf {i : ℕ} (h : i < o.size) : o.rank (o.nameOf i) = i := by
  rw [nameOf_eq h]
  exact o.names_nodup.idxOf_getElem i h

/-- A relation on ranks says what a relation on names says. -/
structure Represents (o : Outline) (r : Adjacency o.size) (R : String → String → Prop) : Prop where
  inside : ∀ a b, R a b → a ∈ o.names ∧ b ∈ o.names
  has_iff : ∀ a ∈ o.names, ∀ b ∈ o.names, r.has (o.rank a) (o.rank b) ↔ R a b

namespace Represents

variable {r : Adjacency o.size} {R : String → String → Prop}

theorem of_rank (h : o.Represents r R) {a b : String} (hab : R a b) :
    r.Related (o.rank a) (o.rank b) := by
  obtain ⟨ha, hb⟩ := h.inside a b hab
  exact (h.has_iff a ha b hb).mpr hab

theorem of_name (h : o.Represents r R) {i j : ℕ} (hij : r.Related i j) :
    R (o.nameOf i) (o.nameOf j) := by
  obtain ⟨hi, hj⟩ := Adjacency.lt_of_has hij
  apply (h.has_iff _ (nameOf_mem hi) _ (nameOf_mem hj)).mp
  rwa [rank_nameOf hi, rank_nameOf hj]

theorem transGen_iff (h : o.Represents r R) (ha : a ∈ o.names) (hb : b ∈ o.names) :
    Relation.TransGen r.Related (o.rank a) (o.rank b) ↔ Relation.TransGen R a b := by
  refine ⟨fun hab => ?_, fun hab => hab.lift o.rank fun _ _ => h.of_rank⟩
  have hnames : Relation.TransGen R (o.nameOf (o.rank a)) (o.nameOf (o.rank b)) :=
    hab.lift o.nameOf fun _ _ => h.of_name
  rwa [nameOf_rank ha, nameOf_rank hb] at hnames

theorem steps_iff (h : o.Represents r R) (ha : a ∈ o.names) (hb : b ∈ o.names) (k : ℕ) :
    Steps r.Related k (o.rank a) (o.rank b) ↔ Steps R k a b := by
  refine ⟨fun hab => ?_, fun hab => hab.map o.rank fun _ _ => h.of_rank⟩
  have hnames := hab.map o.nameOf fun _ _ => h.of_name
  rwa [nameOf_rank ha, nameOf_rank hb] at hnames

end Represents

/-! ## Calls and links -/

/-- Calls lead between functions of the outline only. -/
def Closed (o : Outline) : Prop :=
  ∀ a b, o.calls.Calls a b → a ∈ o.names ∧ b ∈ o.names

/-- One of two functions calls the other. -/
def Linked (o : Outline) (a b : String) : Prop :=
  o.calls.Calls a b ∨ o.calls.Calls b a

theorem mem_rankedCalls_iff (hc : o.Closed) :
    (o.rank a, o.rank b) ∈ o.rankedCalls ↔ o.calls.Calls a b := by
  simp only [rankedCalls, List.mem_map, Prod.exists, Prod.mk.injEq]
  constructor
  · rintro ⟨x, y, hxy, hx, hy⟩
    have hcalls := Dependencies.mem_pairs_iff.mp hxy
    obtain ⟨hxn, hyn⟩ := hc x y hcalls
    rwa [← List.idxOf_inj hxn |>.mp hx, ← List.idxOf_inj hyn |>.mp hy]
  · exact fun h => ⟨a, b, Dependencies.mem_pairs_iff.mpr h, rfl, rfl⟩

/-- The calls are represented by the ranks of their ends. -/
theorem represents_directed (hc : o.Closed) : o.Represents o.directed o.calls.Calls where
  inside := hc
  has_iff a ha b hb := by
    rw [directed, Adjacency.has_ofPairs_iff, mem_rankedCalls_iff hc]
    simp [rank_lt ha, rank_lt hb]

/-- The links are represented by the calls in both directions. -/
theorem represents_undirected (hc : o.Closed) : o.Represents o.undirected o.Linked where
  inside a b h := by
    rcases h with h | h
    · exact hc a b h
    · exact (hc b a h).symm
  has_iff a ha b hb := by
    have hswap : (o.rank a, o.rank b) ∈ o.rankedCalls.map Prod.swap ↔ o.calls.Calls b a := by
      rw [← mem_rankedCalls_iff hc]
      exact List.mem_map_of_injective Prod.swap_injective (a := (o.rank b, o.rank a))
    rw [undirected, Adjacency.has_ofPairs_iff, List.mem_append, mem_rankedCalls_iff hc, hswap]
    simp [rank_lt ha, rank_lt hb, Linked]

/-! ## The center -/

theorem firstGreatest_eq_none_iff (measure : String → ℕ) {l : List String} :
    firstGreatest measure l = none ↔ l = [] := by
  cases l with
  | nil => simp [firstGreatest]
  | cons x xs =>
    rw [firstGreatest]
    split <;> simp

/-- `c` is greater than all before it, and not less than any after it. -/
def FirstGreatest (measure : String → ℕ) (l : List String) (c : String) : Prop :=
  ∃ before after, l = before ++ c :: after ∧
    (∀ x ∈ before, measure x < measure c) ∧ ∀ x ∈ after, measure x ≤ measure c

namespace FirstGreatest

variable {measure : String → ℕ} {l : List String} {c x : String}

theorem mem (h : FirstGreatest measure l c) : c ∈ l := by
  obtain ⟨before, after, rfl, -⟩ := h
  simp

theorem le (h : FirstGreatest measure l c) (hx : x ∈ l) : measure x ≤ measure c := by
  obtain ⟨before, after, rfl, hbefore, hafter⟩ := h
  rw [List.mem_append, List.mem_cons] at hx
  rcases hx with hx | rfl | hx
  · exact (hbefore x hx).le
  · exact le_rfl
  · exact hafter x hx

theorem of_eq_some : ∀ {l : List String} {c : String},
    firstGreatest measure l = some c → FirstGreatest measure l c
  | [], _, h => by cases h
  | x :: xs, c, h => by
    rw [firstGreatest] at h
    cases hy : firstGreatest measure xs with
    | none =>
      simp only [hy, Option.some.injEq] at h
      obtain rfl := (firstGreatest_eq_none_iff measure).mp hy
      exact ⟨[], [], by rw [h]; rfl, by simp, by simp⟩
    | some y =>
      have hxs := of_eq_some hy
      simp only [hy, Option.some.injEq] at h
      split_ifs at h with hxy
      · obtain ⟨before, after, hsplit, hbefore, hafter⟩ := hxs
        subst h
        exact ⟨x :: before, after, by rw [hsplit]; rfl,
          List.forall_mem_cons.mpr ⟨hxy, hbefore⟩, hafter⟩
      · subst h
        exact ⟨[], xs, rfl, by simp, fun z hz => (hxs.le hz).trans (not_lt.mp hxy)⟩

theorem eq_some : ∀ {l : List String}, FirstGreatest measure l c → firstGreatest measure l = some c
  | _, ⟨[], after, rfl, _, hafter⟩ => by
    rw [List.nil_append, firstGreatest]
    cases hy : firstGreatest measure after with
    | none => rfl
    | some y => simp only [if_neg (not_lt.mpr (hafter y (of_eq_some hy).mem))]
  | _, ⟨x :: before, after, rfl, hbefore, hafter⟩ => by
    obtain ⟨hx, hbefore⟩ := List.forall_mem_cons.mp hbefore
    rw [List.cons_append, firstGreatest, eq_some ⟨before, after, rfl, hbefore, hafter⟩]
    simp only [if_pos hx]

end FirstGreatest

/-- The element that is found is the first that the measure is greatest at. -/
theorem firstGreatest_eq_some_iff {measure : String → ℕ} {l : List String} {c : String} :
    firstGreatest measure l = some c ↔ FirstGreatest measure l c :=
  ⟨FirstGreatest.of_eq_some, FirstGreatest.eq_some⟩

theorem firstGreatest_congr {f g : String → ℕ} : ∀ {l : List String}, (∀ x ∈ l, f x = g x) →
    firstGreatest f l = firstGreatest g l
  | [], _ => rfl
  | x :: xs, h => by
    obtain ⟨hx, hxs⟩ := List.forall_mem_cons.mp h
    rw [firstGreatest, firstGreatest, firstGreatest_congr hxs]
    cases hy : firstGreatest g xs with
    | none => rfl
    | some y =>
      simp only [hx, hxs y (firstGreatest_eq_some_iff.mp hy).mem]

/-- The degrees are stored in a map, which finds the degree of each name. -/
theorem center?_eq (o : Outline) : o.center? = firstGreatest o.degree o.names := by
  unfold center?
  refine firstGreatest_congr fun x hx => ?_
  have hnodup : (o.names.map id).Nodup := by
    rw [List.map_id]
    exact o.names_nodup
  have hget := getElem?_ofList_map id o.degree hnodup hx
  rw [Std.ExtTreeMap.getD_eq_getD_getElem?]
  exact congrArg (Option.getD · 0) hget

/-- The center has the highest degree, and of several such functions the first name. -/
theorem center?_eq_some_iff {c : String} :
    o.center? = some c ↔ FirstGreatest o.degree o.names c := by
  rw [center?_eq, firstGreatest_eq_some_iff]

theorem center?_eq_none_iff : o.center? = none ↔ o.names = [] := by
  rw [center?_eq, firstGreatest_eq_none_iff]

end Outline

/-! ## The outline of a graph -/

namespace CallGraph

variable {g : CallGraph} {x y : String}

/-- The outline has the names of the nodes, in strict order. -/
theorem mem_names_outline : x ∈ g.outline.names ↔ x ∈ g.names := by
  rw [Outline.names, Std.ExtTreeMap.mem_keys, outline, Std.ExtTreeMap.mem_ofList, List.map_map,
    List.contains_iff_mem]
  rfl

/-- The outline says of each name what its node says. -/
theorem functions_outline_iff {isDefined : Bool} :
    g.outline.functions[x]? = some isDefined ↔ ⟨x, isDefined⟩ ∈ g.nodes := by
  have hget : ∀ node ∈ g.nodes, g.outline.functions[node.name]? = some node.isDefined :=
    fun node hnode => getElem?_ofList_map CallNode.name CallNode.isDefined g.nodup_names hnode
  constructor
  · intro hx
    have hname := mem_names_outline.mp (Outline.mem_names_iff.mpr ⟨isDefined, hx⟩)
    obtain ⟨node, hnode, rfl⟩ := List.mem_map.mp hname
    rw [hget node hnode, Option.some.injEq] at hx
    rwa [← hx]
  · exact hget ⟨x, isDefined⟩

theorem mem_ends_iff : (x, y) ∈ g.edges.filterMap g.ends? ↔ g.Calls x y := by
  simp [ends?, Calls, List.mem_filterMap, Option.bind_eq_some_iff]

/-- The outline has the calls of the graph. -/
theorem calls_outline : g.outline.calls.Calls x y ↔ g.Calls x y := by
  rw [outline, Dependencies.calls_foldl_addCall, mem_ends_iff]
  simp [Dependencies.Calls]

/-- The ends of the edges are nodes, so the calls stay inside. -/
theorem closed_outline (g : CallGraph) : g.outline.Closed := by
  intro a b h
  rw [mem_names_outline, mem_names_outline]
  exact mem_names_of_calls (calls_outline.mp h)

end CallGraph

end CallAtlas
