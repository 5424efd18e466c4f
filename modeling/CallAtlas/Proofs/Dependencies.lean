import Mathlib.Data.List.Sort
import Mathlib.Data.Prod.Lex
import Mathlib.Data.String.Basic
import Mathlib.Order.Compare
import CallAtlas.Dependencies

/-!
# Calls of a map of dependencies

`Calls` reads a map of dependencies as a relation on names. The pairs of a map are its calls
(`mem_pairs_iff`) in strict order (`pairs_ordered`), so a list in strict order that holds the
same calls is the list of pairs (`pairs_eq_of_mem_iff`). A map in which every caller calls
something is determined by its calls (`eq_of_calls_iff`).
-/

namespace CallAtlas

namespace NameSet

variable {hs ks : List String} {n : String}

theorem mem_ofList_iff : n ∈ (.ofList hs : NameSet) ↔ n ∈ hs := by
  rw [Std.ExtTreeSet.mem_ofList, List.contains_iff_mem]

theorem ofList_eq_of_mem_iff (h : ∀ x, x ∈ hs ↔ x ∈ ks) :
    (.ofList hs : NameSet) = .ofList ks := by
  refine Std.ExtTreeSet.ext_mem fun x => ?_
  rw [mem_ofList_iff, mem_ofList_iff, h x]

end NameSet

namespace Dependencies

variable {m m' : Dependencies} {a b x y : String}

/-- Maps with the same callees of each caller are equal. -/
theorem ext_get? (h : ∀ caller, m.get? caller = m'.get? caller) : m = m' := by
  have hcallees : m.callees = m'.callees := Std.ExtTreeMap.ext_getElem? fun {caller} => h caller
  cases m
  cases m'
  rw [Dependencies.mk.injEq]
  exact hcallees

theorem mem_entries_iff {list : List String} :
    (x, list) ∈ m.entries ↔ ∃ names, m.get? x = some names ∧ names.toList = list := by
  simp [entries, get?, Std.ExtTreeMap.mem_toList_iff_getElem?_eq_some]

/-- The first function calls the second. -/
def Calls (m : Dependencies) (caller callee : String) : Prop :=
  ∃ names, m.callees[caller]? = some names ∧ callee ∈ names

/-- The order of pairs by their first and then by their second names. -/
abbrev Before : String × String → String × String → Prop :=
  Prod.Lex (· < ·) (· < ·)

theorem mem_pairs_iff : (x, y) ∈ m.pairs ↔ m.Calls x y := by
  simp only [pairs, entries, List.mem_flatMap, List.mem_map, Prod.exists, Prod.mk.injEq,
    Std.ExtTreeMap.mem_toList_iff_getElem?_eq_some, Calls]
  constructor
  · rintro ⟨_, _, ⟨caller, names, hget, rfl, rfl⟩, callee, hmem, rfl, rfl⟩
    exact ⟨names, hget, Std.ExtTreeSet.mem_toList.mp hmem⟩
  · rintro ⟨names, hget, hmem⟩
    exact ⟨x, _, ⟨x, names, hget, rfl, rfl⟩, y, Std.ExtTreeSet.mem_toList.mpr hmem, rfl, rfl⟩

theorem toList_ordered (s : NameSet) : s.toList.Pairwise (· < ·) :=
  Std.ExtTreeSet.ordered_toList.imp fun h => compare_lt_iff_lt.mp h

/-- The pairs are in strict order. -/
theorem pairs_ordered (m : Dependencies) : m.pairs.Pairwise Before := by
  have hkeys : m.callees.toList.Pairwise fun p q => p.1 < q.1 :=
    Std.ExtTreeMap.ordered_keys_toList.imp fun h => compare_lt_iff_lt.mp h
  rw [pairs, entries, List.flatMap_map, List.pairwise_flatMap]
  refine ⟨fun p _ => ?_, hkeys.imp fun {p q} hpq => ?_⟩
  · exact List.pairwise_map.mpr ((toList_ordered p.2).imp fun h => Prod.Lex.right _ h)
  · intro c hc d hd
    obtain ⟨_, -, rfl⟩ := List.mem_map.mp hc
    obtain ⟨_, -, rfl⟩ := List.mem_map.mp hd
    exact Prod.Lex.left _ _ hpq

theorem pairs_nodup (m : Dependencies) : m.pairs.Nodup :=
  m.pairs_ordered.nodup

/-- A list of calls in strict order that holds exactly the calls of a map lists its pairs. -/
theorem pairs_eq_of_mem_iff {l : List (String × String)} (hl : l.Pairwise Before)
    (h : ∀ x y, (x, y) ∈ l ↔ m.Calls x y) : m.pairs = l :=
  m.pairs_ordered.eq_of_mem_iff hl fun (x, y) => mem_pairs_iff.trans (h x y).symm

theorem calls_addCall : (m.addCall a b).Calls x y ↔ x = a ∧ y = b ∨ m.Calls x y := by
  unfold Calls addCall
  simp only [Std.ExtTreeMap.getElem?_insert, Std.compare_eq_iff_eq]
  by_cases hx : a = x
  · subst hx
    simp only [if_true, Option.some.injEq, exists_eq_left', Std.ExtTreeSet.mem_insert,
      Std.compare_eq_iff_eq, true_and, Std.ExtTreeMap.getD_eq_getD_getElem?]
    cases m.callees[a]? with
    | none => simp [eq_comm]
    | some names => simp [eq_comm]
  · simp [hx, Ne.symm hx]

/-- Adding calls one by one adds those calls and no others. -/
theorem calls_foldl_addCall : ∀ (calls : List (String × String)) (m : Dependencies),
    (calls.foldl (fun m (caller, callee) => m.addCall caller callee) m).Calls x y ↔
      (x, y) ∈ calls ∨ m.Calls x y
  | [], m => by simp
  | (a, b) :: calls, m => by
    rw [List.foldl_cons, calls_foldl_addCall calls, calls_addCall, List.mem_cons, Prod.mk.injEq]
    tauto

/-! ## Maps that are determined by their calls -/

/-- No caller has an empty set of callees. -/
def EveryCallerCalls (m : Dependencies) : Prop :=
  ∀ (caller : String) (names : NameSet), m.callees[caller]? = some names → ∃ callee, callee ∈ names

theorem EveryCallerCalls.addCall (h : m.EveryCallerCalls) (a b : String) :
    (m.addCall a b).EveryCallerCalls := by
  intro caller names hget
  rw [Dependencies.addCall, Std.ExtTreeMap.getElem?_insert] at hget
  split_ifs at hget
  · refine ⟨b, ?_⟩
    rw [← Option.some.inj hget]
    exact Std.ExtTreeSet.mem_insert_self
  · exact h caller names hget

theorem EveryCallerCalls.foldl_addCall : ∀ (calls : List (String × String)) {m : Dependencies},
    m.EveryCallerCalls →
      (calls.foldl (fun m (caller, callee) => m.addCall caller callee) m).EveryCallerCalls
  | [], _, h => h
  | (a, b) :: calls, _, h => foldl_addCall calls (h.addCall a b)

theorem getElem?_of_calls_iff (h : m.EveryCallerCalls) (hcalls : ∀ x y, m.Calls x y ↔ m'.Calls x y)
    {caller : String} {names : NameSet} (hget : m.callees[caller]? = some names) :
    m'.callees[caller]? = some names := by
  obtain ⟨callee, hmem⟩ := h caller names hget
  obtain ⟨names', hget', -⟩ := (hcalls caller callee).mp ⟨names, hget, hmem⟩
  have hnames : names = names' := by
    refine Std.ExtTreeSet.ext_mem fun y => ?_
    simpa [Calls, hget, hget'] using hcalls caller y
  rw [hget', hnames]

/-- Maps with the same calls are equal, if every caller in them calls something. -/
theorem eq_of_calls_iff (h : m.EveryCallerCalls) (h' : m'.EveryCallerCalls)
    (hcalls : ∀ x y, m.Calls x y ↔ m'.Calls x y) : m = m' := by
  refine ext_get? fun caller => Option.ext fun names => ?_
  exact ⟨getElem?_of_calls_iff h hcalls,
    getElem?_of_calls_iff h' fun x y => (hcalls x y).symm⟩

end Dependencies

end CallAtlas
