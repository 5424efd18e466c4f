import Mathlib.Data.List.Induction
import CallAtlas.Proofs.Dependencies

/-!
# Maps of dependencies as canonical forms

A list of callers with their callees may name a caller several times and repeat its callees. The
map that is made of it keeps, for each caller, the set of the callees in its last entry
(`get?_ofCalls`). Its entries list these sets in strict order (`mem_entries_ofCalls_iff`), each
caller once (`nodup_entries`), so the map is made again of its own entries in any order
(`ofCalls_eq_of_perm`). `ofCalls_eq_iff_and_entries` says which lists are made into the same map.
-/

namespace CallAtlas

namespace Dependencies

variable {calls calls' entries : List (String × List String)} {caller : String}
  {names list : List String} {m : Dependencies}

/-- The callees in the last entry of a caller. -/
def lastCallees? (calls : List (String × List String)) (caller : String) : Option (List String) :=
  calls.reverse.lookup caller

theorem lastCallees?_concat (calls : List (String × List String)) (c : String) (ns : List String)
    (caller : String) :
    lastCallees? (calls ++ [(c, ns)]) caller = if c = caller then some ns else
      lastCallees? calls caller := by
  rw [lastCallees?, List.reverse_append, List.reverse_singleton, List.singleton_append,
    List.lookup_cons]
  split_ifs with hc
  · rw [beq_iff_eq.mpr hc.symm]
  · rw [beq_false_of_ne (Ne.symm hc)]
    rfl

theorem exists_lastCallees?_iff :
    (∃ names, lastCallees? calls caller = some names) ↔ caller ∈ calls.map Prod.fst := by
  rw [← Option.isSome_iff_exists, lastCallees?, List.lookup_isSome_iff, List.mem_map]
  simp only [List.mem_reverse, beq_iff_eq, eq_comm (a := caller)]

/-- Where no caller has two entries, each entry is the last of its caller. -/
theorem lastCallees?_eq_some_iff (h : (calls.map Prod.fst).Nodup) :
    lastCallees? calls caller = some names ↔ (caller, names) ∈ calls := by
  have hmem : ∀ {ns}, lastCallees? calls caller = some ns → (caller, ns) ∈ calls := by
    intro ns hlast
    obtain ⟨behind, before, heq, -⟩ := List.lookup_eq_some_iff.mp hlast
    rw [← List.mem_reverse, heq]
    simp
  refine ⟨hmem, fun hcaller => ?_⟩
  obtain ⟨ns, hlast⟩ := exists_lastCallees?_iff.mpr (List.mem_map_of_mem hcaller)
  have heq := List.inj_on_of_nodup_map h (hmem hlast) hcaller rfl
  rw [hlast, (Prod.mk.inj heq).2]

/-! ## The map of a list -/

theorem get?_ofCalls_concat (calls : List (String × List String)) (c : String) (ns : List String)
    (caller : String) :
    (ofCalls (calls ++ [(c, ns)])).get? caller = if c = caller then some (.ofList ns) else
      (ofCalls calls).get? caller := by
  simp only [get?, ofCalls, List.foldl_concat, Std.ExtTreeMap.getElem?_insert,
    Std.compare_eq_iff_eq]

/-- Of each caller, the last entry counts. -/
theorem get?_ofCalls (calls : List (String × List String)) (caller : String) :
    (ofCalls calls).get? caller = (lastCallees? calls caller).map (.ofList ·) := by
  induction calls using List.reverseRecOn with
  | nil => simp [get?, ofCalls, lastCallees?]
  | append_singleton calls entry ih =>
    rw [get?_ofCalls_concat, lastCallees?_concat]
    split_ifs
    · rfl
    · exact ih

theorem calls_ofCalls_iff {callee : String} : (ofCalls calls).Calls caller callee ↔
    ∃ names, lastCallees? calls caller = some names ∧ callee ∈ names := by
  have hcalls : (ofCalls calls).Calls caller callee ↔
      ∃ set, (ofCalls calls).get? caller = some set ∧ callee ∈ set := Iff.rfl
  rw [hcalls, get?_ofCalls]
  constructor
  · rintro ⟨set, hget, hmem⟩
    obtain ⟨names, hlast, rfl⟩ := Option.map_eq_some_iff.mp hget
    exact ⟨names, hlast, NameSet.mem_ofList_iff.mp hmem⟩
  · rintro ⟨names, hlast, hmem⟩
    exact ⟨.ofList names, by rw [hlast]; rfl, NameSet.mem_ofList_iff.mpr hmem⟩

/-- The entries list the callees of the last entries, without repeats and in order. -/
theorem mem_entries_ofCalls_iff : (caller, list) ∈ (ofCalls calls).entries ↔
    list.Pairwise (· < ·) ∧ ∃ names, lastCallees? calls caller = some names ∧
      ∀ callee, callee ∈ list ↔ callee ∈ names := by
  rw [mem_entries_iff, get?_ofCalls]
  constructor
  · rintro ⟨set, hget, rfl⟩
    obtain ⟨names, hlast, rfl⟩ := Option.map_eq_some_iff.mp hget
    refine ⟨toList_ordered _, names, hlast, fun callee => ?_⟩
    rw [Std.ExtTreeSet.mem_toList, NameSet.mem_ofList_iff]
  · rintro ⟨hordered, names, hlast, hmem⟩
    refine ⟨.ofList names, by rw [hlast]; rfl, ?_⟩
    refine (toList_ordered _).eq_of_mem_iff hordered fun callee => ?_
    rw [Std.ExtTreeSet.mem_toList, NameSet.mem_ofList_iff, hmem]

/-! ## The list of a map -/

theorem entries_ordered (m : Dependencies) : m.entries.Pairwise fun p q => p.1 < q.1 := by
  rw [Dependencies.entries, List.pairwise_map]
  exact Std.ExtTreeMap.ordered_keys_toList.imp fun h => compare_lt_iff_lt.mp h

theorem nodup_entries (m : Dependencies) : (m.entries.map Prod.fst).Nodup :=
  List.pairwise_map.mpr (m.entries_ordered.imp fun h => h.ne)

/-- A map is made again of its entries, in any order. -/
theorem ofCalls_eq_of_perm (h : entries.Perm m.entries) : ofCalls entries = m := by
  have hnodup : (entries.map Prod.fst).Nodup :=
    (h.map Prod.fst).nodup_iff.mpr m.nodup_entries
  have hset : ∀ names : NameSet, .ofList names.toList = names := fun names =>
    Std.ExtTreeSet.ext_mem fun x => by
      rw [NameSet.mem_ofList_iff, Std.ExtTreeSet.mem_toList]
  refine ext_get? fun caller => Option.ext fun names => ?_
  rw [get?_ofCalls, Option.map_eq_some_iff]
  simp only [lastCallees?_eq_some_iff hnodup, h.mem_iff, mem_entries_iff]
  constructor
  · rintro ⟨_, ⟨names', hget, rfl⟩, rfl⟩
    rw [hset, hget]
  · intro hget
    exact ⟨names.toList, ⟨names, hget, rfl⟩, hset names⟩

/-! ## Equal maps -/

theorem ofCalls_eq_iff : ofCalls calls = ofCalls calls' ↔
    (∀ caller, caller ∈ calls.map Prod.fst ↔ caller ∈ calls'.map Prod.fst) ∧
    ∀ caller names names', lastCallees? calls caller = some names →
      lastCallees? calls' caller = some names' → ∀ callee, callee ∈ names ↔ callee ∈ names' := by
  constructor
  · intro heq
    have hget : ∀ caller, (ofCalls calls).get? caller = (ofCalls calls').get? caller := by
      simp only [heq, implies_true]
    simp only [get?_ofCalls] at hget
    refine ⟨fun caller => ?_, fun caller names names' hlast hlast' callee => ?_⟩
    · have hsome := congrArg Option.isSome (hget caller)
      rw [Option.isSome_map, Option.isSome_map, Bool.eq_iff_iff, Option.isSome_iff_exists,
        Option.isSome_iff_exists] at hsome
      rw [← exists_lastCallees?_iff, ← exists_lastCallees?_iff, hsome]
    · have hsame := hget caller
      rw [hlast, hlast', Option.map_some, Option.map_some, Option.some.injEq] at hsame
      rw [← NameSet.mem_ofList_iff, hsame, NameSet.mem_ofList_iff]
  · rintro ⟨hcallers, hnames⟩
    refine ext_get? fun caller => ?_
    rw [get?_ofCalls, get?_ofCalls]
    have hcaller := hcallers caller
    rw [← exists_lastCallees?_iff, ← exists_lastCallees?_iff] at hcaller
    cases hlast : lastCallees? calls caller with
    | none =>
      cases hlast' : lastCallees? calls' caller with
      | none => rfl
      | some names' => simp [hlast, hlast'] at hcaller
    | some names =>
      obtain ⟨names', hlast'⟩ := hcaller.mp ⟨names, hlast⟩
      rw [hlast', Option.map_some, Option.map_some,
        NameSet.ofList_eq_of_mem_iff (hnames caller names names' hlast hlast')]

/-- A map of dependencies is a canonical form of the lists it is made of. Two lists are made into
the same map exactly if the same callers occur in them and the last entries of each caller have the
same callees, in whatever order and however often. The map lists, for each caller, the callees of
its last entry in strict order. So does every map, and it is made again of its entries, in any
order. -/
theorem ofCalls_eq_iff_and_entries (calls calls' : List (String × List String)) :
    (ofCalls calls = ofCalls calls' ↔
      (∀ caller, caller ∈ calls.map Prod.fst ↔ caller ∈ calls'.map Prod.fst) ∧
      ∀ caller names names', lastCallees? calls caller = some names →
        lastCallees? calls' caller = some names' → ∀ callee, callee ∈ names ↔ callee ∈ names') ∧
    (∀ caller list, (caller, list) ∈ (ofCalls calls).entries ↔ list.Pairwise (· < ·) ∧
      ∃ names, lastCallees? calls caller = some names ∧ ∀ callee, callee ∈ list ↔ callee ∈ names) ∧
    ∀ m : Dependencies, (∀ entry ∈ m.entries, entry.2.Pairwise (· < ·)) ∧
      ∀ entries, entries.Perm m.entries → ofCalls entries = m := by
  refine ⟨ofCalls_eq_iff, fun _ _ => mem_entries_ofCalls_iff, fun m => ⟨?_, fun _ => ?_⟩⟩
  · rintro ⟨caller, list⟩ hentry
    obtain ⟨names, -, rfl⟩ := mem_entries_iff.mp hentry
    exact toList_ordered names
  · exact ofCalls_eq_of_perm

/-- The theorem applies to two lists of which one has an entry that is replaced later on, callees
that are repeated and another order, and to the entries of their map the other way round. -/
theorem ofCalls_eq_iff_and_entries_of_calls :
    let calls := [("g", []), ("f", ["b", "a", "b"])]
    let calls' := [("f", ["g"]), ("f", ["a", "b"]), ("g", [])]
    ofCalls calls = ofCalls calls' ∧ ofCalls calls ≠ ofCalls [("f", ["a", "b"])] ∧
      (ofCalls calls).entries = [("f", ["a", "b"]), ("g", [])] ∧
      ofCalls [("g", []), ("f", ["a", "b"])] = ofCalls calls := by
  intro calls calls'
  have hentries : (ofCalls calls).entries = [("f", ["a", "b"]), ("g", [])] := by decide +kernel
  obtain ⟨heq, -, hagain⟩ := ofCalls_eq_iff_and_entries calls calls'
  obtain ⟨hne, -, -⟩ := ofCalls_eq_iff_and_entries calls [("f", ["a", "b"])]
  refine ⟨heq.mpr ⟨fun caller => ?_, fun caller names names' hlast hlast' callee => ?_⟩, ?_,
    hentries, (hagain _).2 _ ?_⟩
  · simp [calls, calls', or_comm]
  · have hmem : caller = "g" ∨ caller = "f" := by
      simpa [calls] using exists_lastCallees?_iff.mp ⟨names, hlast⟩
    rcases hmem with rfl | rfl
    · obtain rfl : [] = names := Option.some.inj hlast
      obtain rfl : [] = names' := Option.some.inj hlast'
      rfl
    · obtain rfl : ["b", "a", "b"] = names := Option.some.inj hlast
      obtain rfl : ["a", "b"] = names' := Option.some.inj hlast'
      grind
  · intro h
    simpa [calls] using (hne.mp h).1 "g"
  · rw [hentries]
    exact List.Perm.swap ..

end Dependencies

end CallAtlas
