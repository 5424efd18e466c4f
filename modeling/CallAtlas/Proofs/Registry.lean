import CallAtlas.Proofs.Path
import CallAtlas.Registry

/-!
# What a registry records

A registry that is folded from a list of definitions says of each name what the definitions of
that name in the list say (`Records`): the last of them counts, and the files of the others are
its duplicates. Binding one more definition keeps this for the longer list (`Records.bind`), so
it holds of every fold (`Records.bindAll`, `records_ofDefinitions`), and how the list is cut into
parts makes no difference (`foldl_bindAll`). `names_get?_earlier?_foldl_bindAll` draws the
conclusions for single names.
-/

namespace CallAtlas

namespace Definition

variable {ds es : List Definition} {d : Definition} {n : String}

/-- The definitions of a name, in the order of the list. -/
def named (n : String) (ds : List Definition) : List Definition :=
  ds.filter fun d => d.name = n

theorem mem_named_iff : d ∈ named n ds ↔ d ∈ ds ∧ d.name = n := by
  simp [named]

theorem named_append (n : String) (ds es : List Definition) :
    named n (ds ++ es) = named n ds ++ named n es :=
  List.filter_append ..

/-- The definitions of a name are the earlier ones and the last. -/
theorem mem_named_iff_dropLast_or_getLast? : d ∈ named n ds ↔
    d ∈ (named n ds).dropLast ∨ (named n ds).getLast? = some d := by
  rcases List.eq_nil_or_concat (named n ds) with hnil | ⟨before, last, hconcat⟩
  · simp [hnil]
  · simp [hconcat, eq_comm]

theorem named_ne_nil_iff : named n ds ≠ [] ↔ ∃ d ∈ ds, d.name = n := by
  simp [named]

/-- The files of all definitions in a list but the last, if there are any. -/
def earlierFiles? (ds : List Definition) : Option PathSet :=
  if 2 ≤ ds.length then some (.ofPaths (ds.dropLast.map sourceFile)) else none

theorem isSome_earlierFiles?_iff : (earlierFiles? ds).isSome ↔ 2 ≤ ds.length := by
  simp [earlierFiles?]

/-- Where there are no earlier files, their set is empty. -/
theorem getD_earlierFiles? (ds : List Definition) :
    (earlierFiles? ds).getD ∅ = .ofPaths (ds.dropLast.map sourceFile) := by
  unfold earlierFiles?
  split_ifs with h
  · rfl
  · have hnil : ds.dropLast = [] := by
      rw [← List.length_eq_zero_iff, List.length_dropLast]
      omega
    rw [hnil]
    rfl

end Definition

namespace Registry

open Definition

variable {r : Registry} {ds es : List Definition} {d : Definition} {n : String}

/-! ## One binding -/

theorem get?_bind (r : Registry) (d : Definition) (n : String) :
    (r.bind d).get? n = if d.name = n then some d else r.get? n := by
  simp only [get?, bind, Std.ExtTreeMap.getElem?_insert, Std.compare_eq_iff_eq]

theorem earlier?_bind_of_ne (r : Registry) (h : d.name ≠ n) :
    (r.bind d).earlier? n = r.earlier? n := by
  unfold earlier? bind
  cases r.get? d.name with
  | none => rfl
  | some previous => simp [Std.ExtTreeMap.getElem?_insert, h]

theorem earlier?_bind_of_none (h : r.get? d.name = none) :
    (r.bind d).earlier? d.name = r.earlier? d.name := by
  simp only [earlier?, bind, h]

theorem earlier?_bind_of_some {previous : Definition} (h : r.get? d.name = some previous) :
    (r.bind d).earlier? d.name =
      some (((r.earlier? d.name).getD ∅).add previous.sourceFile) := by
  simp [earlier?, bind, h]

/-! ## Histories -/

/-- Of each name, the last definition in a list counts, and the files of the others are kept. -/
structure Records (r : Registry) (ds : List Definition) : Prop where
  get?_eq : ∀ n, r.get? n = (named n ds).getLast?
  earlier?_eq : ∀ n, r.earlier? n = earlierFiles? (named n ds)

theorem records_empty : empty.Records [] where
  get?_eq n := by simp [get?, empty, named]
  earlier?_eq n := by simp [earlier?, empty, named, earlierFiles?]

/-- A definition that is bound is recorded. The one that it replaces is the last one so far, and
joins the earlier ones. -/
theorem Records.bind (h : r.Records ds) (d : Definition) : (r.bind d).Records (ds ++ [d]) where
  get?_eq n := by
    rw [get?_bind, h.get?_eq, named_append]
    by_cases hn : d.name = n <;> simp [named, hn]
  earlier?_eq n := by
    by_cases hn : d.name = n
    · subst hn
      have hnamed : named d.name [d] = [d] := by simp [named]
      rw [named_append, hnamed]
      rcases List.eq_nil_or_concat (named d.name ds) with hnil | ⟨before, previous, hconcat⟩
      · have hget : r.get? d.name = none := by rw [h.get?_eq, hnil]; rfl
        rw [earlier?_bind_of_none hget, h.earlier?_eq, hnil]
        rfl
      · rw [List.concat_eq_append] at hconcat
        have hget : r.get? d.name = some previous := by
          rw [h.get?_eq, hconcat, List.getLast?_concat]
        rw [earlier?_bind_of_some hget, h.earlier?_eq, getD_earlierFiles?, hconcat,
          List.dropLast_concat, ← PathSet.ofPaths_concat, earlierFiles?, if_pos (by simp),
          List.dropLast_concat, List.map_append]
        rfl
    · have hnamed : named n [d] = [] := by simp [named, hn]
      rw [earlier?_bind_of_ne r hn, h.earlier?_eq, named_append, hnamed, List.append_nil]

theorem Records.bindAll : ∀ (es : List Definition) {r : Registry} {ds : List Definition},
    r.Records ds → (r.bindAll es).Records (ds ++ es)
  | [], r, ds, h => by
    rw [List.append_nil]
    exact h
  | d :: es, r, ds, h => by
    rw [List.append_cons]
    exact Records.bindAll es (h.bind d)

theorem records_ofDefinitions (ds : List Definition) : (ofDefinitions ds).Records ds :=
  records_empty.bindAll ds

/-- Definitions can be bound in parts. -/
theorem foldl_bindAll (groups : List (List Definition)) :
    groups.foldl bindAll empty = ofDefinitions groups.flatten :=
  List.foldl_flatten.symm

/-! ## Single names -/

theorem mem_names_iff : n ∈ r.names ↔ (r.get? n).isSome := by
  rw [names, Std.ExtTreeMap.mem_keys, Std.ExtTreeMap.mem_iff_isSome_getElem?, get?]

theorem mem_names_iff_exists : n ∈ r.names ↔ ∃ d, r.get? n = some d := by
  rw [mem_names_iff, Option.isSome_iff_exists]

theorem not_mem_names_iff : n ∉ r.names ↔ r.get? n = none := by
  rw [mem_names_iff, Option.not_isSome_iff_eq_none]

namespace Records

theorem mem_names_iff (h : r.Records ds) : n ∈ r.names ↔ ∃ d ∈ ds, d.name = n := by
  rw [Registry.mem_names_iff, h.get?_eq, ← named_ne_nil_iff, List.getLast?_isSome]

theorem mem_earlier?_iff (h : r.Records ds) {c : List Component} :
    c ∈ (r.earlier? n).getD ∅ ↔ ∃ d ∈ (named n ds).dropLast, d.sourceFile.components = c := by
  rw [h.earlier?_eq, getD_earlierFiles?, PathSet.mem_ofPaths_iff]
  simp only [List.mem_map, exists_exists_and_eq_and]

/-- The files that define a name are that of the definition that counts and the earlier ones. -/
theorem files_iff (h : r.Records ds) {owner : Definition} (howner : r.get? n = some owner)
    {c : List Component} :
    owner.sourceFile.components = c ∨ c ∈ (r.earlier? n).getD ∅ ↔
      ∃ d ∈ ds, d.name = n ∧ d.sourceFile.components = c := by
  rw [h.get?_eq] at howner
  have hmem : ∀ d, d ∈ ds ∧ d.name = n ↔ d ∈ (named n ds).dropLast ∨ d = owner := by
    intro d
    rw [← mem_named_iff, mem_named_iff_dropLast_or_getLast?, howner, Option.some.injEq, eq_comm]
  simp only [h.mem_earlier?_iff, ← and_assoc, hmem, or_and_right, exists_or, exists_eq_left,
    or_comm]

end Records

/-- A registry that is folded from definitions in parts has the names of the definitions. The
last definition of a name counts. A name that is defined twice or more, and no other, has
duplicates, which are the files of all its definitions but the last; the file of the last is
among them only if an earlier one stands in it too. So a name with duplicates is registered, and
with the file of the definition that counts its duplicates are all files that define it. -/
theorem names_get?_earlier?_foldl_bindAll (groups : List (List Definition)) (n : String) :
    let ds := groups.flatten
    let r := groups.foldl bindAll empty
    (n ∈ r.names ↔ ∃ d ∈ ds, d.name = n) ∧
    r.get? n = (named n ds).getLast? ∧
    ((r.earlier? n).isSome ↔ 2 ≤ (named n ds).length) ∧
    (∀ files, r.earlier? n = some files →
      files = .ofPaths ((named n ds).dropLast.map sourceFile) ∧
      ∀ c, c ∈ files ↔ ∃ d ∈ (named n ds).dropLast, d.sourceFile.components = c) ∧
    ((r.earlier? n).isSome → n ∈ r.names) ∧
    ∀ owner, r.get? n = some owner → ∀ c,
      owner.sourceFile.components = c ∨ c ∈ (r.earlier? n).getD ∅ ↔
        ∃ d ∈ ds, d.name = n ∧ d.sourceFile.components = c := by
  intro ds r
  have hr : r.Records ds := by
    have hfold : r = ofDefinitions ds := foldl_bindAll groups
    rw [hfold]
    exact records_ofDefinitions ds
  have hsome : (r.earlier? n).isSome ↔ 2 ≤ (named n ds).length := by
    rw [hr.earlier?_eq, isSome_earlierFiles?_iff]
  refine ⟨hr.mem_names_iff, hr.get?_eq n, hsome, ?_, ?_, ?_⟩
  · intro files hfiles
    have hgetD : (r.earlier? n).getD ∅ = files := by rw [hfiles]; rfl
    refine ⟨?_, fun c => ?_⟩
    · rw [← hgetD, hr.earlier?_eq, getD_earlierFiles?]
    · rw [← hgetD, hr.mem_earlier?_iff]
  · intro hearlier
    rw [hr.mem_names_iff, ← named_ne_nil_iff]
    exact List.ne_nil_of_length_pos (Nat.lt_of_lt_of_le Nat.two_pos (hsome.mp hearlier))
  · exact fun owner howner c => hr.files_iff howner

/-- The theorem applies to a name that is bound in one file, in another, and in the first again,
which is spelled differently then. -/
theorem names_get?_earlier?_foldl_bindAll_of_three :
    let f (file : String) : Definition :=
      ⟨"f", ⟨file⟩, 1, 1, "f()", none, ⟨[], [], .atom, ⟨"()", "function() 1"⟩⟩⟩
    let r := [[f "d/a.R", f "b.R"], [f "d//a.R"]].foldl bindAll empty
    "f" ∈ r.names ∧ (r.get? "f").map sourceFile = some ⟨"d//a.R"⟩ ∧
      r.earlier? "f" = some (.ofPaths [⟨"d/a.R"⟩, ⟨"b.R"⟩]) := by
  intro f r
  obtain ⟨-, hget, hsome, hfiles, hnames, -⟩ :=
    names_get?_earlier?_foldl_bindAll [[f "d/a.R", f "b.R"], [f "d//a.R"]] "f"
  have hearlier := hsome.mpr (by decide)
  obtain ⟨files, hr⟩ := Option.isSome_iff_exists.mp hearlier
  refine ⟨hnames hearlier, ?_, ?_⟩
  · rw [hget]
    rfl
  · rw [hr, (hfiles files hr).1]
    rfl

end Registry

end CallAtlas
