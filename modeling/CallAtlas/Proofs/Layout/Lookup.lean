import CallAtlas.Proofs.Layout.Rows

/-!
# Looking up the rows of a layout

`search` halves a range of rows in each step. Where the rows are in strict order of their names, a
step that goes on in one half leaves out only rows with other names (`Sorted.lt_of_id_lt`), so the
search finds the row with a name in its range if there is one (`search_eq_some_iff`). The rows of
every layout are in that order, and `node?_compute_iff` states what looking up a name gives.
-/

namespace CallAtlas

namespace Layout

variable {rows : Array NodeRow} {id : String} {low high i j : ℕ} {row row' : NodeRow}

/-- The rows are in strict order of their names. -/
def Sorted (rows : Array NodeRow) : Prop :=
  rows.toList.Pairwise fun row row' => row.id < row'.id

theorem Sorted.id_lt (h : Sorted rows) (hi : rows[i]? = some row) (hj : rows[j]? = some row')
    (hij : i < j) : row.id < row'.id := by
  rw [← Array.getElem?_toList] at hi hj
  obtain ⟨hilt, rfl⟩ := List.getElem?_eq_some_iff.mp hi
  obtain ⟨hjlt, rfl⟩ := List.getElem?_eq_some_iff.mp hj
  exact List.pairwise_iff_getElem.mp h i j hilt hjlt hij

/-- The order of two names is that of their places. -/
theorem Sorted.lt_of_id_lt (h : Sorted rows) (hi : rows[i]? = some row)
    (hj : rows[j]? = some row') (hid : row.id < row'.id) : i < j := by
  rcases Nat.lt_trichotomy i j with hij | rfl | hji
  · exact hij
  · rw [Option.some.inj (hi.symm.trans hj)] at hid
    exact absurd hid (lt_irrefl _)
  · exact absurd hid (h.id_lt hj hi hji).asymm

/-- A name stands at one place at most. -/
theorem Sorted.eq_of_id_eq (h : Sorted rows) (hi : rows[i]? = some row)
    (hj : rows[j]? = some row') (hid : row.id = row'.id) : i = j := by
  rcases Nat.lt_trichotomy i j with hij | hij | hji
  · exact absurd hid (h.id_lt hi hj hij).ne
  · exact hij
  · exact absurd hid.symm (h.id_lt hj hi hji).ne

/-! ## Searching -/

/-- The search finds the row with the name in its range, if there is one. -/
theorem search_eq_some_iff (h : Sorted rows) (hhigh : high ≤ rows.size) :
    search rows id low high = some row ↔
      ∃ i, low ≤ i ∧ i < high ∧ rows[i]? = some row ∧ row.id = id := by
  fun_induction search rows id low high with
  | case1 low high hlt middle hnone =>
    rw [Array.getElem?_eq_none_iff] at hnone
    omega
  | case2 low high hlt middle found hfound hcompare =>
    have hid : id = found.id := Std.compare_eq_iff_eq.mp hcompare
    rw [Option.some.injEq]
    constructor
    · rintro rfl
      exact ⟨middle, by omega, by omega, hfound, hid.symm⟩
    · rintro ⟨i, -, -, hrow, hrowid⟩
      have hi := h.eq_of_id_eq hrow hfound (hrowid.trans hid)
      rw [hi, hfound] at hrow
      exact Option.some.inj hrow
  | case3 low high hlt middle found hfound hcompare ih =>
    have hid : id < found.id := compare_lt_iff_lt.mp hcompare
    rw [ih (by omega)]
    refine exists_congr fun i => and_congr_right fun hlow => ?_
    constructor
    · rintro ⟨hi, hrow⟩
      exact ⟨by omega, hrow⟩
    · rintro ⟨-, hrow, hrowid⟩
      exact ⟨h.lt_of_id_lt hrow hfound (hrowid ▸ hid), hrow, hrowid⟩
  | case4 low high hlt middle found hfound hcompare ih =>
    have hid : found.id < id := compare_gt_iff_gt.mp hcompare
    rw [ih hhigh]
    refine exists_congr fun i => ?_
    constructor
    · rintro ⟨hi, hrow⟩
      exact ⟨by omega, hrow⟩
    · rintro ⟨-, hi, hrow, hrowid⟩
      exact ⟨h.lt_of_id_lt hfound hrow (hrowid ▸ hid), hi, hrow, hrowid⟩
  | case5 low high hge =>
    simp only [reduceCtorEq, false_iff]
    rintro ⟨i, hlow, hi, -⟩
    omega

theorem node?_eq_some_iff {l : Layout} (h : Sorted l.nodes) :
    l.node? id = some row ↔ row ∈ l.nodes ∧ row.id = id := by
  rw [node?, search_eq_some_iff h le_rfl, Array.mem_iff_getElem?]
  constructor
  · rintro ⟨i, -, -, hrow, hid⟩
    exact ⟨⟨i, hrow⟩, hid⟩
  · rintro ⟨⟨i, hrow⟩, hid⟩
    obtain ⟨hi, -⟩ := Array.getElem?_eq_some_iff.mp hrow
    exact ⟨i, Nat.zero_le i, hi, hrow, hid⟩

theorem sorted_nodes_compute (all : Bool) (g : CallGraph) : Sorted (compute all g).nodes :=
  (depicts_compute all g).nodes_ordered

/-- Looking a name up in the layout of a graph that is built by any steps gives a row exactly if
the layout lists it and it has that name. So nothing is found exactly if no row has the name, and
a row is found exactly if one place, and no other, has a row with the name. In the layout of all
functions the names of the graph are found. -/
theorem node?_compute_iff (steps : List CallGraph.Step) (all : Bool) (id : String) :
    let g := CallGraph.empty.run steps
    let l := compute all g
    (∀ row, l.node? id = some row ↔ row ∈ l.nodes ∧ row.id = id) ∧
    (l.node? id = none ↔ ∀ row ∈ l.nodes, row.id ≠ id) ∧
    ((l.node? id).isSome ↔ ∃! i : ℕ, ∃ row, l.nodes[i]? = some row ∧ row.id = id) ∧
    (((compute true g).node? id).isSome ↔ id ∈ g.names) := by
  intro g l
  have hsorted : Sorted l.nodes := sorted_nodes_compute all g
  have hiff : ∀ row, l.node? id = some row ↔ row ∈ l.nodes ∧ row.id = id :=
    fun row => node?_eq_some_iff hsorted
  refine ⟨hiff, ?_, ?_, ?_⟩
  · rw [Option.eq_none_iff_forall_ne_some]
    exact forall_congr' fun row => by rw [ne_eq, hiff, not_and]
  · rw [Option.isSome_iff_exists]
    constructor
    · rintro ⟨row, hrow⟩
      obtain ⟨hmem, hid⟩ := (hiff row).mp hrow
      obtain ⟨i, hi⟩ := Array.mem_iff_getElem?.mp hmem
      refine ⟨i, ⟨row, hi, hid⟩, ?_⟩
      rintro j ⟨row', hj, hid'⟩
      exact hsorted.eq_of_id_eq hj hi (hid'.trans hid.symm)
    · rintro ⟨i, ⟨row, hi, hid⟩, -⟩
      exact ⟨row, (hiff row).mpr ⟨Array.mem_of_getElem? hi, hid⟩⟩
  · rw [Option.isSome_iff_exists, ← CallGraph.mem_names_outline, ← (rows_compute_true g).1,
      List.mem_map]
    simp only [node?_eq_some_iff (sorted_nodes_compute true g), Array.mem_toList_iff]

/-- Of a function that calls itself and one apart from it, the second is not found unless all
functions are laid out. -/
example :
    let g := CallGraph.empty.run [.call "b" "b", .node "a" true]
    ((compute true g).node? "a").isSome ∧ (compute false g).node? "a" = none ∧
      ((compute false g).node? "b").isSome ∧ (compute true g).node? "c" = none := by
  decide +kernel

end Layout

end CallAtlas
