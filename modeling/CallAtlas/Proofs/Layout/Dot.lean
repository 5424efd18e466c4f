import Mathlib.Data.List.Basic
import Std.Data.String.ToNat
import CallAtlas.Layout.Dot

/-!
# Reading a drawing back

The text of a layout can be read back by a reader that knows little of the format. It takes in one
character after the other and collects the quoted strings, in which a backslash keeps the
character behind it from ending the string. A semicolon outside strings ends a statement. What a
statement says is told by its strings alone: a node has four, a call two, or three if it is in a
cycle.

No name can break this up: an escaped name is read as the name, whatever its characters
(`scan_escape`). So each line is read as one statement (`scan_nodeLine`, `scan_edgeLine`) and the
text as the statements of its lines (`statements_render`). `read_render_and_render_eq_iff` states
that the graph name and the rows are recovered, so layouts with the same text show the same.
-/

namespace CallAtlas

/-- What a drawing shows of a function. -/
structure NodeRow.Shown where
  id : String
  distance : Distance
  isDefined : Bool
  color : String
deriving DecidableEq, Repr

/-- What is drawn of a row. -/
def NodeRow.shown (row : NodeRow) : Shown :=
  ⟨row.id, row.distance, row.isDefined, row.role.color⟩

/-- The distance that a text gives. -/
def Distance.ofText (text : String) : Distance :=
  .ofSteps text.toNat?

namespace Dot

/-! ## A reader of strings -/

/-- The state of a reader, with the strings of the statement so far, and the characters of the
string it is in. -/
inductive Reading where
  | outside (strings : List String)
  | inside (strings : List String) (chars : List Char)
  /-- Behind a backslash in a string. -/
  | escaped (strings : List String) (chars : List Char)
deriving DecidableEq, Repr

namespace Reading

/-- The character that one behind a backslash stands for. -/
def unescape (c : Char) : Char :=
  if c = 'n' then '\n' else c

/-- Takes in a character, and gives the statement that it ends. -/
def step : Reading → Char → Reading × List (List String)
  | outside strings, c =>
    if c = '"' then (inside strings [], [])
    else if c = ';' then (outside [], [strings])
    else (outside strings, [])
  | inside strings chars, c =>
    if c = '"' then (outside (strings ++ [String.ofList chars]), [])
    else if c = '\\' then (escaped strings chars, [])
    else (inside strings (chars ++ [c]), [])
  | escaped strings chars, c => (inside strings (chars ++ [unescape c]), [])

/-- Takes in a text, and gives the statements that end in it. -/
def scan (r : Reading) : List Char → Reading × List (List String)
  | [] => (r, [])
  | c :: cs => (((r.step c).1.scan cs).1, (r.step c).2 ++ ((r.step c).1.scan cs).2)

end Reading

/-- The strings of each statement in a text. -/
def statements (text : String) : List (List String) :=
  ((Reading.outside []).scan text.toList).2

/-- The node that a statement with these strings draws. The label is the name and, behind a line
break, the distance. -/
def node? : List String → Option NodeRow.Shown
  | [id, label, color, style] =>
    some ⟨id, .ofText (String.ofList (label.toList.drop (id.toList.length + 1))),
      style = "filled", color⟩
  | _ => none

/-- The call that a statement with these strings draws. -/
def edge? : List String → Option EdgeRow
  | [caller, callee] => some ⟨caller, callee, false⟩
  | [caller, callee, _] => some ⟨caller, callee, true⟩
  | _ => none

/-- What a drawing says. -/
structure Drawing where
  graphName : String
  nodes : List NodeRow.Shown
  edges : List EdgeRow
deriving DecidableEq, Repr

/-- Reads a drawing back. -/
def read (text : String) : Drawing where
  graphName := ((statements text).head?.bind List.head?).getD ""
  nodes := (statements text).filterMap node?
  edges := (statements text).filterMap edge?

/-! ## Scanning -/

namespace Reading

variable {text : List Char}

theorem scan_append (r : Reading) (cs ds : List Char) :
    r.scan (cs ++ ds) =
      (((r.scan cs).1.scan ds).1, (r.scan cs).2 ++ ((r.scan cs).1.scan ds).2) := by
  induction cs generalizing r with
  | nil => rfl
  | cons c cs ih => rw [List.cons_append, scan, ih, scan, List.append_assoc]

/-- In a string, characters other than quotes and backslashes stand for themselves. -/
theorem scan_plain (strings : List String) (chars : List Char)
    (h : ∀ c ∈ text, c ≠ '"' ∧ c ≠ '\\') :
    (inside strings chars).scan text = (inside strings (chars ++ text), []) := by
  induction text generalizing chars with
  | nil => rw [List.append_nil, scan]
  | cons c text ih =>
    obtain ⟨⟨hquote, hbackslash⟩, htext⟩ := List.forall_mem_cons.mp h
    have hstep : (inside strings chars).step c = (inside strings (chars ++ [c]), []) := by
      rw [step, if_neg hquote, if_neg hbackslash]
    rw [scan, hstep, ih _ htext, List.append_assoc]
    rfl

/-- In a string, an escaped name is read as the name: a quote or a backslash comes out of `escaped`,
and any other character stays in `inside`. -/
theorem scan_escape (strings : List String) (chars name : List Char) :
    (inside strings chars).scan (escape name) = (inside strings (chars ++ name), []) := by
  induction name generalizing chars with
  | nil => rw [List.append_nil]; rfl
  | cons c name ih =>
    have hchar : (inside strings chars).scan
        (if c = '\\' ∨ c = '"' then ['\\', c] else [c]) = (inside strings (chars ++ [c]), []) := by
      by_cases hspecial : c = '\\' ∨ c = '"'
      · rw [if_pos hspecial]
        rcases hspecial with rfl | rfl <;> rfl
      · rw [if_neg hspecial]
        refine scan_plain strings chars fun d hd => ?_
        rw [List.mem_singleton.mp hd]
        exact ⟨fun heq => hspecial (Or.inr heq), fun heq => hspecial (Or.inl heq)⟩
    rw [escape, List.flatMap_cons, ← escape, scan_append, hchar, ih, List.append_assoc]
    rfl

/-- A quoted name is read as a string that is the name. -/
theorem scan_quoted (strings : List String) (name : String) :
    (outside strings).scan (quoted name).toList = (outside (strings ++ [name]), []) := by
  have hopen : (outside strings).scan "\"".toList = (inside strings [], []) := rfl
  have hclose : (inside strings name.toList).scan "\"".toList =
      (outside (strings ++ [String.ofList name.toList]), []) := rfl
  simp only [quoted, String.toList_append, String.toList_ofList, scan_append, hopen, scan_escape,
    List.nil_append, hclose, String.ofList_toList]

end Reading

/-! ## Lines -/

/-- The texts of distances need no escapes. -/
theorem plain_text (d : Distance) : ∀ c ∈ d.text.toList, c ≠ '"' ∧ c ≠ '\\' := by
  cases d with
  | unreachable => simp [Distance.text]
  | hops k =>
    intro c hc
    rw [Distance.text, Nat.toString_eq_repr, Nat.repr_eq_ofList_toDigits,
      String.toList_ofList] at hc
    have hdigit := Nat.isDigit_of_mem_toDigits (by omega) (by omega) hc
    refine ⟨?_, ?_⟩ <;>
    · rintro rfl
      simp at hdigit

theorem plain_color (role : Role) : ∀ c ∈ role.color.toList, c ≠ '"' ∧ c ≠ '\\' := by
  cases role <;> simp [Role.color]

/-- The strings in the line of a node. -/
def nodeStrings (row : NodeRow) : List String :=
  [row.id, String.ofList (row.id.toList ++ '\n' :: row.distance.text.toList), row.role.color,
    if row.isDefined then "filled" else "filled,dashed"]

/-- The strings in the line of an edge. -/
def edgeStrings (row : EdgeRow) : List String :=
  [row.caller, row.callee] ++ if row.inCycle then ["#ff7f00"] else []

open Reading

/-- The line of an edge is read as one statement. -/
theorem scan_edgeLine (row : EdgeRow) :
    (outside []).scan (edgeLine row).toList = (outside [], [edgeStrings row]) := by
  have hindent : (outside []).scan "  ".toList = (outside [], []) := rfl
  have harrow : (outside [row.caller]).scan " -> ".toList = (outside [row.caller], []) := rfl
  have hstyle : (outside [row.caller, row.callee]).scan
      (if row.inCycle then " [color=\"#ff7f00\", penwidth=2]" else "").toList =
        (outside (edgeStrings row), []) := by
    unfold edgeStrings
    cases row.inCycle <;> rfl
  have hend : (outside (edgeStrings row)).scan ";\n".toList = (outside [], [edgeStrings row]) := rfl
  simp only [edgeLine, String.toList_append, scan_append, hindent, scan_quoted, List.nil_append,
    harrow, List.singleton_append, hstyle, hend]

/-- The line of a node is read as one statement. -/
theorem scan_nodeLine (row : NodeRow) :
    (outside []).scan (nodeLine row).toList = (outside [], [nodeStrings row]) := by
  have hindent : (outside []).scan "  ".toList = (outside [], []) := rfl
  have hlabel : (outside [row.id]).scan " [label=\"".toList = (inside [row.id] [], []) := rfl
  have hname : (inside [row.id] []).scan (String.ofList (escape row.id.toList)).toList =
      (inside [row.id] row.id.toList, []) := by
    rw [String.toList_ofList]
    exact scan_escape [row.id] [] row.id.toList
  have hbreak : (inside [row.id] row.id.toList).scan "\\n".toList =
      (inside [row.id] (row.id.toList ++ ['\n']), []) := rfl
  have hdistance := scan_plain [row.id] (row.id.toList ++ ['\n']) (plain_text row.distance)
  rw [List.append_assoc, List.singleton_append] at hdistance
  generalize hlabelText : row.id.toList ++ '\n' :: row.distance.text.toList = label at hdistance
  have hfill : (inside [row.id] label).scan "\", fillcolor=\"".toList =
      (inside [row.id, String.ofList label] [], []) := rfl
  have hcolor := scan_plain [row.id, String.ofList label] [] (plain_color row.role)
  have hstyle : (inside [row.id, String.ofList label] row.role.color.toList).scan
      "\", style=\"".toList = (inside [row.id, String.ofList label, row.role.color] [], []) := by
    cases row.role <;> rfl
  have hend : (inside [row.id, String.ofList label, row.role.color] []).scan
      ((if row.isDefined then "filled" else "filled,dashed") ++ "\"];\n").toList =
        (outside [], [nodeStrings row]) := by
    rw [nodeStrings, hlabelText]
    cases row.isDefined <;> rfl
  simp only [nodeLine, String.append_assoc]
  simp only [String.toList_append, scan_append] at hend ⊢
  simp only [hindent, scan_quoted, List.nil_append, hlabel, hname, hbreak, hdistance, hfill,
    hcolor, hstyle, hend]

/-- Texts that are read as one statement each are read one after the other. -/
theorem scan_lines {α : Type*} {line : α → String} {strings : α → List String}
    (h : ∀ x, (outside []).scan (line x).toList = (outside [], [strings x])) (xs : List α) :
    (outside []).scan (String.join (xs.map line)).toList = (outside [], xs.map strings) := by
  rw [String.toList_join, List.flatMap_map]
  induction xs with
  | nil => rfl
  | cons x xs ih =>
    rw [List.flatMap_cons, scan_append, h, ih]
    rfl

/-- The statements of a drawing are those of its lines, after two that it starts with. -/
theorem statements_render (graphName : String) (l : Layout) :
    statements (render graphName l) = [graphName] :: ["Helvetica"] ::
      (l.nodes.toList.map nodeStrings ++ l.edges.map edgeStrings) := by
  have hkind : (outside []).scan "digraph ".toList = (outside [], []) := rfl
  have hopen : (outside [graphName]).scan " \x7b\n".toList = (outside [graphName], []) := rfl
  have hdirection : (outside [graphName]).scan "  rankdir=LR;\n".toList =
      (outside [], [[graphName]]) := rfl
  have hdefaults : (outside []).scan
      "  node [shape=box, style=filled, fontname=\"Helvetica\"];\n".toList =
        (outside [], [["Helvetica"]]) := rfl
  have hclose : (outside []).scan "\x7d\n".toList = (outside [], []) := rfl
  simp only [statements, render, String.toList_append, scan_append, hkind, scan_quoted,
    List.nil_append, hopen, hdirection, hdefaults, scan_lines scan_nodeLine,
    scan_lines scan_edgeLine, hclose, List.append_nil, List.cons_append]

/-! ## Rows -/

theorem ofText_text (d : Distance) : Distance.ofText d.text = d := by
  cases d with
  | unreachable =>
    have hword : "unreachable".toNat? = none := by
      rw [String.toNat?_eq_none_iff, Bool.eq_false_iff]
      intro hnat
      have hdigit := (String.isNat_iff.mp hnat).2.1 'u' (by simp)
      simp at hdigit
    rw [Distance.ofText, Distance.text, hword]
    rfl
  | hops k =>
    rw [Distance.ofText, Distance.text, Nat.toString_eq_repr, Nat.toNat?_repr]
    rfl

theorem node?_nodeStrings (row : NodeRow) : node? (nodeStrings row) = some row.shown := by
  have hlabel : (row.id.toList ++ '\n' :: row.distance.text.toList).drop
      (row.id.toList.length + 1) = row.distance.text.toList := by
    rw [List.drop_append, List.drop_of_length_le (by omega)]
    simp
  have hstyle : decide ((if row.isDefined then "filled" else "filled,dashed") = "filled") =
      row.isDefined := by
    cases row.isDefined <;> rfl
  rw [nodeStrings, node?, String.toList_ofList, hlabel, String.ofList_toList, ofText_text, hstyle]
  rfl

theorem node?_edgeStrings (row : EdgeRow) : node? (edgeStrings row) = none := by
  unfold edgeStrings
  cases row.inCycle <;> rfl

theorem edge?_nodeStrings (row : NodeRow) : edge? (nodeStrings row) = none :=
  rfl

theorem edge?_edgeStrings (row : EdgeRow) : edge? (edgeStrings row) = some row := by
  obtain ⟨caller, callee, inCycle⟩ := row
  cases inCycle <;> rfl

/-- What is found in a drawing is found in its nodes and then in its edges, unless it is found in
statements of one string. -/
theorem filterMap_statements_render {α : Type*} {f : List String → Option α}
    (hsingle : ∀ string, f [string] = none) (graphName : String) (l : Layout) :
    (statements (render graphName l)).filterMap f =
      l.nodes.toList.filterMap (f ∘ nodeStrings) ++ l.edges.filterMap (f ∘ edgeStrings) := by
  rw [statements_render, List.filterMap_cons_none (hsingle graphName),
    List.filterMap_cons_none (hsingle "Helvetica"), List.filterMap_append, List.filterMap_map,
    List.filterMap_map]

/-- A drawing is read back as the name and the rows it was made of. -/
theorem read_render (graphName : String) (l : Layout) :
    read (render graphName l) = ⟨graphName, l.nodes.toList.map NodeRow.shown, l.edges⟩ := by
  have hname : (statements (render graphName l)).head?.bind List.head? = some graphName := by
    rw [statements_render]
    rfl
  have hnodes : (statements (render graphName l)).filterMap node? =
      l.nodes.toList.map NodeRow.shown := by
    have hrow : node? ∘ nodeStrings = some ∘ NodeRow.shown := funext node?_nodeStrings
    have hother : l.edges.filterMap (node? ∘ edgeStrings) = [] :=
      List.filterMap_eq_nil_iff.mpr fun row _ => node?_edgeStrings row
    rw [filterMap_statements_render (fun _ => rfl), hrow, List.filterMap_eq_map, hother,
      List.append_nil]
  have hedges : (statements (render graphName l)).filterMap edge? = l.edges := by
    have hrow : edge? ∘ edgeStrings = some := funext edge?_edgeStrings
    have hother : l.nodes.toList.filterMap (edge? ∘ nodeStrings) = [] :=
      List.filterMap_eq_nil_iff.mpr fun row _ => edge?_nodeStrings row
    rw [filterMap_statements_render (fun _ => rfl), hrow, List.filterMap_some, hother,
      List.nil_append]
  rw [read, hname, hnodes, hedges]
  rfl

/-- The line of a node is decided by what is drawn of it. -/
theorem nodeLine_factorsThrough_shown : nodeLine.FactorsThrough NodeRow.shown := by
  intro row row' h
  simp only [NodeRow.shown, NodeRow.Shown.mk.injEq] at h
  obtain ⟨hid, hdistance, hdefined, hcolor⟩ := h
  rw [nodeLine, nodeLine, hid, hdistance, hdefined, hcolor]

/-- A drawing loses nothing of what it shows, whatever the names in it: the graph name and the rows
are read back from it, in their order, so two drawings are the same text just when they agree on
these. -/
theorem read_render_and_render_eq_iff :
    (∀ (graphName : String) (l : Layout),
      read (render graphName l) = ⟨graphName, l.nodes.toList.map NodeRow.shown, l.edges⟩) ∧
    ∀ (g₁ g₂ : String) (l₁ l₂ : Layout), render g₁ l₁ = render g₂ l₂ ↔
      g₁ = g₂ ∧ l₁.nodes.toList.map NodeRow.shown = l₂.nodes.toList.map NodeRow.shown ∧
        l₁.edges = l₂.edges := by
  refine ⟨read_render, fun g₁ g₂ l₁ l₂ => ⟨fun htext => ?_, ?_⟩⟩
  · have hread := congrArg read htext
    rw [read_render, read_render] at hread
    exact (Drawing.mk.injEq ..).mp hread
  · rintro ⟨rfl, hnodes, hedges⟩
    obtain ⟨line, hline⟩ := (Function.factorsThrough_iff _).mp nodeLine_factorsThrough_shown
    rw [render, render, hedges, hline, ← List.map_map, ← List.map_map, hnodes]

end Dot

end CallAtlas
