import CallAtlas.Layout

/-!
# Layouts as DOT

The text that graph drawing tools read. Names are quoted, with a backslash in front of each
quote and each backslash in them.
-/

namespace CallAtlas.Dot

/-- A name with a backslash in front of its quotes and backslashes. -/
def escape (name : List Char) : List Char :=
  name.flatMap fun c => if c = '\\' ∨ c = '"' then ['\\', c] else [c]

/-- A name in quotes. -/
def quoted (name : String) : String :=
  "\"" ++ String.ofList (escape name.toList) ++ "\""

/-- The line of a node. -/
def nodeLine (row : NodeRow) : String :=
  let style := if row.isDefined then "filled" else "filled,dashed"
  "  " ++ quoted row.id ++ " [label=\"" ++ String.ofList (escape row.id.toList) ++ "\\n" ++
    row.distance.text ++ "\", fillcolor=\"" ++ row.role.color ++ "\", style=\"" ++ style ++
    "\"];\n"

/-- The line of an edge. -/
def edgeLine (row : EdgeRow) : String :=
  let style := if row.inCycle then " [color=\"#ff7f00\", penwidth=2]" else ""
  "  " ++ quoted row.caller ++ " -> " ++ quoted row.callee ++ style ++ ";\n"

/-- The text of a layout under a name. -/
def render (graphName : String) (l : Layout) : String :=
  "digraph " ++ quoted graphName ++ " \x7b\n" ++
    "  rankdir=LR;\n" ++
    "  node [shape=box, style=filled, fontname=\"Helvetica\"];\n" ++
    String.join (l.nodes.toList.map nodeLine) ++
    String.join (l.edges.map edgeLine) ++
    "\x7d\n"

end CallAtlas.Dot
