import CallAtlas.Analysis
import CallAtlas.Json

/-!
# The table report

An analysis and its layout as one JSON document. The tables of nodes and edges, the maps and
the counts are all in a fixed order, so the same input gives the same text.
-/

namespace CallAtlas

/-- A distance: the number of hops, or a word. -/
def Distance.toJson : Distance → Json
  | hops k => .object [("hops", .number k)]
  | unreachable => .text "unreachable"

/-- A row of the node table. -/
def NodeRow.toJson (row : NodeRow) : Json :=
  .object
    [("id", .text row.id), ("is_defined", .bool row.isDefined),
     ("distance", row.distance.toJson), ("in_cycle", .bool row.inCycle),
     ("in_degree", .number row.inDegree), ("out_degree", .number row.outDegree),
     ("total_degree", .number row.totalDegree), ("role", .text row.role.label),
     ("color", .text row.role.color)]

/-- A row of the edge table. -/
def EdgeRow.toJson (row : EdgeRow) : Json :=
  .object [("from", .text row.caller), ("to", .text row.callee), ("in_cycle", .bool row.inCycle)]

/-- A definition without its body. -/
def Definition.toJson (d : Definition) : Json :=
  .object
    [("name", .text d.name), ("source_file", .text d.sourceFile.spelling),
     ("line", .number d.line), ("end_line", .number d.endLine),
     ("signature", .text d.signature), ("doc", .orNull .text d.doc)]

/-- The callees of each caller. -/
def Dependencies.toJson (m : Dependencies) : Json :=
  .object (m.entries.map fun (caller, names) => (caller, .texts names))

/-- The paths of a set. -/
def PathSet.toJson (s : PathSet) : Json :=
  .texts (s.values.map Path.spelling)

namespace Registry

/-- The definition of each name. -/
def toJson (r : Registry) : Json :=
  .object (r.definitions.toList.map fun (name, d) => (name, d.toJson))

/-- The file that each name is defined in. -/
def ownersToJson (r : Registry) : Json :=
  .object (r.definitions.toList.map fun (name, d) => (name, .text d.sourceFile.spelling))

/-- The files of the earlier definitions of each name that has some. -/
def duplicatesToJson (r : Registry) : Json :=
  .object (r.duplicates.toList.map fun (name, paths) => (name, paths.toJson))

end Registry

/-- A file that was left out. -/
def Failure.toJson (f : Failure) : Json :=
  .object [("path", .text f.path.spelling), ("reason", .text f.reason)]

namespace Layout

/-- The node table. -/
def nodesToJson (l : Layout) : Json :=
  .list (l.nodes.toList.map NodeRow.toJson)

/-- The edge table. -/
def edgesToJson (l : Layout) : Json :=
  .list (l.edges.map EdgeRow.toJson)

/-- The members of each cycle. -/
def cyclesToJson (l : Layout) : Json :=
  .list (l.cycles.map .texts)

end Layout

/-- The document of an analysis and a layout. -/
def Report.table (a : Analysis) (l : Layout) : Json :=
  .object
    [("meta", .object
       [("files", .number a.files.length), ("failures", .number a.failures.length),
        ("functions", .number a.registry.definitions.size), ("lines", .number a.totalLines),
        ("nodes", .number l.nodes.size), ("edges", .number l.edges.length),
        ("center", .orNull .text l.center), ("format", .text "table")]),
     ("files", .texts (a.files.map fun file => file.path.spelling)),
     ("nodes", l.nodesToJson), ("edges", l.edgesToJson), ("cycles", l.cyclesToJson),
     ("dependencies", a.dependencies.toJson), ("duplicates", a.registry.duplicatesToJson),
     ("definitions", a.registry.toJson), ("failures", .list (a.failures.map Failure.toJson))]

end CallAtlas
