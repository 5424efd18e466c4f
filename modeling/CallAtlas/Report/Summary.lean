import CallAtlas.Analysis

/-!
# The summary report

A short text for people: counts, the center, and what deserves attention. A section that has
nothing to say is left out.
-/

namespace CallAtlas.Report

/-- A section under a heading, after an empty line. -/
def titled (heading : String) (entries : List String) : List String :=
  if entries = [] then [] else "" :: heading :: entries.map ("  " ++ ·)

/-- How a name that has duplicates is reported. -/
def duplicateEntry (r : Registry) (name : String) (earlier : PathSet) : String :=
  let owner := ((r.get? name).map fun d => d.sourceFile.spelling).getD ""
  name ++ ": using " ++ owner ++ ", also in " ++
    ", ".intercalate (earlier.values.map Path.spelling)

/-- The names that the center is not connected with. -/
def disconnected (l : Layout) : List String :=
  (l.nodes.toList.filter fun row => row.distance.hops?.isNone).map NodeRow.id

/-- The lines of the summary. -/
def summaryLines (a : Analysis) (l : Layout) : List String :=
  [s!"Files: {a.files.length} parsed, {a.failures.length} skipped ({a.totalLines} lines)",
   s!"Functions: {a.registry.definitions.size} ({a.dependencies.callCount} internal calls)",
   "Center: " ++ l.center.getD "none (empty graph)"] ++
  (l.maxDistance.map fun k => s!"Max distance from center: {k}").toList ++
  titled "Cycles:" (l.cycles.map (" <-> ".intercalate ·)) ++
  titled "Duplicate definitions:"
    (a.registry.duplicates.toList.map fun (name, earlier) =>
      duplicateEntry a.registry name earlier) ++
  titled "Skipped files:" (a.failures.map Failure.message) ++
  (if disconnected l = [] then []
   else ["", "Disconnected: " ++ ", ".intercalate (disconnected l)])

/-- The summary of an analysis and a layout. -/
def summary (a : Analysis) (l : Layout) : String :=
  String.join ((summaryLines a l).map (· ++ "\n"))

end CallAtlas.Report
