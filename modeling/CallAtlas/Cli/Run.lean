import CallAtlas.Analysis
import CallAtlas.Cli.Arguments
import CallAtlas.Layout.Dot
import CallAtlas.Report.Summary
import CallAtlas.Report.Table

/-!
# Running the command

The command loads its configuration, expands folders among its inputs, analyses the files and
writes a report. It works on a file tree and says what is to be printed and written; the
program does the printing and writing.
-/

namespace CallAtlas.Cli

/-- What a run prints, the file it writes, and its exit code. -/
structure Outcome where
  code : Nat
  stdout : String := ""
  stderr : String := ""
  file : Option (Path × String) := none

/-- The name and version of the program. -/
def versionText : String := "rcallgraph 0.1.0\n"

/-- How the program is called. -/
def usageText : String :=
  "Usage: rcallgraph [OPTIONS] <PATH>...\n\n" ++
  "Options:\n" ++
  "  -o, --output <FILE>         Output file path (stdout when omitted)\n" ++
  "  -f, --format <FORMAT>       Output format: json, dot or summary\n" ++
  "      --exclude-disconnected  Drop functions that are not connected to the center\n" ++
  "  -c, --config <FILE>         JSON configuration file\n" ++
  "  -v, --verbose               Debug logging\n" ++
  "  -h, --help                  Print help\n" ++
  "  -V, --version               Print version\n"

/-- Why a run failed: a heading and its cause. -/
structure RunError where
  heading : String
  cause : String
deriving DecidableEq, Repr

/-- The wording of the error. The lines of the cause are indented. -/
def RunError.message (e : RunError) : String :=
  let cause := e.cause.toList.flatMap fun c => if c = '\n' then "\n    ".toList else [c]
  "Error: " ++ e.heading ++ "\n\nCaused by:\n    " ++ String.ofList cause ++ "\n"

/-- The configuration that the options name, with their own setting on top. -/
def configOf (o : Options) (tree : FileTree) : Except RunError Config := do
  let config ← match o.config with
    | some path => (Config.load tree path).mapError fun e => ⟨e.message, e.reason⟩
    | none => pure {}
  return if o.excludeDisconnected then { config with includeDisconnected := false } else config

/-- The report on an analysis in a format. -/
def report (format : Format) (a : Analysis) (l : Layout) : String :=
  match format with
  | .json => (Report.table a l).pretty
  | .dot => Dot.render "calls" l
  | .summary => Report.summary a l

/-- Runs the command with the given options. -/
def execute (o : Options) (tree : FileTree) : Except RunError Outcome := do
  let config ← configOf o tree
  let inputs := tree.expand (.ofList config.extensions) o.inputs
  let analysis ← (Analysis.run config tree inputs).mapError fun e => ⟨"analysis failed", e.message⟩
  let text := report (o.format.getD .summary) analysis (analysis.layout config.includeDisconnected)
  match o.output with
  | none => return { code := 0, stdout := text }
  | some path =>
    match tree.write path text with
    | .ok _ => return { code := 0, file := some (path, text) }
    | .error e => throw ⟨"failed to write " ++ path.spelling, e.message⟩

/-- Runs the command with the given arguments. -/
def run (args : List String) (tree : FileTree) : Outcome :=
  match read args with
  | .version => { code := 0, stdout := versionText }
  | .help => { code := 0, stdout := usageText }
  | .misuse => { code := 2, stderr := usageText }
  | .run o =>
    match execute o tree with
    | .ok outcome => outcome
    | .error e => { code := 1, stderr := e.message }

/-- The tree after what an outcome writes. -/
def Outcome.apply (outcome : Outcome) (tree : FileTree) : FileTree :=
  match outcome.file with
  | none => tree
  | some (path, text) =>
    match tree.write path text with
    | .ok tree => tree
    | .error _ => tree

end CallAtlas.Cli
