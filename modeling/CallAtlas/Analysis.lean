import CallAtlas.Config
import CallAtlas.Layout

/-!
# Analysis of a corpus

A run reads and parses each file on its own, folds the definitions of those that parse into a
registry in the order of the files, and resolves the calls between them. A file that cannot be
read or parsed is reported and otherwise left out. The inputs are checked before any file is
read, and a path that comes again is passed over.
-/

namespace CallAtlas

/-- Why a run does not start. -/
inductive InputError where
  | noInputs
  | missing (paths : List Path)
  | notFile (path : Path)
deriving DecidableEq, Repr

/-- The wording of the error. -/
def InputError.message : InputError → String
  | noInputs => "no input files were given"
  | missing paths =>
    "input path(s) do not exist: " ++ ", ".intercalate (paths.map Path.spelling)
  | notFile path => "input path is not a regular file: " ++ path.spelling

/-- A file that was left out, and why. -/
structure Failure where
  path : Path
  reason : String
deriving DecidableEq, Repr

/-- The failure in one line. -/
def Failure.message (f : Failure) : String :=
  f.path.spelling ++ ": " ++ f.reason

/-- What a run found. Files and failures are in the order of the inputs. -/
structure Analysis where
  files : List SourceFile
  failures : List Failure
  registry : Registry
  dependencies : Dependencies

namespace Analysis

/-! ## Inputs -/

/-- The paths that are not among those seen and not spelled otherwise before. -/
def distinctFrom (seen : PathSet) : List Path → List Path
  | [] => []
  | p :: ps =>
    if seen.contains p.components then distinctFrom seen ps
    else p :: distinctFrom (seen.add p) ps

/-- The first spelling of each path. -/
def distinct (paths : List Path) : List Path :=
  distinctFrom ∅ paths

/-- The paths to read, if all of them are files. -/
def checkInputs (tree : FileTree) (paths : List Path) : Except InputError (List Path) :=
  if paths = [] then .error .noInputs
  else
    match paths.filter (fun p => !tree.holds p) with
    | [] =>
      match paths.find? (fun p => !tree.isFile p) with
      | some p => .error (.notFile p)
      | none => .ok (distinct paths)
    | absent => .error (.missing absent)

/-! ## Files -/

/-- Reads a file and finds its definitions. -/
def examine (tree : FileTree) (path : Path) : Except Failure (SourceFile × List Definition) := do
  let text ← (tree.readText path).mapError fun e => ⟨path, e.message⟩
  let file : SourceFile := ⟨path, text⟩
  let definitions ← file.extract.mapError fun e => ⟨path, e.message text⟩
  return (file, definitions)

/-- The analysis of some outcomes of reading files. -/
def ofOutcomes (config : Config) (outcomes : List (Except Failure (SourceFile × List Definition))) :
    Analysis :=
  let parsed := outcomes.filterMap fun outcome => outcome.toOption
  let registry := parsed.foldl (fun r file => r.bindAll file.2) Registry.empty
  { files := parsed.map Prod.fst
    failures := outcomes.filterMap fun outcome =>
      match outcome with
      | .error failure => some failure
      | .ok _ => none
    registry
    dependencies := registry.resolve (FunctionLiteral.targets (.ofList config.higherOrder)) }

/-- Analyses the files at some paths. -/
def run (config : Config) (tree : FileTree) (paths : List Path) : Except InputError Analysis := do
  let paths ← checkInputs tree paths
  return ofOutcomes config (paths.map (examine tree))

/-! ## Results -/

/-- The number of lines of the files that parse. -/
def totalLines (a : Analysis) : Nat :=
  (a.files.map SourceFile.lineCount).foldr (· + ·) 0

/-- The graph of the calls that were resolved. -/
def graph (a : Analysis) : CallGraph :=
  .ofDependencies a.dependencies a.registry.contains

/-- The layout of that graph. -/
def layout (a : Analysis) (all : Bool) : Layout :=
  .compute all a.graph

end Analysis

end CallAtlas
