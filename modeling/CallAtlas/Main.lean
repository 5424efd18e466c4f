import CallAtlas.Cli.Run

/-!
# The program

Takes a picture of the files that the arguments name, runs the command on it, and then prints
and writes what the command says.
-/

namespace CallAtlas.Main

/-- Adds what stands at a path to a tree, with everything below it if `deep` is set. -/
partial def take (deep : Bool) (tree : FileTree) (path : Path) : IO FileTree := do
  let place := (← IO.currentDir) / path.spelling
  if ← place.isDir then
    let mut tree := (tree.makeFolder path).toOption.getD tree
    if deep then
      for entry in ← place.readDir do
        tree ← take deep tree (path.join [entry.fileName])
    return tree
  else if ← place.pathExists then
    return (tree.makeFile path (← IO.FS.readBinFile place)).toOption.getD tree
  else
    return tree

/-- The folder that a path to write to stands in. -/
def parent (path : Path) : Path :=
  match FileTree.splitLast path with
  | ([], _, _) => ⟨"."⟩
  | (before, _, _) => ⟨"/".intercalate before ++ "/"⟩

/-- A tree with all that a run with these options can read or write. -/
def picture (o : Cli.Options) : IO FileTree := do
  let tree := FileTree.empty.enter ⟨(← IO.currentDir).toString⟩
  let tree ← o.inputs.foldlM (take true) (tree.toOption.getD FileTree.empty)
  let tree ← o.config.toList.foldlM (take false) tree
  let outputs := o.output.toList.flatMap fun path => [parent path, path]
  outputs.foldlM (take false) tree

/-- Runs the command on the files that its arguments name. -/
def run (args : List String) : IO Cli.Outcome := do
  match Cli.read args with
  | .run o => return Cli.run args (← picture o)
  | _ => return Cli.run args FileTree.empty

end CallAtlas.Main

open CallAtlas in
/-- Prints and writes what the command says. -/
def main (args : List String) : IO UInt32 := do
  let outcome ← Main.run args
  if let some (path, text) := outcome.file then
    IO.FS.writeFile path.spelling text
  IO.print outcome.stdout
  IO.eprint outcome.stderr
  return outcome.code.toUInt32
