import SchemaClasses.CommandLine.Run

/-!
# The program

The command on the file system of the machine. What the words of the command line name is read into
a tree, the run is a function of it, and the files that the run changed are written.
-/

namespace SchemaClasses.CommandLine

/-- The paths that a command line names, those of no file apart. -/
def namedPaths (words : List String) : List String :=
  match Parsed.ofWords words with
  | .ok parsed =>
    (parsed.config.toList ++ parsed.arguments).filter fun text => !(FilePath.ofString text).isBroken
  | .error _ => []

/-- The tree with what the machine has at a place. -/
def loadPlace (tree : FileTree) (place : List String) : IO FileTree := do
  let path := (← IO.currentDir) / absoluteText place
  if ← path.isDir then return { tree with directories := place :: tree.directories }
  else if ← path.pathExists then
    let bytes ← IO.FS.readBinFile path
    return { tree with files := (place, bytes.data.toList) :: tree.files }
  else return tree

/-- What the machine has at the paths and at all places on the way to them. -/
def loadTree (start : List String) (paths : List String) : IO FileTree :=
  let places := paths.flatMap fun path =>
    let place := (FilePath.ofString path).resolve start
    (List.range (place.length + 1)).map place.take
  places.eraseDups.foldlM loadPlace ⟨[], []⟩

/-- Writes the files that differ between two trees. -/
def storeChanges (before after : FileTree) : IO Unit := do
  let root ← IO.currentDir
  for (place, bytes) in after.files do
    unless before.file? place = some bytes do
      IO.FS.writeBinFile (root / absoluteText place) ⟨bytes.toArray⟩

/-- Runs the command and gives its exit code. -/
def execute (words : List String) : IO UInt32 := do
  let start := (FilePath.ofString (← IO.currentDir).toString).names
  let tree ← loadTree start (namedPaths words)
  let outcome := run Json.freeDepth start words tree
  storeChanges tree outcome.tree
  IO.print outcome.stdout
  IO.eprint outcome.stderr
  if let some failure := outcome.failure then IO.eprintln failure.message
  return outcome.exitCode.toUInt32

end SchemaClasses.CommandLine

/-- Runs the command on the words of the command line. -/
def main (words : List String) : IO UInt32 :=
  SchemaClasses.CommandLine.execute words
