import SchemaClasses.Text.Lines
import SchemaClasses.Text.Display
import SchemaClasses.Text.Utf8

/-!
# File trees

Directories and files under one root, and reading and writing files by their paths.
-/

namespace SchemaClasses

/-! ## Paths -/

/-- A path as written. -/
structure FilePath where
  /-- What stands before the first name: nothing, or one slash or two. -/
  root : String
  names : List String
deriving DecidableEq, Repr

namespace FilePath

/-- The pieces of a list between slashes. -/
def splitSlashes {α : Type} [DecidableEq α] (slash : α) : List α → List (List α)
  | [] => [[]]
  | c :: rest =>
    if c = slash then [] :: splitSlashes slash rest
    else
      match splitSlashes slash rest with
      | [] => [[c]]
      | piece :: pieces => (c :: piece) :: pieces

/-- The path that a text writes; empty names and dots that mean the same place are left out. -/
def ofString (text : String) : FilePath :=
  let slashes := (text.toList.takeWhile (· = '/')).length
  { root := if slashes = 0 then "" else if slashes = 2 then "//" else "/"
    names := ((splitSlashes '/' text.toList).map String.ofList).filter fun name =>
      name ≠ "" && name ≠ "." }

/-- The path as text; the path of no names is a dot. -/
def text (path : FilePath) : String :=
  if path.root.isEmpty && path.names.isEmpty then "."
  else path.root ++ Text.joinWith "/" path.names

def name (path : FilePath) : String :=
  path.names.getLast?.getD ""

/-- Whether a name of the path holds the character that ends every path, so that it names nothing
    at all. -/
def isBroken (path : FilePath) : Bool :=
  path.names.any fun name => name.toList.contains '\x00'

/-- The names from the root to where a path leads from a directory; two dots go one up. -/
def resolve (start : List String) (path : FilePath) : List String :=
  path.names.foldl (fun place name => if name = ".." then place.dropLast else place ++ [name])
    (if path.root.isEmpty then start else [])

end FilePath

/-- The names from the root as a text. -/
def absoluteText (names : List String) : String :=
  "/" ++ Text.joinWith "/" names

/-! ## Errors -/

/-- Why a file cannot be read or written. -/
inductive FileFault
  | noSuchFile
  | notDirectory
  | isDirectory
  | nameTooLong
deriving DecidableEq, Repr

/-- A fault and the path that was asked for. -/
structure FileError where
  fault : FileFault
  path : String
deriving DecidableEq, Repr

def FileFault.message : FileFault → String
  | .noSuchFile => "[Errno 2] No such file or directory"
  | .notDirectory => "[Errno 20] Not a directory"
  | .isDirectory => "[Errno 21] Is a directory"
  | .nameTooLong => "[Errno 36] File name too long"

def FileError.message (e : FileError) : String :=
  e.fault.message ++ ": " ++ Text.display e.path

/-! ## Trees -/

/-- Files with their bytes, and directories. A directory that a file or a directory is in is there
    without being listed. -/
structure FileTree where
  files : List (List String × List UInt8)
  directories : List (List String)
deriving DecidableEq, Repr

namespace FileTree

def file? (tree : FileTree) (place : List String) : Option (List UInt8) :=
  tree.files.lookup place

def isDirectory (tree : FileTree) (place : List String) : Bool :=
  place.isEmpty || tree.directories.any (place.isPrefixOf ·)
    || tree.files.any fun (file, _) => place.isPrefixOf file && place.length < file.length

def exists? (tree : FileTree) (place : List String) : Bool :=
  tree.isDirectory place || (tree.file? place).isSome

def maxNameSize : Nat := 255

def maxPathSize : Nat := 4095

/-- The place that names lead to from a directory. All but the last must lead to directories. -/
def walk (tree : FileTree) (start : List String) : List String → Except FileFault (List String)
  | [] => .ok start
  | name :: rest =>
    if !tree.isDirectory start then
      .error (if (tree.file? start).isSome then .notDirectory else .noSuchFile)
    else if maxNameSize < name.utf8ByteSize then .error .nameTooLong
    else if name = ".." then tree.walk start.dropLast rest
    else tree.walk (start ++ [name]) rest

/-- The place that a path leads to from a directory. -/
def locate (tree : FileTree) (start : List String) (path : FilePath) :
    Except FileError (List String) :=
  if maxPathSize < path.text.utf8ByteSize then .error ⟨.nameTooLong, path.text⟩
  else
    (tree.walk (if path.root.isEmpty then start else []) path.names).mapError (⟨·, path.text⟩)

/-- The bytes of the file that a path leads to from a directory. -/
def read (tree : FileTree) (start : List String) (path : FilePath) :
    Except FileError (List UInt8) := do
  let place ← tree.locate start path
  if tree.isDirectory place then .error ⟨.isDirectory, path.text⟩
  else
    match tree.file? place with
    | some bytes => .ok bytes
    | none => .error ⟨.noSuchFile, path.text⟩

/-- The files with other bytes for one of them, which is added if it is not there. -/
def setFile (place : List String) (bytes : List UInt8) :
    List (List String × List UInt8) → List (List String × List UInt8)
  | [] => [(place, bytes)]
  | (other, old) :: rest =>
    if other = place then (place, bytes) :: rest else (other, old) :: setFile place bytes rest

/-- The place of the file that a path leads to from a directory, if it can be written. -/
def target (tree : FileTree) (start : List String) (path : FilePath) :
    Except FileError (List String) := do
  let place ← tree.locate start path
  if tree.isDirectory place then .error ⟨.isDirectory, path.text⟩ else return place

/-- The tree with these bytes in the file at a place. -/
def put (tree : FileTree) (place : List String) (bytes : List UInt8) : FileTree :=
  { tree with files := setFile place bytes tree.files }

end FileTree

end SchemaClasses
