import SchemaClasses.Config
import SchemaClasses.FileTree
import SchemaClasses.Json.Reader

/-!
# Configuration files

Settings from a file, which holds one JSON object.
-/

namespace SchemaClasses

/-- Why a file gives no configuration. -/
inductive ConfigError
  | unreadable (e : FileError)
  /-- The text is not JSON; it comes with the error. -/
  | invalidJson (path : String) (text : List Char) (e : Json.ReadError)
  | notObject (path : String)
  /-- The path is that of no file. -/
  | brokenPath
  /-- The bytes are no text. -/
  | notText (e : Text.Utf8Error)
  /-- The text exceeds a limit. -/
  | overLimit (fault : Json.Fault)
  /-- A value cannot be taken as a setting. -/
  | setting (e : SettingError)
deriving Repr

def ConfigError.message : ConfigError → String
  | .unreadable e => s!"Failed to read configuration file {e.path}: {e.message}"
  | .invalidJson path text e =>
    s!"Invalid JSON in configuration file {path}: {e.message text}"
  | .notObject path => s!"Configuration file must contain a JSON object: {path}"
  | .brokenPath => "embedded null byte"
  | .notText e => e.message
  | .overLimit fault => fault.message
  | .setting e => e.message

/-- Why a text that is read as JSON gives no configuration. -/
def ConfigError.ofReadError (path : String) (text : List Char) (e : Json.ReadError) : ConfigError :=
  if e.fault.isLimit then .overLimit e.fault else .invalidJson path text e

/-- The text of a file with every line end as a line feed. -/
def decodeText (bytes : List UInt8) : Except Text.Utf8Error (List Char) :=
  Text.unifyLineEnds <$> Text.decodeUtf8 bytes

/-- The configuration that the bytes of a file give, with arrays and objects that nest no deeper than
    `maxDepth`. -/
def Config.ofBytes (maxDepth : Nat) (path : String) (bytes : List UInt8) :
    Except ConfigError Config := do
  let text ← (decodeText bytes).mapError .notText
  let value ← (Json.read maxDepth text).mapError (.ofReadError path text)
  match value with
  | .object members => (Config.ofMembers members).mapError .setting
  | _ => .error (.notObject path)

/-- The configuration in the file that a path leads to from a directory. -/
def Config.ofFile (maxDepth : Nat) (tree : FileTree) (start : List String) (path : FilePath) :
    Except ConfigError Config := do
  if path.isBroken then .error .brokenPath
  else
    let bytes ← (tree.read start path).mapError .unreadable
    Config.ofBytes maxDepth path.text bytes

end SchemaClasses
