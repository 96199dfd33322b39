import SchemaClasses.Schema.Canonical
import SchemaClasses.Code.Module

/-!
# Generation

From the text of a schema to the text of a module, with the warnings on the way.
-/

namespace SchemaClasses

/-- Why no module can be generated. -/
inductive GenerationError
  | document (e : DocumentError)
  | emission (e : EmissionError)
deriving Repr

namespace GenerationError

def message (text : String) : GenerationError → String
  | .document e => e.message text
  | .emission e => e.message

/-- A sentence on the error, followed by the lines around its place if it has one. -/
def report (text : String) : GenerationError → String
  | .document e => e.report text
  | .emission e => e.message

end GenerationError

/-- A generated module. -/
structure Generation where
  code : Text
  /-- How many definitions the canonical document has. -/
  definitions : Nat
  /-- How many of them became part of the module. -/
  fragments : Nat
deriving Repr, Inhabited

/-- The module for a canonical document, and the warnings after those `before`. -/
def Document.generate (config : Config) (commandLine : Text) (before : Diagnostics)
    (document : Document) : Except EmissionError Generation × Diagnostics :=
  let (result, record) := document.emit config { warnings := before }
  let generation := result.map fun texts =>
    let fragments := texts.filter (!·.isEmpty)
    { code := Module.render config commandLine fragments record.imports
      definitions := texts.length
      fragments := fragments.length : Generation }
  (generation, record.warnings)

/-- The module for the text of a schema, and the warnings after those `before`. The command line is
    the one that headers show. -/
def generate (config : Config) (commandLine : Text) (before : Diagnostics) (text : String) :
    Except GenerationError Generation × Diagnostics :=
  match Document.ofText text with
  | .error e => (.error (.document e), before)
  | .ok document =>
    let (result, warnings) := document.generate config commandLine before
    (result.mapError .emission, warnings)

end SchemaClasses
