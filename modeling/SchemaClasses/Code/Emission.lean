import SchemaClasses.Code.Classes

/-!
# Emission

A document as the texts of its definitions, with what is recorded on the way.
-/

namespace SchemaClasses

/-- The texts of the definitions in order, unless one of them cannot be written, and the record
    after the last one that was begun. -/
def Document.emit (config : Config) (record : Record) (document : Document) :
    Except EmissionError (List Text) × Record :=
  Emission.start (document.mapM (Definition.write config)) record

end SchemaClasses
