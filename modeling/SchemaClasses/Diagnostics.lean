/-!
# Diagnostics

Warnings about constructs that are skipped or generated in part only.
-/

namespace SchemaClasses

/-- What a diagnostic is about. -/
inductive DiagnosticKind
  | unsupportedConstruct
deriving DecidableEq, Repr

def DiagnosticKind.label : DiagnosticKind → String
  | .unsupportedConstruct => "unsupported_construct"

/-- A warning. -/
structure Diagnostic where
  kind : DiagnosticKind
  message : String
  /-- The definition that the warning is about; empty if it is about none. -/
  subject : String
deriving DecidableEq, Repr

/-- A warning on a construct that is not supported. -/
def Diagnostic.unsupported (message : String) (subject : String) : Diagnostic :=
  ⟨.unsupportedConstruct, message, subject⟩

/-- The warning as one line. -/
def Diagnostic.text (d : Diagnostic) : String :=
  if d.subject.isEmpty then "Warning: " ++ d.message
  else "Warning: " ++ d.subject ++ ": " ++ d.message

/-- Warnings in the order they were recorded. -/
abbrev Diagnostics := List Diagnostic

def Diagnostics.messages (ds : Diagnostics) : List String :=
  ds.map Diagnostic.text

end SchemaClasses
