import SchemaClasses.Code.Fields
import SchemaClasses.Code.Import
import SchemaClasses.Diagnostics

/-!
# Records

What is collected while definitions are emitted. Every emission has the record of all before it at
hand, and what it has collected stays collected if it fails.
-/

namespace SchemaClasses

/-- What was collected so far: warnings in order, and the names of the class library needed. -/
structure Record where
  warnings : Diagnostics := []
  imports : List Import := []
deriving Repr, Inhabited, DecidableEq

/-- Emits code with a record at hand. -/
abbrev Emission := ExceptT EmissionError (StateM Record)

namespace Emission

variable {α β : Type}

/-- What comes of an emission with this record at hand, and the record after it. -/
def start (m : Emission α) (record : Record) : Except EmissionError α × Record :=
  (ExceptT.run m).run record

/-- What needs no record. -/
instance : MonadLift (Except EmissionError) Emission :=
  ⟨fun result => ExceptT.mk (pure result)⟩

/-- Records a warning. -/
def warn (d : Diagnostic) : Emission Unit :=
  modify fun record => { record with warnings := record.warnings ++ [d] }

/-- Records names of the class library that the code needs. -/
def need (names : List Import) : Emission Unit :=
  modify fun record => { record with imports := record.imports ++ names }

@[simp] theorem start_pure (a : α) (record : Record) :
    start (pure a) record = (.ok a, record) := rfl

@[simp] theorem start_throw (e : EmissionError) (record : Record) :
    start (throw e : Emission α) record = (.error e, record) := rfl

@[simp] theorem start_liftM (result : Except EmissionError α) (record : Record) :
    start (liftM result) record = (result, record) := rfl

@[simp] theorem start_warn (d : Diagnostic) (record : Record) :
    start (warn d) record = (.ok (), { record with warnings := record.warnings ++ [d] }) := rfl

@[simp] theorem start_need (names : List Import) (record : Record) :
    start (need names) record = (.ok (), { record with imports := record.imports ++ names }) := rfl

/-- The second part starts with the record that the first one left. -/
theorem start_bind_ok {m : Emission α} {record after : Record} {a : α}
    (h : m.start record = (.ok a, after)) (f : α → Emission β) :
    start (m >>= f) record = (f a).start after := by
  simp only [start, ExceptT.run_bind, StateT.run_bind] at h ⊢
  rw [h]
  rfl

/-- What the first part collected is kept if it fails. -/
theorem start_bind_error {m : Emission α} {record after : Record} {e : EmissionError}
    (h : m.start record = (.error e, after)) (f : α → Emission β) :
    start (m >>= f) record = (.error e, after) := by
  simp only [start, ExceptT.run_bind, StateT.run_bind] at h ⊢
  rw [h]
  rfl

end Emission

end SchemaClasses
