import SchemaClasses.Code.Emission
import SchemaClasses.Proofs.Success

/-!
# Fragments

What a definition becomes and what it adds to the record. No emission looks at the record at hand,
so the run with an empty record shows all that there is to know about it.
-/

namespace SchemaClasses

/-! ## Records -/

namespace Record

def append (first second : Record) : Record :=
  ⟨first.warnings ++ second.warnings, first.imports ++ second.imports⟩

instance : Append Record := ⟨append⟩

@[simp] theorem append_warnings (first second : Record) :
    (first ++ second).warnings = first.warnings ++ second.warnings := rfl

@[simp] theorem append_imports (first second : Record) :
    (first ++ second).imports = first.imports ++ second.imports := rfl

@[simp] theorem append_empty (record : Record) : record ++ ({} : Record) = record := by
  obtain ⟨warnings, imports⟩ := record
  change Record.mk (warnings ++ []) (imports ++ []) = ⟨warnings, imports⟩
  rw [List.append_nil, List.append_nil]

theorem append_assoc (first second third : Record) :
    first ++ second ++ third = first ++ (second ++ third) := by
  change Record.mk _ _ = Record.mk _ _
  simp only [append_warnings, append_imports, List.append_assoc]

end Record

/-! ## Emissions that only add -/

namespace Emission

variable {α β : Type}

/-- The record at hand has no part in what comes of the emission, and what the emission collects
    goes after what is there. -/
def AppendsOnly (m : Emission α) : Prop :=
  ∃ result added, ∀ record, m.start record = (result, record ++ added)

theorem appendsOnly_pure (a : α) : AppendsOnly (pure a) :=
  ⟨.ok a, {}, fun record => by rw [start_pure, Record.append_empty]⟩

theorem appendsOnly_throw (e : EmissionError) : AppendsOnly (throw e : Emission α) :=
  ⟨.error e, {}, fun record => by rw [start_throw, Record.append_empty]⟩

theorem appendsOnly_liftM (result : Except EmissionError α) :
    AppendsOnly (liftM result : Emission α) :=
  ⟨result, {}, fun record => by rw [start_liftM, Record.append_empty]⟩

theorem appendsOnly_warn (d : Diagnostic) : AppendsOnly (warn d) := by
  refine ⟨.ok (), { warnings := [d] }, fun record => ?_⟩
  change _ = (_, Record.mk (record.warnings ++ [d]) (record.imports ++ []))
  rw [start_warn, List.append_nil]

theorem appendsOnly_need (names : List Import) : AppendsOnly (need names) := by
  refine ⟨.ok (), { imports := names }, fun record => ?_⟩
  change _ = (_, Record.mk (record.warnings ++ []) (record.imports ++ names))
  rw [start_need, List.append_nil]

/-- If each of two steps only appends, so do both in a row. -/
theorem AppendsOnly.bind {m : Emission α} {f : α → Emission β} (hm : m.AppendsOnly)
    (hf : ∀ a, (f a).AppendsOnly) : AppendsOnly (m >>= f) := by
  obtain ⟨result, added, hm⟩ := hm
  cases result with
  | error e => exact ⟨.error e, added, fun record => start_bind_error (hm record) f⟩
  | ok a =>
    obtain ⟨last, more, hf⟩ := hf a
    refine ⟨last, added ++ more, fun record => ?_⟩
    rw [start_bind_ok (hm record), hf, Record.append_assoc]

/-- If each of some steps only appends, so do all of them in a row. -/
theorem appendsOnly_mapM {f : α → Emission β} (hf : ∀ a, (f a).AppendsOnly) (xs : List α) :
    AppendsOnly (xs.mapM f) := by
  induction xs with
  | nil => exact appendsOnly_pure []
  | cons x rest ih =>
    rw [List.mapM_cons]
    exact (hf x).bind fun y => ih.bind fun ys => appendsOnly_pure (y :: ys)

/-- The run with an empty record shows what the emission does with any other. -/
theorem AppendsOnly.start_eq {m : Emission α} (h : m.AppendsOnly) (record : Record) :
    m.start record = ((m.start {}).1, record ++ (m.start {}).2) := by
  obtain ⟨result, added, h⟩ := h
  rw [h record, h {}]
  rfl

theorem classBlock_appendsOnly (name : String) (base : Import) (description : String)
    (body : List Text) : (classBlock name base description body).AppendsOnly :=
  (appendsOnly_need [base]).bind fun _ => appendsOnly_pure _

end Emission

open Emission

/-- Writing a type looks at no record. -/
theorem EmittedBody.write_appendsOnly (name description : String) (body : EmittedBody) :
    (body.write name description).AppendsOnly := by
  cases body with
  | fields base inherits assignments =>
    have hfields := (appendsOnly_need ((Assignment.unique assignments).flatMap (·.imports))).bind
      fun _ => classBlock_appendsOnly name base description
        ((Assignment.unique assignments).map Assignment.render)
    cases inherits with
    | true => exact (appendsOnly_warn _).bind fun _ => hfields
    | false => exact hfields
  | union members | scalar => exact classBlock_appendsOnly ..
  | enum values => exact (appendsOnly_need _).bind fun _ => appendsOnly_pure _

theorem TypeDef.write_appendsOnly (config : Config) (d : TypeDef) :
    (d.write config).AppendsOnly := by
  refine (appendsOnly_liftM _).bind fun body => (appendsOnly_liftM _).bind fun ignored => ?_
  cases ignored with
  | true => exact appendsOnly_pure _
  | false => exact body.write_appendsOnly ..

/-- Whatever was collected before, a definition is written alike, and collects the same. -/
theorem Definition.write_appendsOnly (config : Config) (d : Definition) :
    (d.write config).AppendsOnly := by
  cases d with
  | schema d => exact (appendsOnly_warn _).bind fun _ => appendsOnly_pure _
  | type d => exact d.write_appendsOnly config
  | typeExtension d => exact (appendsOnly_liftM _).bind fun _ => appendsOnly_throw _
  | directive d =>
    exact (appendsOnly_liftM _).bind fun _ =>
      (appendsOnly_warn _).bind fun _ => appendsOnly_pure _
  | schemaExtension d | operation d | fragment d => exact appendsOnly_throw _

/-! ## What a definition becomes -/

/-- What a definition becomes: its source text, which is empty if nothing is generated, the
    warnings on it, and the names of the class library that it needs. -/
structure Fragment where
  text : Text := ""
  warnings : Diagnostics := []
  imports : List Import := []
deriving Repr, Inhabited, DecidableEq

/-- What an emission comes to with an empty record. -/
def Emission.fragment (m : Emission Text) : Except EmissionError Fragment :=
  (m.start {}).1.map fun text => ⟨text, (m.start {}).2.warnings, (m.start {}).2.imports⟩

/-- The record with what a fragment adds. -/
def Record.add (record : Record) (fragment : Fragment) : Record :=
  record ++ ⟨fragment.warnings, fragment.imports⟩

/-- A fragment adds the same to every record. -/
theorem Record.add_eq (record : Record) (fragment : Fragment) :
    record.add fragment = record ++ Record.add {} fragment := rfl

/-- The empty fragment adds nothing. -/
theorem Record.add_empty (record : Record) : record.add {} = record := append_empty record

/-- An emission that only adds to the record adds its fragment to every record. -/
theorem Emission.AppendsOnly.start_of_ok {m : Emission Text} (hm : m.AppendsOnly)
    {fragment : Fragment} (h : m.fragment = .ok fragment) (record : Record) :
    m.start record = (.ok fragment.text, record.add fragment) := by
  rw [hm.start_eq record]
  unfold Emission.fragment at h
  cases hresult : (m.start {}).1 with
  | error e =>
    rw [hresult] at h
    cases h
  | ok text =>
    rw [hresult] at h
    cases h
    rfl

/-- A class of fields, with the names that the class and its fields need. -/
def Fragment.ofFields (name : String) (base : Import) (description : String)
    (fields : List Assignment) : Fragment :=
  let fields := Assignment.unique fields
  { text := classBlock name base description (fields.map Assignment.render)
    imports := fields.flatMap (·.imports) ++ [base] }

/-- A type that is not left out as a fragment. -/
def EmittedBody.fragment (name description : String) : EmittedBody → Fragment
  | .fields base inherits assignments =>
    { Fragment.ofFields name base description assignments with
      warnings := if inherits then [Fragment.inheritanceWarning name] else [] }
  | .union members =>
    { text := Fragment.classBlock name .union description (Fragment.unionBody members)
      imports := [.union] }
  | .enum values =>
    { text := Fragment.enumBlock name description values
      imports := [.enum] }
  | .scalar =>
    { text := Fragment.classBlock name .scalar description ["serialize = lambda x: str(x)"]
      imports := [.scalar] }

theorem Fragment.classBlock_ne_empty (name : String) (base : Import) (description : String)
    (body : List Text) : classBlock name base description body ≠ "" := by
  simp [classBlock, blockEnd]

theorem Fragment.enumBlock_ne_empty (name description : String) (values : List String) :
    enumBlock name description values ≠ "" := by
  simp [enumBlock, blockEnd]

/-- There is code for the parts of every type. -/
theorem EmittedBody.text_fragment_ne_empty (name description : String) (emitted : EmittedBody) :
    (emitted.fragment name description).text ≠ "" := by
  cases emitted with
  | fields base inherits assignments => exact Fragment.classBlock_ne_empty _ _ _ _
  | union members => exact Fragment.classBlock_ne_empty _ _ _ _
  | enum values => exact Fragment.enumBlock_ne_empty _ _ _
  | scalar => exact Fragment.classBlock_ne_empty _ _ _ _

def TypeDef.emit (config : Config) (d : TypeDef) : Except EmissionError Fragment :=
  (d.write config).fragment

def Definition.emit (config : Config) (d : Definition) : Except EmissionError Fragment :=
  (d.write config).fragment

/-- A type is written as its fragment. -/
theorem EmittedBody.write_fragment (name description : String) (body : EmittedBody) :
    (body.write name description).fragment = .ok (body.fragment name description) := by
  cases body with
  | fields base inherits assignments => cases inherits <;> rfl
  | union | enum | scalar => rfl

/-- A type that is left out becomes nothing. Code must exist for its parts even then. -/
theorem TypeDef.emit_eq (config : Config) (d : TypeDef) :
    d.emit config = do
      let body ← d.body.emit config
      let ignored ← (config.ignores d.name).mapError .setting
      return if ignored then {} else body.fragment d.name (d.description.getD "") := by
  unfold TypeDef.emit TypeDef.write Emission.fragment
  cases hbody : d.body.emit config with
  | error e => rfl
  | ok body =>
    cases hignored : (config.ignores d.name).mapError EmissionError.setting with
    | error e => rfl
    | ok ignored =>
      cases ignored with
      | true => rfl
      | false => exact body.write_fragment d.name (d.description.getD "")

namespace Definition

variable (config : Config)

@[simp] theorem emit_schema (d : SchemaDef) :
    emit config (.schema d) = .ok { warnings := [Fragment.schemaWarning] } := rfl

@[simp] theorem emit_schemaExtension (d : SchemaDef) :
    emit config (.schemaExtension d) = .error (.node .schemaExtension) := rfl

@[simp] theorem emit_type (d : TypeDef) : emit config (.type d) = d.emit config := rfl

/-- The parts of an extension are looked at first. -/
@[simp] theorem emit_typeExtension (d : TypeDef) :
    emit config (.typeExtension d) =
      d.body.emit config >>= fun _ => .error (.node d.body.extensionKind) := by
  cases h : d.body.emit config <;> simp [emit, write, Emission.fragment, h] <;> rfl

/-- A directive becomes a warning, unless one of its arguments cannot be emitted. -/
@[simp] theorem emit_directive (d : DirectiveDef) :
    emit config (.directive d) = do
      let _ ← d.arguments.mapM (Field.ofInputValue config)
      return { warnings := [Fragment.directiveWarning d.name] } := by
  cases h : d.arguments.mapM (Field.ofInputValue config) <;>
    simp [emit, write, Emission.fragment, h] <;> rfl

@[simp] theorem emit_operation (d : OperationDef) :
    emit config (.operation d) = .error (.node d.firstKind) := rfl

@[simp] theorem emit_fragment (d : FragmentDef) :
    emit config (.fragment d) =
      .error (.node ((Selection.firstKindOf d.selections).getD .field)) := rfl

/-! ## Writing a definition -/

variable {config} {d : Definition}

/-- A definition that becomes a fragment adds it to any record. -/
theorem start_write_of_ok {fragment : Fragment} (h : d.emit config = .ok fragment)
    (record : Record) :
    (d.write config).start record = (.ok fragment.text, record.add fragment) :=
  (d.write_appendsOnly config).start_of_ok h record

/-- A definition that cannot be written leaves the record as it was: all that can fail comes before
    all that is recorded. -/
theorem start_write_of_error {e : EmissionError} (h : d.emit config = .error e)
    (record : Record) : (d.write config).start record = (.error e, record) := by
  -- A definition fails in its parts, and these are read before anything is recorded.
  cases d with
  | schema d => cases h
  | type d =>
    rw [emit_type, TypeDef.emit_eq, Success.bind_eq_error] at h
    rcases h with hbody | ⟨body, hbody, h⟩
    · exact start_bind_error (congrArg (·, record) hbody) _
    · rw [Success.bind_eq_error] at h
      rcases h with hignored | ⟨ignored, -, h⟩
      · exact (start_bind_ok (congrArg (·, record) hbody) _).trans
          (start_bind_error (congrArg (·, record) hignored) _)
      · cases h
  | typeExtension d =>
    rw [emit_typeExtension, Success.bind_eq_error] at h
    rcases h with hbody | ⟨body, hbody, h⟩
    · exact start_bind_error (congrArg (·, record) hbody) _
    · cases h
      exact start_bind_ok (congrArg (·, record) hbody) _
  | directive d =>
    rw [emit_directive, Success.bind_eq_error] at h
    rcases h with harguments | ⟨_, -, h⟩
    · exact start_bind_error (congrArg (·, record) harguments) _
    · cases h
  | schemaExtension d | operation d | fragment d =>
    cases h
    rfl

end Definition

end SchemaClasses
