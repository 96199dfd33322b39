import SchemaClasses.Proofs.FieldCalls
import SchemaClasses.Proofs.Fragments

/-!
# Names within a class

The names that a class body binds, and those that the arguments of its fields are passed under, can
be used in the generated code and lead back to the schema: conversion, escaping and giving way to
names that are taken may all have changed a name, and its call still says what the schema calls it.
-/

namespace SchemaClasses

open Assignment (nameKeyword freshNames)
open Keyed (keys)

/-! ## Traceable names -/

namespace Field

/-- What the call under a name says about the name in the schema: nothing, if it is the converted
    one. -/
def pin (config : Config) (schemaName name : String) : Option Expr :=
  if name = convertedName config schemaName then none
  else some (.source (Text.quote schemaName))

/-- Calls under names that stand for names of the schema, in order. -/
structure Traceable (config : Config) (schemaNames : List String)
    (bound : List (String × Call)) : Prop where
  distinct : (keys bound).Nodup
  usable : ∀ name ∈ keys bound, Text.isIdentifier name ∧ Text.isKeyword name = false
  pinned : List.Forall₂ (fun schemaName entry =>
    entry.2.keyword? "name" = pin config schemaName entry.1) schemaNames bound

/-- `a` is bound to the name in the code of `schemaName`, and pins that name. -/
def Stands (config : Config) (schemaName : String) (a : Assignment) : Prop :=
  a.name = codeName config schemaName ∧ a.pinnedName = schemaName ∧
    ∃ core, a.Pins schemaName (convertedName config schemaName) core

/-- An argument or an input field stands for its name in the schema, under its name in the code. -/
theorem ofInputValue_stands {config : Config} {d : InputValueDef} {a : Assignment}
    (h : ofInputValue config d = .ok a) : Stands config d.name a := by
  obtain ⟨hname, hpinned, _, _, -, -, hpins⟩ := ofInputValue_pins h
  exact ⟨hname, hpinned, _, hpins⟩

/-- A field stands for its name in the schema, under its name in the code. -/
theorem ofField_stands {config : Config} {d : FieldDef} {a : Assignment}
    (h : ofField config d = .ok a) : Stands config d.name a := by
  obtain ⟨hname, hpinned, _, _, _, -, -, -, hpins⟩ := ofField_pins h
  exact ⟨hname, hpinned, _, hpins⟩

/-- If each definition stands for its name, then all of them do, in order. -/
theorem forall₂_stands {config : Config} {α : Type} {schemaName : α → String}
    {f : α → Except EmissionError Assignment} {defs : List α} {assignments : List Assignment}
    (hone : ∀ d a, f d = .ok a → Stands config (schemaName d) a)
    (h : defs.mapM f = .ok assignments) :
    List.Forall₂ (Stands config) (defs.map schemaName) assignments := by
  rw [List.forall₂_map_left_iff]
  exact (Success.mapM_eq_ok.mp h).imp hone

/-- The names of assignments that stand for fields. -/
theorem map_name_of_stands {config : Config} {schemaNames : List String}
    {assignments : List Assignment} (h : List.Forall₂ (Stands config) schemaNames assignments) :
    assignments.map Assignment.name = schemaNames.map (codeName config) := by
  induction h with
  | nil => rfl
  | cons hhead _ ih => rw [List.map_cons, List.map_cons, hhead.1, ih]

/-- Names in the code of identifiers can be used there. -/
theorem names_usable {config : Config} {schemaNames : List String} {assignments : List Assignment}
    (hnames : ∀ name ∈ schemaNames, Text.isIdentifier name)
    (h : List.Forall₂ (Stands config) schemaNames assignments) :
    ∀ name ∈ assignments.map Assignment.name,
      Text.isIdentifier name ∧ Text.isKeyword name = false := by
  induction h with
  | nil => simp
  | cons hhead _ ih =>
    rw [List.forall_mem_cons] at hnames
    rw [List.map_cons, List.forall_mem_cons, hhead.1]
    exact ⟨Text.identifier_usable hnames.1 _, ih hnames.2⟩

/-- The keyword for the name is the only one that a pin is read from. -/
theorem keyword?_of_pins {config : Config} {a : Assignment} {schemaName : String} {core call : Call}
    (h : a.Pins schemaName (convertedName config schemaName) core)
    (hkeywords : call.keywords = a.call.keywords) :
    call.keyword? "name" = pin config schemaName a.name := by
  rw [Call.keyword?, hkeywords, h.call, Call.extend_keywords,
    Keyed.lookup_append_of_notMem h.unnamed]
  unfold nameKeyword pin
  split <;> simp

/-- Once each gives way to those before it, assignments that stand for identifiers of a schema have
    traceable names. `callOf` may change the callee only. -/
theorem traceable_unique {config : Config} {schemaNames : List String}
    {assignments : List Assignment} {callOf : Assignment → Call}
    (hcallOf : ∀ a, (callOf a).keywords = a.call.keywords)
    (hnames : ∀ name ∈ schemaNames, Text.isIdentifier name)
    (h : List.Forall₂ (Stands config) schemaNames assignments) :
    Traceable config schemaNames
      ((Assignment.unique assignments).map fun a => (a.name, callOf a)) := by
  have hkeys : keys ((Assignment.unique assignments).map fun a => (a.name, callOf a)) =
      freshNames (assignments.map Assignment.name) := by
    rw [← Assignment.map_name_unique]
    simp [keys, Function.comp_def]
  refine ⟨?_, ?_, ?_⟩
  · rw [hkeys]
    exact Assignment.freshNames_nodup _
  · rw [hkeys]
    exact Text.freshNamesFrom_usable (names_usable hnames h) []
  · rw [List.forall₂_map_right_iff]
    refine Assignment.forall₂_unique h fun schemaName a taken hstands => ?_
    obtain ⟨-, hpinned, core, hpins⟩ := hstands
    exact keyword?_of_pins (hpins.avoiding hpinned taken) (hcallOf _)

/-- The arguments of a field are passed under traceable names. -/
theorem traceable_passed {config : Config} {defs : List InputValueDef}
    {arguments : List Assignment} (hnames : ∀ d ∈ defs, Text.isIdentifier d.name)
    (h : defs.mapM (ofInputValue config) = .ok arguments) :
    Traceable config (defs.map (·.name)) (passed arguments) := by
  have hstands := forall₂_stands (fun _ _ => ofInputValue_stands) h
  have hnames : ∀ name ∈ defs.map (·.name), Text.isIdentifier name := by
    simpa using hnames
  exact traceable_unique (fun _ => rfl) hnames hstands

end Field

/-! ## Classes of fields -/

namespace TypeBody

def hasFields : TypeBody → Bool
  | .object .. | .interface .. | .inputObject _ => true
  | .scalar | .union _ | .enum _ => false

/-- The fields that may have arguments. -/
def outputFields : TypeBody → List FieldDef
  | .object _ fields | .interface _ fields => fields
  | .scalar | .union _ | .enum _ | .inputObject _ => []

/-- The fields that may have defaults. -/
def inputFields : TypeBody → List InputValueDef
  | .inputObject fields => fields
  | .scalar | .object .. | .interface .. | .union _ | .enum _ => []

def fieldNames (body : TypeBody) : List String :=
  body.outputFields.map (·.name) ++ body.inputFields.map (·.name)

/-- A type with fields has an assignment for each, in order. -/
theorem emit_fields {config : Config} {body : TypeBody} {emitted : EmittedBody}
    (hfields : body.hasFields) (h : body.emit config = .ok emitted) :
    ∃ base inherits assignments, emitted = .fields base inherits assignments ∧
      ((body.inputFields = [] ∧ body.outputFields.mapM (Field.ofField config) = .ok assignments) ∨
        (body.outputFields = [] ∧
          body.inputFields.mapM (Field.ofInputValue config) = .ok assignments)) := by
  cases body with
  | scalar | union members | enum values => simp [hasFields] at hfields
  | object interfaces fields | interface interfaces fields =>
    simp only [emit, Success.bind_eq_ok, Success.pure_eq_ok] at h
    obtain ⟨assignments, hall, rfl⟩ := h
    exact ⟨_, _, assignments, rfl, .inl ⟨rfl, hall⟩⟩
  | inputObject fields =>
    simp only [emit, Success.bind_eq_ok, Success.pure_eq_ok] at h
    obtain ⟨assignments, hall, rfl⟩ := h
    exact ⟨_, _, assignments, rfl, .inr ⟨rfl, hall⟩⟩

/-- Each assignment of a type with fields stands for a field, in order. -/
theorem forall₂_stands {config : Config} {body : TypeBody} {assignments : List Assignment}
    (h : (body.inputFields = [] ∧ body.outputFields.mapM (Field.ofField config) = .ok assignments) ∨
      (body.outputFields = [] ∧
        body.inputFields.mapM (Field.ofInputValue config) = .ok assignments)) :
    List.Forall₂ (Field.Stands config) body.fieldNames assignments := by
  rcases h with ⟨hnone, hall⟩ | ⟨hnone, hall⟩
  · rw [fieldNames, hnone, List.map_nil, List.append_nil]
    exact Field.forall₂_stands (fun _ _ => Field.ofField_stands) hall
  · rw [fieldNames, hnone, List.map_nil, List.nil_append]
    exact Field.forall₂_stands (fun _ _ => Field.ofInputValue_stands) hall

end TypeBody

namespace TypeDef

/-- A type that is not left out is emitted as its body. -/
theorem emit_eq_ok {config : Config} {d : TypeDef} {fragment : Fragment}
    (h : d.emit config = .ok fragment) (hkept : config.ignores d.name = .ok false) :
    ∃ body, d.body.emit config = .ok body ∧
      fragment = body.fragment d.name (d.description.getD "") := by
  simp only [emit_eq, hkept, Success.bind_eq_ok, Success.mapError_eq_ok, Success.pure_eq_ok] at h
  obtain ⟨body, hbody, ignored, hignored, rfl⟩ := h
  obtain rfl : false = ignored := by simpa using hignored
  exact ⟨body, hbody, rfl⟩

/-- The class of a type binds its fields to traceable names, and passes the arguments of each field
    under traceable names. -/
theorem emit_names {config : Config} {d : TypeDef} {fragment : Fragment}
    (hfields : d.body.hasFields) (hnames : ∀ name ∈ d.body.fieldNames, Text.isIdentifier name)
    (harguments : ∀ field ∈ d.body.outputFields, ∀ argument ∈ field.arguments,
      Text.isIdentifier argument.name)
    (hkept : config.ignores d.name = .ok false) (h : d.emit config = .ok fragment) :
    ∃ base bound,
      fragment.text = Fragment.classBlock d.name base (d.description.getD "")
        (bound.map Assignment.render) ∧
      Field.Traceable config d.body.fieldNames (bound.map fun a => (a.name, a.call)) ∧
      ∀ entry ∈ d.body.outputFields.zip bound, ∃ arguments,
        Field.IsFieldCall config entry.1 arguments entry.2.name entry.2.call ∧
        Field.Traceable config (entry.1.arguments.map (·.name)) arguments := by
  obtain ⟨body, hbody, rfl⟩ := emit_eq_ok h hkept
  obtain ⟨base, inherits, assignments, rfl, hall⟩ := TypeBody.emit_fields hfields hbody
  refine ⟨base, Assignment.unique assignments, rfl,
    Field.traceable_unique (fun _ => rfl) hnames (TypeBody.forall₂_stands hall), ?_⟩
  -- The fields of input types have no arguments.
  rcases hall with ⟨-, hall⟩ | ⟨hnone, -⟩
  · intro entry hentry
    obtain ⟨arguments, hargs, hcall⟩ := List.forall₂_zip (Field.fieldCalls_unique hall) hentry
    have hnames := harguments entry.1 (List.of_mem_zip hentry).1
    exact ⟨Field.passed arguments, hcall, Field.traceable_passed hnames hargs⟩
  · simp [hnone]

/-- A type whose fields, and the arguments of one of them, get the same names by conversion and by
    escaping. -/
def clashingType : TypeDef where
  description := none
  name := "User"
  directives := []
  body := .object [] [
    ⟨none, "userId", [⟨none, "class", .named "Int", none, []⟩,
      ⟨none, "class_", .named "Int", none, []⟩, ⟨none, "Name", .named "Int", none, []⟩],
      .named "ID", []⟩,
    ⟨none, "user_id", [], .named "ID", []⟩,
    ⟨none, "from_", [], .named "ID", []⟩,
    ⟨none, "from", [], .named "ID", []⟩]

/-- Two fields and the arguments of one of them that have the same names in the code stay apart. -/
theorem emit_names_clashingType :
    ∃ fragment base bound, clashingType.emit {} = .ok fragment ∧
      fragment.text = Fragment.classBlock "User" base "" (bound.map Assignment.render) ∧
      Field.Traceable {} ["userId", "user_id", "from_", "from"]
        (bound.map fun a => (a.name, a.call)) ∧
      ∀ entry ∈ clashingType.body.outputFields.zip bound, ∃ arguments,
        Field.IsFieldCall {} entry.1 arguments entry.2.name entry.2.call ∧
        Field.Traceable {} (entry.1.arguments.map (·.name)) arguments := by
  have hok : (clashingType.emit {}).isOk := by decide +kernel
  cases h : clashingType.emit {} with
  | error e => simp [h, Except.isOk, Except.toBool] at hok
  | ok fragment =>
    obtain ⟨base, bound, htext, hnames, harguments⟩ :=
      emit_names (by decide) (by decide) (by decide) rfl h
    exact ⟨fragment, base, bound, rfl, htext, hnames, harguments⟩

end TypeDef

end SchemaClasses
