import SchemaClasses.Proofs.ClassNames
import SchemaClasses.Proofs.Runs

/-!
# Omissions

What a document loses on the way to code, and what is recorded about it. A definition has no text
if it has no code at all, as directives and the schema, or if it is a type that is to be left out.
The former come with a warning each, and so do the types that lose their interfaces.
-/

namespace SchemaClasses

/-! ## Types to leave out -/

def Json.names (items : List (Json Text)) : List String :=
  items.filterMap fun
    | .string text => text.string?
    | _ => none

/-- A list leaves out the types that it names. -/
theorem Config.ignores_list {config : Config} {items : List (Json Text)}
    (hignore : config.ignoreTypes = some (.array items)) (type : String) :
    config.ignores type = .ok (decide (type ∈ Json.names items)) := by
  simp only [ignores, hignore, Except.ok.injEq]
  rw [Bool.eq_iff_iff, List.any_eq_true, decide_eq_true_iff, Json.names, List.mem_filterMap]
  refine exists_congr fun item => and_congr_right fun _ => ?_
  cases item <;> simp [Text.string?_eq_some]

/-! ## Definitions -/

def TypeBody.parents : TypeBody → List String
  | .object parents _ | .interface parents _ => parents
  | .scalar | .union _ | .enum _ | .inputObject _ => []

namespace Definition

/-- The warning on a definition, if there is one. The names are those of types to leave out. -/
def warning? (ignored : List String) : Definition → Option Diagnostic
  | .directive d => some (.unsupported "Directives are not implemented yet!" ("@" ++ d.name))
  | .schema _ =>
    some (.unsupported "Schema definitions are not generated, root types are emitted as classes."
      "schema")
  | .type d =>
    if d.name ∉ ignored ∧ d.body.parents ≠ [] then
      some (.unsupported "Interface inheritance is not yet supported!" d.name)
    else none
  | _ => none

/-- The definition is one of a type that is to be left out. -/
def IsIgnored (ignored : List String) (definition : Definition) : Prop :=
  ∃ d, definition = .type d ∧ d.name ∈ ignored

/-- The definition is none that code exists for, or one of a type that is to be left out. -/
inductive HasNoCode (ignored : List String) : Definition → Prop
  | directive (d : DirectiveDef) : HasNoCode ignored (.directive d)
  | schema (d : SchemaDef) : HasNoCode ignored (.schema d)
  | type {d : TypeDef} (h : d.name ∈ ignored) : HasNoCode ignored (.type d)

/-- What has no code is left out on purpose, or there is a warning on it. -/
theorem HasNoCode.accounted {ignored : List String} {definition : Definition}
    (h : definition.HasNoCode ignored) :
    definition.IsIgnored ignored ∨ (definition.warning? ignored).isSome := by
  cases h with
  | directive d => exact .inr rfl
  | schema d => exact .inr rfl
  | type h => exact .inl ⟨_, rfl, h⟩

end Definition

/-! ## Fragments -/

/-- The parts of a type come with a warning if there are interfaces among them. -/
theorem TypeBody.warnings_fragment {config : Config} {body : TypeBody} {emitted : EmittedBody}
    (h : body.emit config = .ok emitted) (name description : String) :
    (emitted.fragment name description).warnings =
      if body.parents ≠ [] then [Fragment.inheritanceWarning name] else [] := by
  cases body with
  | scalar | union members | enum values =>
    cases h
    rfl
  | object parents fields | interface parents fields =>
    simp only [emit, Success.bind_eq_ok, Success.pure_eq_ok] at h
    obtain ⟨assignments, -, rfl⟩ := h
    cases parents <;> rfl
  | inputObject fields =>
    simp only [emit, Success.bind_eq_ok, Success.pure_eq_ok] at h
    obtain ⟨assignments, -, rfl⟩ := h
    rfl

section

variable {config : Config} {items : List (Json Text)}
  (hignore : config.ignoreTypes = some (.array items))

include hignore

/-- A definition records its warning, and has no text if there is no code for it. -/
theorem Definition.emit_accounts {definition : Definition} {fragment : Fragment}
    (h : definition.emit config = .ok fragment) :
    fragment.warnings = (definition.warning? (Json.names items)).toList ∧
      (fragment.text = "" ↔ definition.HasNoCode (Json.names items)) := by
  cases becomes_of_emit h with
  | schema d => exact ⟨rfl, iff_of_true rfl (.schema d)⟩
  | directive d => exact ⟨rfl, iff_of_true rfl (.directive d)⟩
  | @ignored d hignored =>
    have hlisted : d.name ∈ Json.names items := by
      simpa [Config.ignores_list hignore] using hignored
    exact ⟨by simp [warning?, hlisted], iff_of_true rfl (.type hlisted)⟩
  | @kept d emitted hkept hbody =>
    have hlisted : d.name ∉ Json.names items := by
      simpa [Config.ignores_list hignore] using hkept
    refine ⟨?_, iff_of_false (EmittedBody.text_fragment_ne_empty _ _ _) fun hnone => ?_⟩
    · simp only [TypeBody.warnings_fragment hbody, warning?, hlisted, not_false_eq_true, true_and]
      split <;> rfl
    · cases hnone with
      | type h => exact hlisted h

/-! ## Documents -/

/-- A document records the warnings on its definitions, in order, and nothing else. Exactly those
    definitions have no text that there is no code for, and each of them is a type to leave out or
    has its warning. -/
theorem Document.emit_warnings {record after : Record} {document : Document} {texts : List Text}
    (h : Document.emit config record document = (.ok texts, after)) :
    after.warnings =
        record.warnings ++ document.filterMap (Definition.warning? (Json.names items)) ∧
      List.Forall₂ (fun definition (text : Text) =>
        (text = "" ↔ definition.HasNoCode (Json.names items)) ∧
          (text = "" → definition.IsIgnored (Json.names items) ∨
            (definition.warning? (Json.names items)).isSome)) document texts := by
  obtain ⟨fragments, hall, rfl, rfl⟩ := emit_eq_ok h
  -- Each definition accounts for its own fragment; the warnings follow by going along the two.
  have haccounts : List.Forall₂ (fun definition (fragment : Fragment) =>
      fragment.warnings = (definition.warning? (Json.names items)).toList ∧
        (fragment.text = "" ↔ definition.HasNoCode (Json.names items))) document fragments :=
    hall.imp fun _ _ => Definition.emit_accounts hignore
  refine ⟨?_, ?_⟩
  · have hwarnings : fragments.flatMap Fragment.warnings =
        document.filterMap (Definition.warning? (Json.names items)) := by
      clear h hall
      induction haccounts with
      | nil => rfl
      | cons hhead _ ih =>
        rw [List.flatMap_cons, hhead.1, ih, List.filterMap_cons]
        cases Definition.warning? (Json.names items) _ <;> rfl
    change record.warnings ++ fragments.flatMap Fragment.warnings = _
    rw [hwarnings]
  · rw [List.forall₂_map_right_iff]
    exact haccounts.imp fun _ _ ⟨_, htext⟩ =>
      ⟨htext, fun hempty => (htext.mp hempty).accounted⟩

end

/-- A document with a definition of each kind that loses something, one that would if it were not
    left out, and others that do not. -/
def lossyDocument : Document :=
  [.schema ⟨none, [], [(.query, "Query")]⟩,
    .directive ⟨none, "auth", [], false, ["OBJECT"]⟩,
    .type ⟨none, "Query", [], .object ["Node"] [⟨none, "at", [], .named "Date", []⟩]⟩,
    .type ⟨none, "Node", [], .interface [] []⟩,
    .type ⟨none, "Hidden", [], .interface ["Node"] []⟩,
    .type ⟨none, "Any", [], .union ["Query"]⟩,
    .type ⟨none, "Date", [], .scalar⟩]

/-- Settings that leave out one of its types, and others that it does not have. -/
def lossyConfig : Config :=
  { ignoreTypes := some (.array [.string "Nothing", .null, .string "Hidden"]) }

/-- The warnings on a document that loses something of every kind. -/
theorem Document.emit_warnings_lossyDocument :
    ∃ texts after, Document.emit lossyConfig {} lossyDocument = (.ok texts, after) ∧
      after.warnings.map (·.subject) = ["schema", "@auth", "Query"] ∧
      after.warnings = [] ++ lossyDocument.filterMap
        (Definition.warning? (Json.names [.string "Nothing", .null, .string "Hidden"])) ∧
      List.Forall₂ (fun definition (text : Text) =>
        (text = "" ↔ definition.HasNoCode ["Nothing", "Hidden"]) ∧
          (text = "" → definition.IsIgnored ["Nothing", "Hidden"] ∨
            (definition.warning? ["Nothing", "Hidden"]).isSome)) lossyDocument texts := by
  have hok : (Document.emit lossyConfig {} lossyDocument).1.isOk := by decide +kernel
  obtain ⟨texts, after, h⟩ := exists_emitted hok
  obtain ⟨hwarnings, hall⟩ := emit_warnings rfl h
  refine ⟨texts, after, h, ?_, hwarnings, hall⟩
  rw [hwarnings]
  rfl

end SchemaClasses
