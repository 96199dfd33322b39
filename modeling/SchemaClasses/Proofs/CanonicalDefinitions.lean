import SchemaClasses.Proofs.CanonicalParts
import SchemaClasses.Proofs.KeptRules
import SchemaClasses.Proofs.Parsing
import SchemaClasses.Proofs.Printing.WrittenDefaults

/-!
# Definitions of canonical documents

Merging extensions, building the schema and writing it as a document again all hand names and types
on, so canonical documents are spelled as the grammar asks. What they write anew, the literals of
defaults and the directives of deprecations, can be read back too.
-/

namespace SchemaClasses

/-! ## Declarations -/

/-- An extension only adds parts that are spelled as the grammar asks. -/
theorem TypeBody.isSpelled_extend {body more : TypeBody} (hbody : body.IsSpelled)
    (hmore : more.IsSpelled) : (body.extend more).IsSpelled := by
  unfold extend
  split
  case h_1 | h_2 =>
    exact ⟨List.forall_mem_append.mpr ⟨hbody.1, hmore.1⟩,
      List.forall_mem_append.mpr ⟨hbody.2, hmore.2⟩⟩
  case h_6 => exact hbody
  all_goals exact List.forall_mem_append.mpr ⟨hbody, hmore⟩

namespace Declarations

variable {document : Document}

/-- Declared types are spelled as the grammar asks, whatever their extensions add. -/
theorem isSpelled_ofDocument (h : ∀ d ∈ document, d.IsSpelled) :
    ∀ d ∈ (ofDocument document).types, d.IsSpelled := by
  have hpart : ∀ part, document.IsPart part → part.IsSpelled := fun part hpart =>
    hpart.elim (h _) (h _)
  intro d hd
  refine ⟨?_, ?_⟩
  · obtain ⟨core, hcore, rfl⟩ := Document.exists_of_declared hd
    exact (hpart core (.inl hcore)).name
  · exact Document.forall_declaredTypes (fun _ _ => TypeBody.isSpelled_extend)
      (fun part hmem => (hpart part hmem).body) d hd

/-- Values of enumerations are names, whether these are built in or declared. -/
theorem hasSpelledEnums_ofDocument (h : ∀ d ∈ document, d.IsSpelled) :
    (ofDocument document).HasSpelledEnums := by
  intro name values hnamed value hvalue
  obtain hbuiltIn | ⟨-, hdeclared⟩ := Option.or_eq_some_iff.mp hnamed
  -- The built-in enums are a fixed table.
  · have hall : ∀ entry ∈ BuiltIn.enums, ∀ value ∈ entry.2,
        Text.isIdentifier value ∧ value ∉ ["true", "false", "null"] := by decide
    unfold NamedType.builtIn? at hbuiltIn
    split at hbuiltIn
    case h_6 =>
      split at hbuiltIn
      next => cases hbuiltIn
      next =>
        obtain ⟨found, hfound, heq⟩ := Option.map_eq_some_iff.mp hbuiltIn
        cases heq
        obtain ⟨before, after, henums, -⟩ := List.lookup_eq_some_iff.mp hfound
        exact hall (name, values) (henums ▸ by simp) value hvalue
    all_goals cases hbuiltIn
  · obtain ⟨d, hd, hof⟩ := Option.map_eq_some_iff.mp hdeclared
    have hspelled := (isSpelled_ofDocument h d (List.mem_of_find?_eq_some hd)).body
    unfold NamedType.ofTypeDef at hof
    split at hof
    case h_5 members heq =>
      cases hof
      rw [heq] at hspelled
      obtain ⟨member, hmember, rfl⟩ := List.mem_map.mp hvalue
      exact ⟨(hspelled member hmember).name, (hspelled member hmember).word⟩
    all_goals cases hof

theorem isSpelled_inputFields (h : ∀ d ∈ document, d.IsSpelled) (type : String) :
    ∀ d ∈ (ofDocument document).inputFields type, d.IsSpelled := by
  unfold inputFields
  split
  next fields heq =>
    obtain ⟨d, hd, hbody⟩ := Option.map_eq_some_iff.mp heq
    have hspelled := (isSpelled_ofDocument h d (List.mem_of_find?_eq_some hd)).body
    rw [hbody] at hspelled
    exact hspelled
  next => simp

/-- A field of a declared input type is the one that its name stands for. -/
theorem fieldType_ofDocument (h : document.violations = []) {type : String} :
    ∀ field ∈ (ofDocument document).inputFields type,
      Schema.fieldType (ofDocument document) type field.name = field.type := by
  have hnodup : (((ofDocument document).inputFields type).map (·.name)).Nodup := by
    unfold inputFields
    split
    next fields heq =>
      obtain ⟨d, hd, hbody⟩ := Option.map_eq_some_iff.mp heq
      have hnames := Rules.nodup_fieldNames h d (List.mem_of_find?_eq_some hd)
      rwa [hbody] at hnames
    next => exact List.nodup_nil
  intro field hfield
  rw [Schema.fieldType, Rules.find?_of_nodup hnodup field hfield]
  rfl

end Declarations

namespace Schema

variable {ds : Declarations} {fieldsOf : FieldsOf}

/-! ## Schemas -/

structure Field.IsWritable (ds : Declarations) (d : Field) : Prop where
  name : Text.isIdentifier d.name
  arguments : ∀ argument ∈ d.arguments, argument.IsWritable ds
  type : d.type.IsSpelled Parser.maxDepth

structure EnumValue.IsWritable (d : EnumValue) : Prop where
  name : Text.isIdentifier d.name
  word : d.name ∉ ["true", "false", "null"]

def Body.IsWritable (ds : Declarations) : Body → Prop
  | .scalar _ => True
  | .object parents fields | .interface parents fields =>
    (∀ parent ∈ parents, Text.isIdentifier parent) ∧ ∀ d ∈ fields, d.IsWritable ds
  | .union members => ∀ member ∈ members, Text.isIdentifier member
  | .enum values => ∀ d ∈ values, d.IsWritable
  | .inputObject _ fields => ∀ d ∈ fields, d.IsWritable ds

structure TypeEntry.IsWritable (ds : Declarations) (d : TypeEntry) : Prop where
  name : Text.isIdentifier d.name
  body : d.body.IsWritable ds

structure DirectiveEntry.IsWritable (ds : Declarations) (d : DirectiveEntry) : Prop where
  name : Text.isIdentifier d.name
  arguments : ∀ argument ∈ d.arguments, argument.IsWritable ds
  locations : d.locations ≠ [] ∧ ∀ place ∈ d.locations, place ∈ BuiltIn.directiveLocations

/-! ## Building -/

section Building

variable (henums : ds.HasSpelledEnums)
  (hfieldsOf : ∀ type fields, fieldsOf type = .ok fields → HasWritableFields ds type fields)

include henums hfieldsOf

/-- The default of an input that is used is a value of its type, so what is written for it can be
    read back. -/
theorem Input.isWritable_ofDef {notInput : SchemaError} {d : InputValueDef} {input : Input}
    (hd : d.IsSpelled) (h : Input.ofDef ds fieldsOf notInput d = .ok input) :
    input.IsWritable ds := by
  obtain ⟨value, _, hvalue, -, rfl⟩ := Input.ofDef_eq_ok h
  refine ⟨hd.name, hd.type, fun json hjson => ?_⟩
  obtain rfl : value = some json := hjson
  cases hdefault : d.defaultValue with
  | none =>
    rw [hdefault] at hvalue
    cases hvalue
  | some v =>
    rw [hdefault, Option.elim_some, Value.asDefault] at hvalue
    split at hvalue
    next hof =>
      cases hvalue
      exact isExpressible_ofType henums hfieldsOf v d.type json hof
    next => cases hvalue
    next => cases hvalue

theorem isWritable_argumentsOf {defs : List InputValueDef} {inputs : List Input}
    (hdefs : ∀ d ∈ defs, d.IsSpelled) (h : argumentsOf ds fieldsOf defs = .ok inputs) :
    ∀ input ∈ inputs, input.IsWritable ds :=
  Success.forall_of_mapM h fun d hmem _ => Input.isWritable_ofDef henums hfieldsOf (hdefs d hmem)

/-- What is known of the fields that an input type needs makes its own fields known. -/
theorem hasWritableFields_inputFields {type : String} {fields : List Input}
    (hdefs : ∀ d ∈ ds.inputFields type, d.IsSpelled)
    (htypes : ∀ d ∈ ds.inputFields type, fieldType ds type d.name = d.type)
    (h : inputFields ds fieldsOf type = .ok fields) : HasWritableFields ds type fields := by
  rw [inputFields, Success.mapError_eq_ok] at h
  refine Success.forall_of_mapM h fun d hmem field hfield => ?_
  refine ⟨Input.isWritable_ofDef henums hfieldsOf (hdefs d hmem) hfield, ?_⟩
  obtain ⟨_, _, -, -, rfl⟩ := Input.ofDef_eq_ok hfield
  exact htypes d hmem

theorem Field.isWritable_ofDef {d : FieldDef} {field : Field} (hd : d.IsSpelled)
    (h : Field.ofDef ds fieldsOf d = .ok field) : field.IsWritable ds := by
  simp only [ofDef, Success.bind_eq_ok] at h
  obtain ⟨arguments, harguments, _, -, h⟩ := h
  split at h
  · cases h
    exact ⟨hd.name, isWritable_argumentsOf henums hfieldsOf hd.arguments harguments, hd.type⟩
  · cases h

theorem isWritable_outputFields {type : String} {defs : List FieldDef} {fields : List Field}
    (hdefs : ∀ d ∈ defs, d.IsSpelled) (h : outputFields ds fieldsOf type defs = .ok fields) :
    ∀ field ∈ fields, field.IsWritable ds := by
  rw [outputFields, Success.mapError_eq_ok] at h
  exact Success.forall_of_mapM h fun d hmem _ =>
    Field.isWritable_ofDef henums hfieldsOf (hdefs d hmem)

/-- Using a type hands its names on. -/
theorem Body.isWritable_ofDef {d : TypeDef} {body : Body} (hd : d.body.IsSpelled)
    (h : Body.ofDef ds fieldsOf d = .ok body) : body.IsWritable ds := by
  unfold ofDef at h
  split at h
  case h_1 =>
    obtain ⟨_, -, rfl⟩ := Success.map_eq_ok.mp h
    trivial
  case h_2 parents fields heq | h_3 parents fields heq =>
    simp only [Success.bind_eq_ok, Success.pure_eq_ok] at h
    obtain ⟨_, -, found, hfound, rfl⟩ := h
    rw [heq] at hd
    exact ⟨hd.1, isWritable_outputFields henums hfieldsOf hd.2 hfound⟩
  case h_4 members heq =>
    rw [heq] at hd
    split at h
    · cases h
      exact hd
    · cases h
  case h_5 values heq =>
    obtain ⟨found, hfound, rfl⟩ := Success.map_eq_ok.mp h
    rw [heq] at hd
    refine Success.forall_of_mapM hfound fun value hmem entry hentry => ?_
    simp only [EnumValue.ofDef, Success.bind_eq_ok, Success.pure_eq_ok] at hentry
    obtain ⟨_, -, rfl⟩ := hentry
    exact ⟨(hd value hmem).name, (hd value hmem).word⟩
  case h_6 =>
    obtain ⟨fields, hfields, rfl⟩ := Success.map_eq_ok.mp h
    exact fun field hfield => (hfieldsOf _ _ hfields field hfield).1

theorem TypeEntry.isWritable_ofDef {d : TypeDef} {entry : TypeEntry} (hd : d.IsSpelled)
    (h : TypeEntry.ofDef ds fieldsOf d = .ok entry) : entry.IsWritable ds := by
  simp only [ofDef, Success.bind_eq_ok, Success.pure_eq_ok] at h
  obtain ⟨body, hbody, rfl⟩ := h
  exact ⟨hd.name, Body.isWritable_ofDef henums hfieldsOf hd.body hbody⟩

theorem DirectiveEntry.isWritable_ofDef {d : DirectiveDef} {entry : DirectiveEntry}
    (hd : d.IsSpelled) (h : DirectiveEntry.ofDef ds fieldsOf d = .ok entry) :
    entry.IsWritable ds := by
  simp only [ofDef, Success.bind_eq_ok, Success.pure_eq_ok] at h
  obtain ⟨arguments, harguments, rfl⟩ := h
  exact ⟨hd.name, isWritable_argumentsOf henums hfieldsOf hd.arguments harguments, hd.locations⟩

end Building

/-! ## Root types -/

/-- Root types are named in the schema, or they are declared under conventional names. -/
theorem isIdentifier_roots {document : Document} (h : ∀ d ∈ document, d.IsSpelled) :
    ∀ operation ∈ roots document (Declarations.ofDocument document),
      Text.isIdentifier operation.2 := by
  have hnamed : ∀ operation ∈ (Rules.schemaParts document).flatMap (·.operations),
      Text.isIdentifier operation.2 := by
    intro operation hmem
    obtain ⟨part, hpart, hoperation⟩ := List.mem_flatMap.mp hmem
    obtain ⟨definition, hdefinition, heq⟩ := List.mem_filterMap.mp hpart
    split at heq
    · cases heq
      exact (h _ hdefinition).2 operation hoperation
    · cases heq
      exact h _ hdefinition operation hoperation
    · cases heq
  have hconventional : ∀ operation ∈ conventionalRoots (Declarations.ofDocument document),
      Text.isIdentifier operation.2 := by
    intro operation hmem
    obtain ⟨kind, -, heq⟩ := List.mem_filterMap.mp hmem
    obtain ⟨d, hd, rfl⟩ := Option.map_eq_some_iff.mp heq
    exact (Declarations.isSpelled_ofDocument h d (List.mem_of_find?_eq_some hd)).name
  -- A root is named by a schema definition, or found by its conventional name.
  intro operation hmem
  obtain ⟨kind, -, hfound⟩ := List.mem_filterMap.mp hmem
  have hcandidate := List.mem_of_find?_eq_some hfound
  split at hcandidate
  · exact hnamed operation hcandidate
  · exact (List.mem_append.mp hcandidate).elim (hconventional operation) (hnamed operation)

/-- Where the schema is defined there are root types. -/
theorem roots_ne_nil {document : Document} {d : SchemaDef} (hd : .schema d ∈ document)
    (hsome : d.operations ≠ []) : roots document ds ≠ [] := by
  obtain ⟨operation, rest, hoperations⟩ := List.exists_cons_of_ne_nil hsome
  have hnamed : operation ∈ (Rules.schemaParts document).flatMap (·.operations) :=
    List.mem_flatMap.mpr ⟨d, List.mem_filterMap.mpr ⟨_, hd, rfl⟩, hoperations ▸ List.mem_cons_self⟩
  have hkind : operation.1 ∈ [OperationKind.query, .mutation, .subscription] := by
    cases operation.1 <;> decide
  obtain ⟨found, hfound⟩ : ∃ found,
      ((Rules.schemaParts document).flatMap (·.operations)).find? (·.1 = operation.1) =
        some found :=
    Option.isSome_iff_exists.mp (List.find?_isSome.mpr ⟨operation, hnamed, by simp⟩)
  have hroot : found ∈ roots document ds := by
    refine List.mem_filterMap.mpr ⟨operation.1, hkind, ?_⟩
    split
    next => exact hfound
    next hnone => exact absurd (List.any_eq_true.mpr ⟨_, hd, rfl⟩) hnone
  exact List.ne_nil_of_mem hroot

/-- Only a definition of the schema can describe it. -/
theorem exists_of_descriptionOf {document : Document} (h : (descriptionOf document).isSome) :
    ∃ d, .schema d ∈ document := by
  obtain ⟨text, htext⟩ := Option.isSome_iff_exists.mp h
  obtain ⟨d, hd, -⟩ := Option.bind_eq_some_iff.mp htext
  obtain ⟨definition, hmem, heq⟩ := List.mem_filterMap.mp (List.mem_of_mem_head? hd)
  split at heq
  · cases heq
    exact ⟨d, hmem⟩
  · cases heq

/-! ## Documents -/

/-- A schema as a definition can be written for each of its parts. -/
structure IsWritable (ds : Declarations) (schema : Schema) : Prop where
  operations : ∀ operation ∈ schema.operations, Text.isIdentifier operation.2
  /-- A schema that is described has been defined. -/
  described : schema.description.isSome → schema.operations ≠ []
  directives : ∀ d ∈ schema.directives, d.IsWritable ds
  types : ∀ d ∈ schema.types, d.IsWritable ds

/-- The schema of a spelled document that keeps to the rules can be written as a document. -/
theorem isWritable_ofDocument {document : Document} (hspelled : ∀ d ∈ document, d.IsSpelled)
    (hrules : document.violations = []) {schema : Schema} (h : ofDocument document = .ok schema) :
    schema.IsWritable (Declarations.ofDocument document) := by
  have henums := Declarations.hasSpelledEnums_ofDocument hspelled
  -- The fields of an input type are known before those of the types that use it.
  have hfieldsOf : (FieldTable.ofDeclarations (Declarations.ofDocument document)).Knows
      (HasWritableFields (Declarations.ofDocument document)) :=
    FieldTable.knows_ofDeclarations fun fieldsOf type fields hearlier =>
      hasWritableFields_inputFields henums hearlier
        (Declarations.isSpelled_inputFields hspelled type)
        (Declarations.fieldType_ofDocument hrules)
  simp only [ofDocument, Success.bind_eq_ok, Success.pure_eq_ok] at h
  obtain ⟨_, -, directives, hdirectives, types, htypes, rfl⟩ := h
  refine ⟨isIdentifier_roots hspelled, fun hsome => ?_, ?_, ?_⟩
  · obtain ⟨d, hd⟩ := exists_of_descriptionOf hsome
    exact roots_ne_nil hd (hspelled _ hd).1
  · refine Success.forall_of_mapM hdirectives fun d hmem _ => ?_
    obtain ⟨definition, hdefinition, heq⟩ := List.mem_filterMap.mp hmem
    split at heq
    · cases heq
      exact DirectiveEntry.isWritable_ofDef henums hfieldsOf (hspelled _ hdefinition)
    · cases heq
  · exact Success.forall_of_mapM htypes fun d hmem _ => TypeEntry.isWritable_ofDef henums hfieldsOf
      (Declarations.isSpelled_ofDocument hspelled d hmem)

/-! ## Writing -/

theorem isWritable_textDirective {name argument text : String} (hname : Text.isIdentifier name)
    (hargument : Text.isIdentifier argument) :
    Directive.IsWritable ⟨name, [⟨argument, .string text false, 0⟩], 0⟩ := by
  refine ⟨hname, List.forall_mem_singleton.mpr ⟨hargument, .string text, ?_⟩⟩
  exact Nat.zero_le _

/-- A deprecation can be written, whatever its reason. -/
theorem isWritable_deprecatedDirective (reason : Option String) :
    ∀ d ∈ deprecatedDirective reason, d.IsWritable := by
  unfold deprecatedDirective
  split
  next => simp
  next text =>
    refine List.forall_mem_singleton.mpr ?_
    split
    next => exact ⟨by decide, by simp⟩
    next => exact isWritable_textDirective (by decide) (by decide)

theorem Body.isWritable_directives (body : Body) : ∀ d ∈ body.directives, d.IsWritable := by
  unfold Body.directives
  split
  next url => exact List.forall_mem_singleton.mpr (isWritable_textDirective (by decide) (by decide))
  next => exact List.forall_mem_singleton.mpr ⟨by decide, by simp⟩
  next => simp

theorem Input.IsWritable.toDef {d : Input} (hd : d.IsWritable ds) {definition : InputValueDef}
    (h : d.toDef ds = .ok definition) : definition.IsWritable := by
  unfold Input.toDef at h
  cases hdefault : d.defaultValue with
  | none =>
    simp only [hdefault, Success.bind_eq_ok, Success.pure_eq_ok] at h
    obtain ⟨_, rfl, rfl⟩ := h
    refine ⟨⟨hd.name, hd.type⟩, fun w hw => ?_, isWritable_deprecatedDirective _⟩
    cases hw
  | some value =>
    simp only [hdefault, Success.bind_eq_ok, Success.pure_eq_ok, Success.map_eq_ok] at h
    obtain ⟨_, ⟨v, hv, rfl⟩, rfl⟩ := h
    refine ⟨⟨hd.name, hd.type⟩, fun w hw => ?_, isWritable_deprecatedDirective _⟩
    obtain rfl := Option.some.inj hw
    exact hd.defaultValue value hdefault v hv

theorem Field.IsWritable.toDef {d : Field} (hd : d.IsWritable ds) {definition : FieldDef}
    (h : d.toDef ds = .ok definition) : definition.IsWritable := by
  simp only [Field.toDef, Success.bind_eq_ok, Success.pure_eq_ok] at h
  obtain ⟨arguments, harguments, rfl⟩ := h
  have hall := Success.forall_of_mapM harguments fun d hmem _ => (hd.arguments d hmem).toDef
  exact ⟨hd.name, hall, hd.type, isWritable_deprecatedDirective _⟩

theorem Body.IsWritable.toDef {d : Body} (hd : d.IsWritable ds) {body : TypeBody}
    (h : d.toDef ds = .ok body) : body.IsWritable := by
  cases d with
  | scalar =>
    cases h
    trivial
  | union members =>
    cases h
    exact hd
  | enum values =>
    cases h
    refine List.forall_mem_map.mpr fun value hmem => ?_
    exact ⟨⟨(hd value hmem).name, (hd value hmem).word⟩, isWritable_deprecatedDirective _⟩
  | object parents fields | interface parents fields =>
    obtain ⟨defs, hdefs, rfl⟩ := Success.map_eq_ok.mp h
    exact ⟨hd.1, Success.forall_of_mapM hdefs fun d hmem _ => (hd.2 d hmem).toDef⟩
  | inputObject oneOf fields =>
    obtain ⟨defs, hdefs, rfl⟩ := Success.map_eq_ok.mp h
    exact Success.forall_of_mapM hdefs fun d hmem _ => (hd d hmem).toDef

theorem TypeEntry.IsWritable.toDef {d : TypeEntry} (hd : d.IsWritable ds) {definition : TypeDef}
    (h : d.toDef ds = .ok definition) : definition.IsWritable := by
  simp only [TypeEntry.toDef, Success.bind_eq_ok, Success.pure_eq_ok] at h
  obtain ⟨body, hbody, rfl⟩ := h
  exact ⟨hd.name, Body.isWritable_directives d.body, hd.body.toDef hbody⟩

theorem DirectiveEntry.IsWritable.toDef {d : DirectiveEntry} (hd : d.IsWritable ds)
    {definition : DirectiveDef} (h : d.toDef ds = .ok definition) : definition.IsWritable := by
  simp only [DirectiveEntry.toDef, Success.bind_eq_ok, Success.pure_eq_ok] at h
  obtain ⟨arguments, harguments, rfl⟩ := h
  have hall := Success.forall_of_mapM harguments fun d hmem _ => (hd.arguments d hmem).toDef
  exact ⟨hd.name, hall, hd.locations⟩

/-- A definition of the schema that does not go without saying names a root type. -/
theorem IsWritable.schemaDefs {schema : Schema} (h : schema.IsWritable ds) :
    ∀ d ∈ schemaDefs schema, d.IsWritable := by
  unfold Schema.schemaDefs
  dsimp only
  split
  next => simp
  next hsaid =>
    refine List.forall_mem_singleton.mpr ⟨by simp, fun hnone => ?_, h.operations⟩
    have hnone : schema.operations = [] := hnone
    cases hdescription : schema.description with
    | none => simp [hdescription, hnone] at hsaid
    | some text => exact h.described (by simp [hdescription]) hnone

/-- All definitions that are written for such a schema can be read back. -/
theorem IsWritable.toDocument {schema : Schema} (h : schema.IsWritable ds) {document : Document}
    (hdocument : schema.toDocument ds = .ok document) : ∀ d ∈ document, d.IsWritable := by
  simp only [Schema.toDocument, Success.bind_eq_ok, Success.pure_eq_ok] at hdocument
  obtain ⟨directives, hdirectives, types, htypes, rfl⟩ := hdocument
  rw [List.forall_mem_append, List.forall_mem_append, List.forall_mem_map, List.forall_mem_map]
  refine ⟨⟨h.schemaDefs, ?_⟩, ?_⟩
  · exact Success.forall_of_mapM hdirectives fun d hmem _ =>
      (h.directives d (List.mem_filter.mp hmem).1).toDef
  · exact Success.forall_of_mapM htypes fun d hmem _ => (h.types d hmem).toDef

end Schema

/-! ## Canonical documents -/

/-- What is written anew from a document can be read back. -/
theorem Document.isWritable_rebuilt {document result : Document}
    (hspelled : ∀ d ∈ document, d.IsSpelled) (h : document.rebuilt = .ok result) :
    ∀ d ∈ result, d.IsWritable := by
  obtain ⟨hrules, schema, hschema, hresult⟩ := rebuilt_eq_ok h
  exact (Schema.isWritable_ofDocument hspelled hrules hschema).toDocument hresult

/-- The names that become part of the generated code are identifiers in the canonical document of
    every text that has one. -/
theorem Document.wellNamed_of_ofText {text : String} {document : Document}
    (h : Document.ofText text = .ok document) : document.wellNamed := by
  simp only [Document.ofText, Success.bind_eq_ok, Success.mapError_eq_ok] at h
  obtain ⟨written, hwritten, hcanonical⟩ := h
  have hwritable := isWritable_rebuilt (isSpelled_of_parse hwritten) (canonical_eq_ok hcanonical).1
  exact List.all_eq_true.mpr fun d hd => (hwritable d hd).spelled.wellNamed

end SchemaClasses
