import SchemaClasses.Proofs.Success
import SchemaClasses.Schema.Canonical

/-!
# Parts of canonical documents

What becomes of each declaration on its way through the schema into the canonical document: names,
types and descriptions stay, a default is read as a value of its type and written as a literal
again, and of the directives only what they say of a deprecation is left.
-/

namespace SchemaClasses

/-! ## Parts of types -/

/-- A default and what it is in the canonical document: nothing if it does not fit its type, else
    its value as a literal. -/
inductive CanonicalDefault (ds : Declarations) (type : TypeRef) :
    Option Value → Option Value → Prop
  | none : CanonicalDefault ds type none none
  | unfit {fieldsOf v} (h : Value.asDefault ds fieldsOf type v = .ok none) :
      CanonicalDefault ds type (some v) none
  | fit {fieldsOf v value literal} (h : Value.asDefault ds fieldsOf type v = .ok (some value))
      (hliteral : Schema.literal ds value type = .ok literal) :
      CanonicalDefault ds type (some v) (some literal)

/-- The directives of a declaration and those in the canonical document. -/
def CanonicalDeprecation (written canonical : List Directive) : Prop :=
  ∃ reason, Schema.deprecationReason written = .ok reason ∧
    canonical = Schema.deprecatedDirective reason

/-- An argument or an input field, and what it is in the canonical document. -/
structure CanonicalInput (ds : Declarations) (written canonical : InputValueDef) : Prop where
  description : canonical.description = written.description
  name : canonical.name = written.name
  type : canonical.type = written.type
  defaultValue : CanonicalDefault ds written.type written.defaultValue canonical.defaultValue
  directives : CanonicalDeprecation written.directives canonical.directives

/-- A field of an object or interface type, and what it is in the canonical document. -/
structure CanonicalField (ds : Declarations) (written canonical : FieldDef) : Prop where
  description : canonical.description = written.description
  name : canonical.name = written.name
  arguments : List.Forall₂ (CanonicalInput ds) written.arguments canonical.arguments
  type : canonical.type = written.type
  directives : CanonicalDeprecation written.directives canonical.directives

/-- The body of a type of a name, and what it is in the canonical document. The fields of input
    types are looked up by the name. -/
inductive CanonicalBody (ds : Declarations) (name : String) : TypeBody → TypeBody → Prop
  | scalar : CanonicalBody ds name .scalar .scalar
  | object {parents fields canonical} (h : List.Forall₂ (CanonicalField ds) fields canonical) :
      CanonicalBody ds name (.object parents fields) (.object parents canonical)
  | interface {parents fields canonical} (h : List.Forall₂ (CanonicalField ds) fields canonical) :
      CanonicalBody ds name (.interface parents fields) (.interface parents canonical)
  | union (members : List String) : CanonicalBody ds name (.union members) (.union members)
  | enum {values canonical : List EnumValueDef}
      (h : canonical.map (·.name) = values.map (·.name)) :
      CanonicalBody ds name (.enum values) (.enum canonical)
  | inputObject {fields canonical}
      (h : List.Forall₂ (CanonicalInput ds) (ds.inputFields name) canonical) :
      CanonicalBody ds name (.inputObject fields) (.inputObject canonical)

/-- A type, and what it is in the canonical document. -/
structure CanonicalType (ds : Declarations) (written canonical : TypeDef) : Prop where
  description : canonical.description = written.description
  name : canonical.name = written.name
  body : CanonicalBody ds written.name written.body canonical.body

namespace Schema

variable {ds : Declarations} {fieldsOf : FieldsOf}

/-! ## Arguments and fields -/

/-- An input is used under the name and with the type as written, and its default is a value of the
    type. -/
theorem Input.ofDef_eq_ok {notInput : SchemaError} {written : InputValueDef} {d : Input}
    (h : Input.ofDef ds fieldsOf notInput written = .ok d) :
    ∃ value reason,
      written.defaultValue.elim (.ok none) (·.asDefault ds fieldsOf written.type) = .ok value ∧
      deprecationReason written.directives = .ok reason ∧
      d = ⟨written.description, written.name, written.type, value, reason⟩ := by
  unfold Input.ofDef at h
  cases hdefault : written.defaultValue
  all_goals
    simp only [hdefault, Success.bind_eq_ok, Success.pure_eq_ok] at h
    obtain ⟨value, hvalue, reason, hreason, h⟩ := h
    split at h
    next =>
      cases h
      first
        | exact ⟨value, reason, hvalue, hreason, rfl⟩
        | exact ⟨value, reason, congrArg _ hvalue, hreason, rfl⟩
    next => cases h

/-- Using an argument or an input field and writing it again gives its canonical form. -/
theorem canonicalInput_of_steps {notInput : SchemaError} {written canonical : InputValueDef}
    {d : Input} (hbuild : Input.ofDef ds fieldsOf notInput written = .ok d)
    (hwrite : d.toDef ds = .ok canonical) : CanonicalInput ds written canonical := by
  obtain ⟨value, reason, hvalue, hreason, rfl⟩ := Input.ofDef_eq_ok hbuild
  cases value with
  | none =>
    simp only [Input.toDef, Success.bind_eq_ok, Success.pure_eq_ok] at hwrite
    obtain ⟨_, rfl, rfl⟩ := hwrite
    refine ⟨rfl, rfl, rfl, ?_, reason, hreason, rfl⟩
    cases hdefault : written.defaultValue with
    | none => exact .none
    | some v =>
      rw [hdefault] at hvalue
      exact .unfit hvalue
  | some json =>
    simp only [Input.toDef, Success.bind_eq_ok, Success.pure_eq_ok, Success.map_eq_ok] at hwrite
    obtain ⟨_, ⟨literal, hliteral, rfl⟩, rfl⟩ := hwrite
    refine ⟨rfl, rfl, rfl, ?_, reason, hreason, rfl⟩
    cases hdefault : written.defaultValue with
    | none =>
      rw [hdefault] at hvalue
      cases hvalue
    | some v =>
      rw [hdefault] at hvalue
      exact .fit hvalue hliteral

/-- The arguments of a field become canonical one by one. -/
theorem canonicalField_of_steps {written canonical : FieldDef} {d : Field}
    (hbuild : Field.ofDef ds fieldsOf written = .ok d) (hwrite : d.toDef ds = .ok canonical) :
    CanonicalField ds written canonical := by
  simp only [Field.ofDef, argumentsOf, Success.bind_eq_ok] at hbuild
  obtain ⟨arguments, harguments, reason, hreason, hbuild⟩ := hbuild
  split at hbuild
  next =>
    cases hbuild
    simp only [Field.toDef, Success.bind_eq_ok, Success.pure_eq_ok] at hwrite
    obtain ⟨canonicalArguments, hcanonical, rfl⟩ := hwrite
    exact ⟨rfl, rfl,
      Success.forall₂_of_mapM_mapM harguments hcanonical fun _ _ _ _ => canonicalInput_of_steps,
      rfl, reason, hreason, rfl⟩
  next => cases hbuild

/-! ## Fields of input types -/

namespace FieldTable

/-- What the table knows of the fields of types is as `P` says. -/
def Knows (table : FieldTable) (P : String → List Input → Prop) : Prop :=
  ∀ type fields, table.fieldsOf type = .ok fields → P type fields

variable {P : String → List Input → Prop} (hbuild : ∀ fieldsOf type fields,
  (∀ type fields, fieldsOf type = .ok fields → P type fields) →
    inputFields ds fieldsOf type = .ok fields → P type fields)

theorem Knows.cons {table : FieldTable} (h : table.Knows P) {type : String}
    {found : Except SchemaError (List Input)}
    (hfound : ∀ fields, found = .ok fields → P type fields) :
    Knows ((type, found) :: table) P := by
  intro name fields hfields
  rw [fieldsOf, List.lookup_cons] at hfields
  by_cases hname : name = type
  · subst hname
    simp only [beq_self_eq_true, Option.getD_some] at hfields
    exact hfound fields hfields
  · rw [beq_false_of_ne hname] at hfields
    exact h name fields hfields

include hbuild

/-- If fields are as `P` says once those that they need are, this is kept when a type is added. -/
theorem Knows.add {table : FieldTable} (h : table.Knows P) (type : String) :
    (table.add ds type).Knows P := by
  unfold FieldTable.add
  split
  next fields hfields =>
    refine h.cons fun found hfound => ?_
    cases hfound
    exact hbuild table.fieldsOf type fields h hfields
  next =>
    split
    next => exact h
    next => exact h.cons fun found hfound => nomatch hfound

theorem Knows.foldl_add {types : List String} {table : FieldTable} (h : table.Knows P) :
    (types.foldl (FieldTable.add ds) table).Knows P := by
  induction types generalizing table with
  | nil => exact h
  | cons type rest ih => exact ih (h.add hbuild type)

/-- However many rounds it takes, it is kept in each of them. -/
theorem Knows.addAll (fuel : Nat) {table : FieldTable} (h : table.Knows P) (types : List String) :
    (FieldTable.addAll ds fuel table types).Knows P := by
  induction fuel generalizing table types with
  | zero => exact h
  | succ fuel ih =>
    unfold FieldTable.addAll
    dsimp only
    split
    next => exact ih (h.foldl_add hbuild) _
    next => exact h.foldl_add hbuild

/-- What fields have if those have it that they were built with, all fields of input types have. -/
theorem knows_ofDeclarations : (ofDeclarations ds).Knows P := by
  have hempty : Knows [] P := fun _ _ hfields => by cases hfields
  exact hempty.addAll hbuild _ _

end FieldTable

/-! ## Types -/

theorem canonicalFields_of_steps {type : String} {written canonical : List FieldDef}
    {fields : List Field} (hbuild : outputFields ds fieldsOf type written = .ok fields)
    (hwrite : fields.mapM (Field.toDef ds) = .ok canonical) :
    List.Forall₂ (CanonicalField ds) written canonical := by
  rw [outputFields, Success.mapError_eq_ok] at hbuild
  exact Success.forall₂_of_mapM_mapM hbuild hwrite fun _ _ _ _ => canonicalField_of_steps

theorem canonicalInputs_of_steps {type : String} {canonical : List InputValueDef}
    {fields : List Input} (hbuild : inputFields ds fieldsOf type = .ok fields)
    (hwrite : fields.mapM (Input.toDef ds) = .ok canonical) :
    List.Forall₂ (CanonicalInput ds) (ds.inputFields type) canonical := by
  rw [inputFields, Success.mapError_eq_ok] at hbuild
  exact Success.forall₂_of_mapM_mapM hbuild hwrite fun _ _ _ _ => canonicalInput_of_steps

theorem map_name_toDef {written : List EnumValueDef} {values : List EnumValue}
    (h : written.mapM EnumValue.ofDef = .ok values) :
    (values.map EnumValue.toDef).map (·.name) = written.map (·.name) := by
  rw [Success.mapM_eq_ok] at h
  induction h with
  | nil => rfl
  | cons hhead _ ih =>
    simp only [EnumValue.ofDef, Success.bind_eq_ok, Success.pure_eq_ok] at hhead
    obtain ⟨_, -, rfl⟩ := hhead
    rw [List.map_cons, List.map_cons, List.map_cons, ih]
    rfl

variable (hfieldsOf : ∀ type fields, fieldsOf type = .ok fields →
  ∃ earlier, inputFields ds earlier type = .ok fields)

include hfieldsOf in
/-- The kind of a type stays, and so do the parts that hold no inputs. -/
theorem canonicalBody_of_steps {written : TypeDef} {body : Body} {canonical : TypeBody}
    (hbuild : Body.ofDef ds fieldsOf written = .ok body) (hwrite : body.toDef ds = .ok canonical) :
    CanonicalBody ds written.name written.body canonical := by
  unfold Body.ofDef at hbuild
  split at hbuild
  case h_1 heq =>
    obtain ⟨_, -, rfl⟩ := Success.map_eq_ok.mp hbuild
    cases hwrite
    rw [heq]
    exact .scalar
  case h_2 parents fields heq =>
    simp only [Success.bind_eq_ok, Success.pure_eq_ok] at hbuild
    obtain ⟨_, -, found, hfound, rfl⟩ := hbuild
    obtain ⟨defs, hdefs, rfl⟩ := Success.map_eq_ok.mp hwrite
    rw [heq]
    exact .object (canonicalFields_of_steps hfound hdefs)
  case h_3 parents fields heq =>
    simp only [Success.bind_eq_ok, Success.pure_eq_ok] at hbuild
    obtain ⟨_, -, found, hfound, rfl⟩ := hbuild
    obtain ⟨defs, hdefs, rfl⟩ := Success.map_eq_ok.mp hwrite
    rw [heq]
    exact .interface (canonicalFields_of_steps hfound hdefs)
  case h_4 members heq =>
    split at hbuild
    next =>
      cases hbuild
      cases hwrite
      rw [heq]
      exact .union members
    next => cases hbuild
  case h_5 values heq =>
    obtain ⟨found, hfound, rfl⟩ := Success.map_eq_ok.mp hbuild
    cases hwrite
    rw [heq]
    exact .enum (map_name_toDef hfound)
  case h_6 fields heq =>
    obtain ⟨found, hfound, rfl⟩ := Success.map_eq_ok.mp hbuild
    obtain ⟨defs, hdefs, rfl⟩ := Success.map_eq_ok.mp hwrite
    -- The fields were built when the type was added to the table, from the defaults known then.
    obtain ⟨earlier, hearlier⟩ := hfieldsOf _ _ hfound
    rw [heq]
    exact .inputObject (canonicalInputs_of_steps hearlier hdefs)

include hfieldsOf in
theorem canonicalType_of_steps {written canonical : TypeDef} {d : TypeEntry}
    (hbuild : TypeEntry.ofDef ds fieldsOf written = .ok d) (hwrite : d.toDef ds = .ok canonical) :
    CanonicalType ds written canonical := by
  simp only [TypeEntry.ofDef, Success.bind_eq_ok, Success.pure_eq_ok] at hbuild
  obtain ⟨body, hbody, rfl⟩ := hbuild
  simp only [TypeEntry.toDef, Success.bind_eq_ok, Success.pure_eq_ok] at hwrite
  obtain ⟨canonicalBody, hcanonical, rfl⟩ := hwrite
  exact ⟨rfl, rfl, canonicalBody_of_steps hfieldsOf hbody hcanonical⟩

/-- The types of a schema are those of its document. -/
theorem typeDefs_toDocument {schema : Schema} {document : Document}
    (h : schema.toDocument ds = .ok document) :
    schema.types.mapM (TypeEntry.toDef ds) = .ok (Rules.typeDefs document) := by
  simp only [toDocument, Success.bind_eq_ok, Success.pure_eq_ok] at h
  obtain ⟨directives, -, types, htypes, rfl⟩ := h
  have hfirst : Rules.typeDefs (schemaDefs schema) = [] := by
    unfold schemaDefs
    dsimp only
    split <;> rfl
  have hdirectives : Rules.typeDefs (directives.map .directive) = [] := by
    simp [Rules.typeDefs, List.filterMap_map]
  have hall : Rules.typeDefs (types.map .type) = types := by
    simp [Rules.typeDefs, List.filterMap_map]
  rw [htypes]
  simp only [Rules.typeDefs, List.filterMap_append] at hfirst hdirectives hall ⊢
  rw [hfirst, hdirectives, hall, List.nil_append, List.nil_append]

end Schema

/-! ## Documents -/

/-- Only a document that keeps to the rules and declares a schema is written anew. -/
theorem Document.rebuilt_eq_ok {document result : Document} (h : document.rebuilt = .ok result) :
    document.violations = [] ∧ ∃ schema, Schema.ofDocument document = .ok schema ∧
      schema.toDocument (Declarations.ofDocument document) = .ok result := by
  unfold Document.rebuilt at h
  dsimp only at h
  split at h
  next hrules =>
    simp only [Success.bind_eq_ok, Success.mapError_eq_ok] at h
    exact ⟨List.isEmpty_iff.mp hrules, h⟩
  next => cases h

/-- A canonical document is one that was written anew and can be read back. -/
theorem Document.canonical_eq_ok {document canonical : Document}
    (h : document.canonical = .ok canonical) :
    document.rebuilt = .ok canonical ∧ canonical.checkReadable = .ok () := by
  simp only [Document.canonical, Success.bind_eq_ok, Success.pure_eq_ok] at h
  obtain ⟨result, hresult, _, hreadable, rfl⟩ := h
  exact ⟨hresult, hreadable⟩

/-- The types of a canonical document are those that the document declares, in order. -/
theorem Document.canonicalTypes {document canonical : Document}
    (h : document.canonical = .ok canonical) :
    document.violations = [] ∧
      List.Forall₂ (CanonicalType (Declarations.ofDocument document)) document.declaredTypes
        (Rules.typeDefs canonical) := by
  obtain ⟨hrules, schema, hschema, hresult⟩ := rebuilt_eq_ok (canonical_eq_ok h).1
  simp only [Schema.ofDocument, Success.bind_eq_ok, Success.pure_eq_ok] at hschema
  obtain ⟨_, -, directives, -, types, htypes, rfl⟩ := hschema
  refine ⟨hrules, ?_⟩
  exact Success.forall₂_of_mapM_mapM htypes (Schema.typeDefs_toDocument hresult) fun _ _ _ _ =>
    Schema.canonicalType_of_steps (Schema.FieldTable.knows_ofDeclarations fun fieldsOf _ _ _ h =>
      ⟨fieldsOf, h⟩)

end SchemaClasses
