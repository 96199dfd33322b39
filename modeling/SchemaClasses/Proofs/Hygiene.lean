import SchemaClasses.Proofs.Bindings
import SchemaClasses.Proofs.ClosedLines

/-!
# Hygiene

Which names a module binds, and when none of them takes the place of a name that the code relies on.
The names of types are bound as they are, so a module is hygienic only if the schema has no type
that is called like a keyword or like a name that the module needs from the class library.
-/

namespace SchemaClasses

open Text (Binding Binds LineBinds isIdentifier)

/-! ## Hygienic code -/

/-- Within classes, code calls these two classes of the library. -/
def Text.IsCalled (name : String) : Prop :=
  name = "Field" ∨ name = "Argument"

instance (name : String) : Decidable (Text.IsCalled name) :=
  inferInstanceAs (Decidable (name = "Field" ∨ name = "Argument"))

/-- The name does not stand in for another that the code relies on: in the module it is no keyword
    and no name that is needed from the class library, and within a class it is none that is called
    there. -/
structure Text.Binding.IsClear (needed : List Import) (b : Binding) : Prop where
  outer : b.depth = 0 → isKeyword b.name = false ∧ ∀ i ∈ needed, b.name ≠ i.text
  inner : b.depth ≠ 0 → ¬ IsCalled b.name

/-- No name that the code binds stands in for one that it relies on. -/
def Text.Hygienic (code : Text) (needed : List Import) : Prop :=
  ∀ b ∈ bindings code, b.IsClear needed

/-! ## What definitions bind -/

/-- The names that the class of a type binds. -/
def TypeBody.bindings (config : Config) (body : TypeBody) : List Binding :=
  match body with
  | .scalar => [⟨0, "serialize"⟩]
  | .union [] | .enum _ => []
  | .union (_ :: _) => [⟨0, "Meta"⟩, ⟨4, "types"⟩]
  | .object .. | .interface .. | .inputObject _ =>
    (Assignment.freshNames (body.fieldNames.map (Field.codeName config))).map (Binding.mk 0)

/-- The names that a type binds: its own in the module, then those of its class. -/
def TypeDef.bindings (config : Config) (d : TypeDef) : List Binding :=
  ⟨0, d.name⟩ :: (d.body.bindings config).map (Binding.within 4)

/-- The type that a definition becomes code for, if it is not left out. -/
def Definition.kept? (config : Config) : Definition → Option TypeDef
  | .type d =>
    match config.ignores d.name with
    | .ok false => some d
    | _ => none
  | _ => none

/-- The types of a document that are not left out. -/
def Document.keptTypes (config : Config) (document : Document) : List TypeDef :=
  document.filterMap (Definition.kept? config)

theorem Document.keptTypes_cons (config : Config) (definition : Definition) (rest : Document) :
    Document.keptTypes config (definition :: rest) =
      (definition.kept? config).toList ++ Document.keptTypes config rest := by
  rw [keptTypes, keptTypes, List.filterMap_cons]
  cases definition.kept? config <;> rfl

/-! ## Blocks -/

namespace Fragment

/-- The lines of a class after its head bind what those of its body bind. -/
theorem lineBinds_inner (description : String) {body : List Text} {bound : List (List Binding)}
    (hbody : List.Forall₂ LineBinds body bound) :
    let docs : List Text := if description.isEmpty then [] else [Text.docstring description]
    let inner := docs ++ body
    ∃ all, List.Forall₂ LineBinds (if inner.isEmpty then [("pass" : Text)] else inner) all ∧
      all.flatten = bound.flatten := by
  intro docs inner
  -- A docstring is a line that binds nothing, and so is the one of an empty body.
  have hinner : ∃ all, List.Forall₂ LineBinds inner all ∧ all.flatten = bound.flatten := by
    by_cases hempty : description.isEmpty
    · exact ⟨bound, by simpa [inner, docs, hempty] using hbody, rfl⟩
    · exact ⟨[] :: bound, by simpa [inner, docs, hempty] using ⟨.docstring description, hbody⟩, rfl⟩
  split
  case isFalse => exact hinner
  case isTrue hnil =>
    obtain ⟨all, hall, hflatten⟩ := hinner
    rw [List.isEmpty_iff.mp hnil, List.forall₂_nil_left_iff] at hall
    have hpass : LineBinds "pass" [] := .line (by simp) ⟨'p', _, rfl, by simp, by simp⟩
    exact ⟨[[]], .cons hpass .nil, by rw [← hflatten, hall]; rfl⟩

/-- A class binds its name, and within it what its lines bind. -/
theorem binds_classBlock {name : String} (hname : isIdentifier name) (base : Import)
    (description : String) {body : List Text} {bound : List (List Binding)}
    (hbody : List.Forall₂ LineBinds body bound) :
    Binds (classBlock name base description body)
      (⟨0, name⟩ :: bound.flatten.map (Binding.within 4)) := by
  have hhead : LineBinds ("class " ++ name ++ ("(" ++ base.text ++ "):") : String)
      [⟨0, name⟩] := by
    refine .classHead hname ?_ ?_
    · rw [String.toList_append, String.toList_append]
      exact Text.stops_cons rfl _
    · cases base <;> simp [Import.text]
  obtain ⟨all, hlines, hall⟩ := lineBinds_inner description hbody
  have hclass : List.Forall₂ LineBinds (classLines name base description body)
      ([⟨0, name⟩] :: all.map (List.map (Binding.within 4))) := by
    refine .cons (by simpa only [String.append_assoc] using hhead) ?_
    rw [List.forall₂_map_left_iff, List.forall₂_map_right_iff]
    exact hlines.imp fun _ _ h => h.indented
  have hblock := (Binds.lines (List.cons_ne_nil _ _) hclass).append .emptyLine
  rw [List.flatten_cons, ← List.map_flatten, hall, List.append_nil, Text.append_assoc] at hblock
  exact hblock

/-- An enumeration binds its name. -/
theorem binds_enumBlock {name : String} (hname : isIdentifier name) (description : String)
    (values : List String) : Binds (enumBlock name description values) [⟨0, name⟩] := by
  have hclosed := (closedLine_enum hname description values).closed.oneLine
  have hline : LineBinds (name ++ " = " ++ (enumCall name description values).render) [⟨0, name⟩] :=
    .assignment hname fun c hc => (hclosed c (by simp [hc])).1
  have hblock := hline.binds.append .emptyLine
  rwa [List.append_nil, Text.append_assoc] at hblock

/-- The class of a union binds a class within, which binds the members. -/
theorem unionBody_cons (member : String) (rest : List String) : ∃ value : Text,
    unionBody (member :: rest) = [("class Meta:" : Text), indent ("types" ++ " = " ++ value)] := by
  cases rest with
  | nil =>
    refine ⟨("(lambda: " ++ member ++ ",)" : String), ?_⟩
    simp [unionBody, indent, Text.ext_iff]
  | cons second more =>
    let members := (member :: second :: more).map ("lambda: " ++ ·)
    refine ⟨("(" ++ Text.joinWith ", " members ++ ")" : String), ?_⟩
    simp [unionBody, indent, members, Text.ext_iff]

/-- A union with members binds the class that lists them, and the list within it. -/
theorem lineBinds_unionBody (config : Config) {members : List String}
    (h : ∀ member ∈ members, isIdentifier member) : ∃ bound,
      List.Forall₂ LineBinds (unionBody members) bound ∧
        bound.flatten = (TypeBody.union members).bindings config := by
  cases members with
  | nil => exact ⟨[], .nil, rfl⟩
  | cons member rest =>
    obtain ⟨value, hbody⟩ := unionBody_cons member rest
    have hclosed := closedLine_unionBody h
    rw [hbody, List.tail_cons, List.forall_mem_singleton] at hclosed
    have htypes : LineBinds ("types" ++ " = " ++ value) [⟨0, "types"⟩] :=
      .assignment rfl fun c hc => (hclosed.closed.oneLine c (by simp [indent, hc])).1
    have hmeta : LineBinds "class Meta:" [⟨0, "Meta"⟩] :=
      .line (by simp) ⟨'c', _, rfl, by simp, by simp⟩
    rw [hbody]
    exact ⟨_, .cons hmeta (.cons htypes.indented .nil), rfl⟩

end Fragment

/-! ## Types -/

namespace TypeBody

/-- The lines of the fields of a type bind the names that the fields have in the code. -/
theorem lineBinds_fields {config : Config} {body : TypeBody} {emitted : EmittedBody}
    (hfields : body.hasFields) (hnames : body.wellNamed) (h : body.emit config = .ok emitted) :
    ∃ base inherits assignments bound, emitted = .fields base inherits assignments ∧
      List.Forall₂ LineBinds ((Assignment.unique assignments).map Assignment.render) bound ∧
      bound.flatten = (Assignment.freshNames (body.fieldNames.map (Field.codeName config))).map
        (Binding.mk 0) := by
  obtain ⟨base, inherits, assignments, rfl, hall⟩ := emit_fields hfields h
  obtain ⟨_, _, _, heq, hclosed⟩ :=
    closedLines_of_emit (Json.closed_print config.defaultDeprecationReason) hfields hnames h
  cases heq
  have hstands := forall₂_stands hall
  have hunique : (Assignment.unique assignments).map Assignment.name =
      Assignment.freshNames (body.fieldNames.map (Field.codeName config)) := by
    rw [Assignment.map_name_unique, Field.map_name_of_stands hstands]
  -- A bound name is an identifier and its line has no break inside, so the line binds just that.
  have husable := Text.freshNamesFrom_usable
    (Field.names_usable (isIdentifier_of_mem_fieldNames hnames) hstands) []
  have hline : ∀ a ∈ Assignment.unique assignments, LineBinds a.render [⟨0, a.name⟩] := by
    intro a hmem
    have hname : a.name ∈ Assignment.freshNames (assignments.map Assignment.name) := by
      rw [← Assignment.map_name_unique]
      exact List.mem_map_of_mem hmem
    have honeLine := (hclosed a hmem).2.closed.oneLine
    refine .assignment (husable _ hname).1 fun c hc => (honeLine c ?_).1
    simp [Fragment.indent, Assignment.render, hc]
  refine ⟨base, inherits, assignments, (Assignment.unique assignments).map fun a => [⟨0, a.name⟩],
    rfl, ?_, ?_⟩
  · rw [List.forall₂_map_left_iff, List.forall₂_map_right_iff, List.forall₂_same]
    exact hline
  · rw [← hunique, List.map_map, ← List.flatMap_def, List.map_eq_flatMap]
    rfl

/-- The code of a type binds its name, and within it the names of its class. -/
theorem binds_fragment {config : Config} {body : TypeBody} {emitted : EmittedBody} {name : String}
    (hname : isIdentifier name) (description : String) (hnames : body.wellNamed)
    (h : body.emit config = .ok emitted) :
    Binds (emitted.fragment name description).text
      (⟨0, name⟩ :: (body.bindings config).map (Binding.within 4)) := by
  -- Objects, interfaces and input types become classes in the same way.
  have hclass (hfields : body.hasFields) : Binds (emitted.fragment name description).text
      (⟨0, name⟩ :: (((Assignment.freshNames (body.fieldNames.map (Field.codeName config))).map
        (Binding.mk 0)).map (Binding.within 4))) := by
    obtain ⟨base, inherits, assignments, bound, rfl, hlines, hbound⟩ :=
      lineBinds_fields hfields hnames h
    rw [← hbound]
    exact Fragment.binds_classBlock hname base description hlines
  cases body with
  | object => exact hclass rfl
  | interface => exact hclass rfl
  | inputObject => exact hclass rfl
  | scalar =>
    cases h
    have hserialize : LineBinds "serialize = lambda x: str(x)" [⟨0, "serialize"⟩] :=
      .line (by simp) ⟨'s', _, rfl, by simp, by simp⟩
    exact Fragment.binds_classBlock hname .scalar description (.cons hserialize .nil)
  | union members =>
    cases h
    obtain ⟨bound, hlines, hbound⟩ :=
      Fragment.lineBinds_unionBody config (List.all_eq_true.mp hnames)
    rw [← hbound]
    exact Fragment.binds_classBlock hname .union description hlines
  | enum values =>
    cases h
    exact Fragment.binds_enumBlock hname description _

end TypeBody

/-! ## Documents -/

/-- The code of a definition binds the names of its type, if it is one that is not left out. -/
theorem Definition.binds {config : Config} {definition : Definition} {fragment : Fragment}
    (hnames : definition.wellNamed) (h : definition.emit config = .ok fragment) :
    Binds fragment.text ((definition.kept? config).toList.flatMap (TypeDef.bindings config)) := by
  cases becomes_of_emit h with
  | schema | directive => exact .empty
  | ignored hignored => simpa [kept?, hignored] using Binds.empty
  | @kept d emitted hkept hbody =>
    simp only [wellNamed, TypeDef.wellNamed, Bool.and_eq_true] at hnames
    simpa [kept?, hkept, TypeDef.bindings] using
      TypeBody.binds_fragment hnames.1 (d.description.getD "") hnames.2 hbody

/-- The code of a document binds the names of the types that are not left out, in order. -/
theorem Document.emit_bindings {config : Config} {document : Document} (hnames : document.wellNamed)
    {record after : Record} {texts : List Text}
    (h : Document.emit config record document = (.ok texts, after)) :
    Text.bindings (Text.flatten texts) =
      (document.keptTypes config).flatMap (TypeDef.bindings config) := by
  obtain ⟨fragments, hall, rfl, -⟩ := emit_eq_ok h
  clear h
  refine Binds.bindings_eq ?_
  induction hall with
  | nil => exact .empty
  | @cons definition fragment rest fragments hhead hrest ih =>
    have hnames : definition.wellNamed ∧ Document.wellNamed rest := by
      simpa [Document.wellNamed] using hnames
    rw [keptTypes_cons, List.flatMap_append]
    exact (definition.binds hnames.1 hhead).append (ih hnames.2)

/-! ## Names that are clear -/

namespace Field

/-- A name that escaping does not make is the converted name. -/
theorem codeName_eq_iff {config : Config} {schemaName name : String}
    (hbare : Assignment.IsBare name) (hkeyword : Text.isKeyword name = false) :
    codeName config schemaName = name ↔ convertedName config schemaName = name := by
  constructor
  · rintro rfl
    obtain ⟨count, hcount⟩ := codeName_eq_underscored config schemaName
    rw [hcount] at hbare
    exact hbare.of_underscored.symm.trans hcount.symm
  · rintro rfl
    rw [codeName_eq, Text.escapeKeyword, if_neg (by simp [hkeyword])]

/-- A name with a capital is no converted name unless names stay as they are. -/
theorem convertedName_eq_iff {config : Config} {schemaName name : String}
    (hcapital : name.toList.any Char.isUpper) :
    convertedName config schemaName = name ↔
      config.convertFieldNames.isTruthy = false ∧ schemaName = name := by
  unfold convertedName
  cases config.convertFieldNames.isTruthy with
  | false => simp
  | true =>
    refine iff_of_false (fun heq => ?_) (by simp)
    obtain ⟨c, hc, hupper⟩ := List.any_eq_true.mp hcapital
    rw [if_pos rfl, Text.snakeCase] at heq
    rw [← heq, String.toList_ofList] at hc
    rw [Text.isUpper_snakeChars _ c hc] at hupper
    cases hupper

end Field

/-- A class binds such a name only to a field that is called so. -/
theorem TypeBody.exists_binding {name : String} (hbare : Assignment.IsBare name)
    (hkeyword : Text.isKeyword name = false) (hcapital : name.toList.any Char.isUpper)
    (hmeta : name ≠ "Meta") (config : Config) (body : TypeBody) :
    (∃ b ∈ body.bindings config, b.name = name) ↔
      config.convertFieldNames.isTruthy = false ∧ name ∈ body.fieldNames := by
  -- Apart from Meta, what a class binds without a field of that name is in small letters.
  have hserialize : "serialize" ≠ name := by
    rintro rfl
    exact absurd hcapital (by decide)
  have htypes : "types" ≠ name := by
    rintro rfl
    exact absurd hcapital (by decide)
  have hclass (names : List String) :
      (∃ b ∈ (Assignment.freshNames (names.map (Field.codeName config))).map (Binding.mk 0),
        b.name = name) ↔ config.convertFieldNames.isTruthy = false ∧ name ∈ names := by
    have hmem (bound : List String) :
        (∃ b ∈ bound.map (Binding.mk 0), b.name = name) ↔ name ∈ bound := by
      simp
    rw [hmem, Assignment.mem_freshNames hbare, List.mem_map]
    simp only [Field.codeName_eq_iff hbare hkeyword, Field.convertedName_eq_iff hcapital]
    constructor
    · rintro ⟨other, hother, hoff, rfl⟩
      exact ⟨hoff, hother⟩
    · rintro ⟨hoff, hname⟩
      exact ⟨name, hname, hoff, rfl⟩
  cases body with
  | scalar => simp [bindings, fieldNames, outputFields, inputFields, hserialize]
  | enum values => simp [bindings, fieldNames, outputFields, inputFields]
  | union members =>
    cases members <;> simp [bindings, fieldNames, outputFields, inputFields, htypes, hmeta.symm]
  | object | interface | inputObject => exact hclass _

/-- A class that is called within another is bound there exactly if a field has its name and names
    are kept. -/
theorem TypeBody.exists_called {name : String} (h : Text.IsCalled name) (config : Config)
    (body : TypeBody) :
    (∃ b ∈ body.bindings config, b.name = name) ↔
      config.convertFieldNames.isTruthy = false ∧ name ∈ body.fieldNames := by
  rcases h with rfl | rfl
  · exact exists_binding (by simp [Assignment.IsBare]) rfl rfl (by decide) config body
  · exact exists_binding (by simp [Assignment.IsBare]) rfl rfl (by decide) config body

/-- A class binds no name that is called there if and only if names are converted or no field has
    such a name. -/
theorem TypeBody.forall_not_called (config : Config) (body : TypeBody) :
    (∀ b ∈ body.bindings config, ¬ Text.IsCalled b.name) ↔
      config.convertFieldNames.isTruthy ∨ ∀ name ∈ body.fieldNames, ¬ Text.IsCalled name := by
  constructor
  · intro hnone
    cases hon : config.convertFieldNames.isTruthy with
    | true => exact .inl rfl
    | false =>
      refine .inr fun name hmem hcalled => ?_
      obtain ⟨b, hb, heq⟩ := (exists_called hcalled config body).mpr ⟨hon, hmem⟩
      exact hnone b hb (heq ▸ hcalled)
  · intro hfields b hb hcalled
    obtain ⟨hoff, hmem⟩ := (exists_called hcalled config body).mp ⟨b, hb, rfl⟩
    rcases hfields with hon | hnone
    · rw [hoff] at hon
      cases hon
    · exact hnone _ hmem hcalled

/-- The type is not called like a keyword or like a name that is needed from the class library, and
    if names stay as they are, no field of it is called like a class that is called there. -/
@[mk_iff]
structure TypeDef.KeepsClear (config : Config) (needed : List Import) (d : TypeDef) : Prop where
  keyword : Text.isKeyword d.name = false
  library : ∀ i ∈ needed, d.name ≠ i.text
  fields : config.convertFieldNames.isTruthy ∨ ∀ name ∈ d.body.fieldNames, ¬ Text.IsCalled name

instance (config : Config) (needed : List Import) (d : TypeDef) :
    Decidable (d.KeepsClear config needed) :=
  decidable_of_iff _ (TypeDef.keepsClear_iff config needed d).symm

/-- The names that a type binds are clear if and only if its own names are. -/
theorem TypeDef.isClear_iff (config : Config) (needed : List Import) (d : TypeDef) :
    (∀ b ∈ d.bindings config, b.IsClear needed) ↔ d.KeepsClear config needed := by
  have hown : (Binding.mk 0 d.name).IsClear needed ↔
      Text.isKeyword d.name = false ∧ ∀ i ∈ needed, d.name ≠ i.text :=
    ⟨fun h => h.outer rfl, fun h => ⟨fun _ => h, fun hdepth => absurd rfl hdepth⟩⟩
  have hwithin (b : Binding) : (b.within 4).IsClear needed ↔ ¬ Text.IsCalled b.name := by
    have hdepth : (b.within 4).depth ≠ 0 := by simp [Binding.within]
    exact ⟨fun h => h.inner hdepth, fun h => ⟨fun hzero => absurd hzero hdepth, fun _ => h⟩⟩
  rw [bindings, List.forall_mem_cons, List.forall_mem_map, hown]
  simp only [hwithin, TypeBody.forall_not_called]
  constructor
  · rintro ⟨⟨hkeyword, hlibrary⟩, hfields⟩
    exact ⟨hkeyword, hlibrary, hfields⟩
  · rintro ⟨hkeyword, hlibrary, hfields⟩
    exact ⟨⟨hkeyword, hlibrary⟩, hfields⟩

/-! ## Hygienic modules -/

/-- The module of a document binds the names of its types, in order, and within their classes the
    names of their fields. It is hygienic if and only if no type that is not left out is called like
    a keyword or like a name that the module needs from the class library, and names are converted
    or no field of such a type is called like a class that is called within classes. -/
theorem Document.emit_hygienic {config : Config} {document : Document} (hnames : document.wellNamed)
    {record after : Record} {texts : List Text}
    (h : Document.emit config record document = (.ok texts, after)) :
    Text.bindings (Text.flatten texts) =
        (document.keptTypes config).flatMap (TypeDef.bindings config) ∧
      (Text.Hygienic (Text.flatten texts) after.imports ↔
        ∀ d ∈ document.keptTypes config, d.KeepsClear config after.imports) := by
  have hbindings := emit_bindings hnames h
  refine ⟨hbindings, ?_⟩
  rw [Text.Hygienic, hbindings, List.forall_mem_flatMap]
  exact forall₂_congr fun d _ => d.isClear_iff config after.imports

/-- A document with names that come close: a type that is left out, a field that is converted, and a
    type that is called like a class which the module does not need. -/
def nearMisses : Document :=
  [.type ⟨none, "Enum", [], .enum [⟨none, "RED", []⟩]⟩,
    .type ⟨some "List = 1\nclass Field:", "Query", [], .object []
      [⟨none, "Field", [⟨none, "Argument", .named "Int", none, []⟩], .named "Boolean_", []⟩,
        ⟨none, "field", [], .nonNull (.named "List"), []⟩]⟩,
    .type ⟨none, "List", [], .union ["Query"]⟩,
    .type ⟨none, "Boolean_", [], .scalar⟩]

/-- Settings that leave out the first type of it. -/
def nearMissesConfig : Config :=
  { ignoreTypes := some (.array [.string "Enum"]) }

/-- Names that come close to others without standing in for them. -/
theorem Document.emit_hygienic_nearMisses :
    ∃ texts after, Document.emit nearMissesConfig {} nearMisses = (.ok texts, after) ∧
      Text.bindings (Text.flatten texts) =
        [⟨0, "Query"⟩, ⟨4, "field"⟩, ⟨4, "field_"⟩, ⟨0, "List"⟩, ⟨4, "Meta"⟩, ⟨8, "types"⟩,
          ⟨0, "Boolean_"⟩, ⟨4, "serialize"⟩] ∧
      Text.Hygienic (Text.flatten texts) after.imports := by
  have hok : (Document.emit nearMissesConfig {} nearMisses).1.isOk := by decide +kernel
  have himports : (Document.emit nearMissesConfig {} nearMisses).2.imports =
      [.field, .argument, .field, .int, .field, .nonNull, .objectType, .union, .scalar] := by
    decide +kernel
  obtain ⟨texts, after, h⟩ := exists_emitted hok
  obtain ⟨hbindings, hhygienic⟩ := emit_hygienic (by decide +kernel) h
  rw [h] at himports
  refine ⟨texts, after, h, hbindings.trans (by decide +kernel), hhygienic.mpr ?_⟩
  rw [himports]
  decide +kernel

/-- A document whose types are called like a keyword and like a name that its enumeration needs, with
    a field that is called like the class of its call. -/
def captures : Document :=
  [.type ⟨none, "None", [], .object [] [⟨none, "Field", [], .named "Int", []⟩]⟩,
    .type ⟨none, "Enum", [], .object [] [⟨none, "a", [], .named "Int", []⟩]⟩,
    .type ⟨none, "Color", [], .enum [⟨none, "RED", []⟩]⟩]

/-- Settings that leave the names of fields as they are. -/
def capturesConfig : Config :=
  { convertFieldNames := .bool false }

/-- Nothing keeps the names of types clear of keywords and of the class library, and without
    conversion nothing keeps those of fields clear of it. -/
theorem Document.emit_captures :
    ∃ texts after, Document.emit capturesConfig {} captures = (.ok texts, after) ∧
      Text.bindings (Text.flatten texts) =
        [⟨0, "None"⟩, ⟨4, "Field"⟩, ⟨0, "Enum"⟩, ⟨4, "a"⟩, ⟨0, "Color"⟩] ∧
      .enum ∈ after.imports ∧ ¬ Text.Hygienic (Text.flatten texts) after.imports := by
  have hok : (Document.emit capturesConfig {} captures).1.isOk := by decide +kernel
  have himports : .enum ∈ (Document.emit capturesConfig {} captures).2.imports := by decide +kernel
  obtain ⟨texts, after, h⟩ := exists_emitted hok
  have hbindings : Text.bindings (Text.flatten texts) =
      [⟨0, "None"⟩, ⟨4, "Field"⟩, ⟨0, "Enum"⟩, ⟨4, "a"⟩, ⟨0, "Color"⟩] :=
    (emit_bindings (by decide +kernel) h).trans (by decide +kernel)
  rw [h] at himports
  refine ⟨texts, after, h, hbindings, himports, fun hhygienic => ?_⟩
  rw [Text.Hygienic, hbindings] at hhygienic
  have hkeyword := ((hhygienic ⟨0, "None"⟩ List.mem_cons_self).outer rfl).1
  exact absurd hkeyword (by decide)

end SchemaClasses
