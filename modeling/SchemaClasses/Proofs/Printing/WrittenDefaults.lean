import SchemaClasses.Proofs.DefaultLiterals
import SchemaClasses.Proofs.Printing.Writable

/-!
# Literals of defaults

A default is a value of its type when a literal is written for it. Whatever the type, the literal
can be read back: the names in it are those of declared fields and of enumeration values, and its
numbers are shortest numerals.
-/

namespace SchemaClasses

/-- The values of the enumerations that names stand for are spelled as the grammar asks. -/
def Declarations.HasSpelledEnums (ds : Declarations) : Prop :=
  ∀ name values, ds.named? name = some (.enum values) →
    ∀ value ∈ values, Text.isIdentifier value ∧ value ∉ ["true", "false", "null"]

namespace Schema

variable {ds : Declarations} {fieldsOf : FieldsOf} {type : TypeRef} {name : String}

/-- Whatever is written for the value as one of the type is a literal that can be written. -/
def IsExpressible (ds : Declarations) (type : TypeRef) (value : Json String) : Prop :=
  ∀ v, literal ds value type = .ok v → v.IsWritable

/-! ## Leaves -/

/-- The shortest numeral of a double has all of its parts. -/
theorem isWritable_toNumeral? {x : Decimal.Binary64} {n : Decimal.Numeral}
    (h : x.toNumeral? = some n) : (numeralLiteral n).IsWritable := by
  cases x with
  | finite negative significand shift =>
    obtain rfl := Option.some.inj h
    obtain ⟨n, hn, -⟩ | ⟨n, hn, hlexical, -⟩ :=
      (Decimal.shortest negative significand shift).toNumeral_cases
    · exact hn ▸ .int n
    · exact hn ▸ .float hlexical
  | infinity | nan => cases h

/-- A text becomes a name only as a value of an enumeration. -/
theorem isWritable_textLiteral {type : Option NamedType} {text : String}
    (h : ∀ values, type = some (.enum values) →
      Text.isIdentifier text ∧ text ∉ ["true", "false", "null"]) :
    (textLiteral type text).IsWritable := by
  unfold textLiteral
  split
  next values => exact .enum (h values rfl).1 (h values rfl).2
  next =>
    split
    next => exact .int _
    next => exact .string text
  next => exact .string text

/-- No leaf becomes anything that cannot be read back. -/
theorem isWritable_leafLiteral {type : Option NamedType} {value : Json String} {v : Value}
    (h : leafLiteral type value = .ok v)
    (htext : ∀ text values, value = .string text → type = some (.enum values) →
      Text.isIdentifier text ∧ text ∉ ["true", "false", "null"]) : v.IsWritable := by
  unfold leafLiteral at h
  split at h
  case h_1 =>
    cases h
    exact .null
  case h_2 =>
    cases h
    exact .boolean _
  case h_3 =>
    cases h
    exact .int _
  case h_4 =>
    split at h
    next hnumeral =>
      cases h
      exact isWritable_toNumeral? hnumeral
    next => cases h
  case h_5 text =>
    cases h
    -- Only a text may become a word of its own, for a value of an enum.
    exact isWritable_textLiteral fun values => htext text values rfl
  case h_6 => cases h

theorem isExpressible_null : IsExpressible ds type .null := by
  intro v hv
  cases hv
  exact .null

/-- What a name has values for that are no objects of input types. -/
theorem isExpressible_ofNamed (henums : ds.HasSpelledEnums) {v : Value} {value : Json String}
    (h : Value.ofNamed ds name v = .ok value) : IsExpressible ds (.named name) value := by
  -- A text is a value of its enum only if the literal named it so.
  have hleaf {w : Value} (hw : leafLiteral (ds.named? name) value = .ok w) : w.IsWritable := by
    refine isWritable_leafLiteral hw fun text values hvalue hnamed => ?_
    subst hvalue
    cases v <;> simp only [Value.ofNamed, hnamed, NamedType.isInput, if_true] at h
    case enum member =>
      split at h
      next hmem =>
        cases h
        exact henums name values hnamed _ (List.contains_iff_mem.mp hmem)
      next => cases h
    all_goals cases h
  intro w hw
  cases value with
  | object members =>
    simp only [literal, TypeRef.baseName] at hw
    split at hw
    next oneOf hnamed => cases v <;> simp [Value.ofNamed, hnamed, NamedType.isInput] at h
    next => exact hleaf hw
  | _ => exact hleaf hw

/-! ## Lists and objects -/

theorem literalItems_eq (values : List (Json String)) (type : TypeRef) :
    literalItems ds values type = values.mapM (literal ds · type) := by
  induction values with
  | nil => rfl
  | cons value rest ih => rw [literalItems, List.mapM_cons, ih]

/-- A list can be written if its items can be, as ones of the item type. -/
theorem isExpressible_array {item : TypeRef} {values : List (Json String)}
    (hnullable : type.nullable = .list item) (h : ∀ value ∈ values, IsExpressible ds item value) :
    IsExpressible ds type (.array values) := by
  intro v hv
  simp only [literal, hnullable, literalItems_eq] at hv
  obtain ⟨items, hitems, rfl⟩ := Success.map_eq_ok.mp hv
  exact .list (Success.forall_of_mapM hitems h)

/-- A value that stands for the lists that hold it alone. -/
theorem isExpressible_wrapLists {value : Json String}
    (h : IsExpressible ds (.named type.baseName) value) :
    IsExpressible ds type (wrapLists type.listDepth value) := by
  induction type with
  | named | foreign => cases value <;> exact h
  | nonNull item ih =>
    intro v hv
    rw [Value.literal_nonNull] at hv
    exact ih h v hv
  | list item ih => exact isExpressible_array rfl (List.forall_mem_singleton.mpr (ih h))

/-- An object can be written if its members can be, each as one of the type of its field. -/
theorem isExpressible_object {oneOf : Bool} {members : List (String × Json String)}
    (hnamed : ds.named? name = some (.inputObject oneOf))
    (h : ∀ member ∈ members, Text.isIdentifier member.1 ∧
      IsExpressible ds (fieldType ds name member.1) member.2) :
    IsExpressible ds (.named name) (.object members) := by
  intro v hv
  simp only [literal, TypeRef.baseName, hnamed] at hv
  obtain ⟨fields, hfields, rfl⟩ := Success.map_eq_ok.mp hv
  suffices hall : ∀ field ∈ fields, Text.isIdentifier field.1 ∧ field.2.IsWritable from
    .object (fun field hmem => (hall field hmem).1) fun field hmem => (hall field hmem).2
  -- The induction is on the members, and the whole object plays no part in it.
  clear hv
  induction members generalizing fields with
  | nil =>
    cases hfields
    simp
  | cons member rest ih =>
    rw [List.forall_mem_cons] at h
    simp only [literalFields, Success.bind_eq_ok, Success.pure_eq_ok] at hfields
    obtain ⟨first, hfirst, more, hmore, rfl⟩ := hfields
    exact List.forall_mem_cons.mpr ⟨⟨h.1.1, h.1.2 first hfirst⟩, ih h.2 more hmore⟩

/-! ## Input objects -/

/-- An argument or an input field that a definition can be written for. -/
structure Input.IsWritable (ds : Declarations) (d : Input) : Prop where
  name : Text.isIdentifier d.name
  type : d.type.IsSpelled Parser.maxDepth
  defaultValue : ∀ value ∈ d.defaultValue, IsExpressible ds d.type value

/-- The fields of input types can be written, and they have the types that their names stand for. -/
def HasWritableFields (ds : Declarations) (type : String) (fields : List Input) : Prop :=
  ∀ field ∈ fields, field.IsWritable ds ∧ fieldType ds type field.name = field.type

theorem itemsOfType_eq (items : List Value) (type : TypeRef) :
    Value.itemsOfType ds fieldsOf items type =
      items.mapM (Value.ofType ds fieldsOf · type) := by
  induction items with
  | nil => rfl
  | cons item rest ih => rw [Value.itemsOfType, List.mapM_cons, ih]

/-- What is given for a name is one of the fields of the literal. -/
theorem exists_of_lookup_fieldsOfType {fields : List (String × Value)} {name : String}
    {f : TypeRef → Except Misfit (Json String)}
    (h : (Value.fieldsOfType ds fieldsOf fields).lookup name = some f) :
    ∃ given ∈ fields, f = Value.ofType ds fieldsOf given.2 := by
  induction fields with
  | nil => cases h
  | cons first rest ih =>
    rw [Value.fieldsOfType, List.lookup_cons] at h
    split at h
    next =>
      cases h
      exact ⟨first, List.mem_cons_self, rfl⟩
    next =>
      obtain ⟨given, hmem, hf⟩ := ih h
      exact ⟨given, List.mem_cons_of_mem _ hmem, hf⟩

/-- A member of a collected object belongs to a field of the type. It is the value that is given for
    the field, or the default of the field. -/
theorem collectFields_induction {given : List (String × (TypeRef → Except Misfit (Json String)))}
    {P : Input → Json String → Prop} {declared : List Input}
    {members : List (String × Json String)} (h : collectFields given declared = .ok members)
    (hgiven : ∀ field ∈ declared, ∀ f, given.lookup field.name = some f →
      ∀ value, f field.type = .ok value → P field value)
    (hdefault : ∀ field ∈ declared, ∀ value ∈ field.defaultValue, P field value) :
    ∀ member ∈ members, ∃ field ∈ declared, member.1 = field.name ∧ P field member.2 := by
  induction declared generalizing members with
  | nil =>
    cases h
    simp
  | cons field rest ih =>
    rw [List.forall_mem_cons] at hgiven hdefault
    have htail {others : List (String × Json String)}
        (hothers : collectFields given rest = .ok others) :
        ∀ member ∈ others, ∃ other ∈ field :: rest, member.1 = other.name ∧ P other member.2 := by
      intro member hmem
      obtain ⟨other, hother, hname, hP⟩ := ih hothers hgiven.2 hdefault.2 member hmem
      exact ⟨other, List.mem_cons_of_mem _ hother, hname, hP⟩
    rw [collectFields] at h
    -- A field is given, or filled from its default, or left out where its type is nullable.
    split at h
    next f hlookup =>
      simp only [Success.bind_eq_ok, Success.pure_eq_ok] at h
      obtain ⟨value, hvalue, others, hothers, rfl⟩ := h
      refine List.forall_mem_cons.mpr ⟨⟨field, List.mem_cons_self, rfl, ?_⟩, htail hothers⟩
      exact hgiven.1 f hlookup value hvalue
    next value _ hvalue =>
      simp only [Success.bind_eq_ok, Success.pure_eq_ok] at h
      obtain ⟨others, hothers, rfl⟩ := h
      refine List.forall_mem_cons.mpr ⟨⟨field, List.mem_cons_self, rfl, ?_⟩, htail hothers⟩
      exact hdefault.1 value hvalue
    next =>
      split at h
      next => cases h
      next => exact htail h

/-! ## Defaults -/

/-- A type that is no list has no lists around its name. -/
theorem listDepth_eq_zero (h : ∀ item, type.nullable ≠ .list item) : type.listDepth = 0 := by
  induction type with
  | named | foreign => rfl
  | nonNull item ih => exact ih h
  | list item => exact absurd rfl (h item)

/-- A literal has only values of its type that can be written again. -/
theorem isExpressible_ofType (henums : ds.HasSpelledEnums)
    (hfields : ∀ type fields, fieldsOf type = .ok fields → HasWritableFields ds type fields)
    (v : Value) : ∀ type value, Value.ofType ds fieldsOf v type = .ok value →
      IsExpressible ds type value := by
  have hleaf {v : Value} {type : TypeRef} {value : Json String}
      (h : wrapLists type.listDepth <$> Value.ofNamed ds type.baseName v = .ok value) :
      IsExpressible ds type value := by
    obtain ⟨inner, hinner, rfl⟩ := Success.map_eq_ok.mp h
    exact isExpressible_wrapLists (isExpressible_ofNamed henums hinner)
  -- The induction is on the literal; the type it is read as changes on the way down.
  induction v using Value.induction with
  | «variable» | int | float | string | boolean | enum => exact fun type value h => hleaf h
  | null =>
    intro type value h
    simp only [Value.ofType] at h
    split at h
    next => cases h
    next =>
      cases h
      exact isExpressible_null
  | list items ih =>
    intro type value h
    simp only [Value.ofType, itemsOfType_eq] at h
    split at h
    next item hnullable =>
      obtain ⟨values, hvalues, rfl⟩ := Success.map_eq_ok.mp h
      refine isExpressible_array hnullable (Success.forall_of_mapM hvalues fun v hmem value => ?_)
      exact ih v hmem item value
    next hnullable =>
      -- A type that takes no list reads the literal as its named type does.
      refine @hleaf (.list items) type value ?_
      rw [listDepth_eq_zero hnullable, h]
      rfl
  | object fields ih =>
    intro type value h
    simp only [Value.ofType] at h
    obtain ⟨inner, hinner, rfl⟩ := Success.map_eq_ok.mp h
    refine isExpressible_wrapLists ?_
    unfold Value.objectOfNamed at hinner
    split at hinner
    next oneOf hnamed =>
      simp only [Success.bind_eq_ok, Success.mapError_eq_ok] at hinner
      obtain ⟨declared, hdeclared, members, hmembers, hinner⟩ := hinner
      split at hinner
      next => cases hinner
      next =>
        cases hinner
        have hall := hfields _ _ hdeclared
        refine isExpressible_object hnamed fun member hmem => ?_
        -- A member is what was given for its field, or else the default of that.
        obtain ⟨field, hfield, hname, hvalue⟩ := collectFields_induction hmembers
          (P := fun field value => IsExpressible ds field.type value)
          (fun field _ f hlookup value hf => by
            obtain ⟨given, hgiven, rfl⟩ := exists_of_lookup_fieldsOfType hlookup
            exact ih given hgiven field.type value hf)
          (fun field hfield => (hall field hfield).1.defaultValue) member hmem
        rw [hname, (hall field hfield).2]
        exact ⟨(hall field hfield).1.name, hvalue⟩
    next => exact isExpressible_ofNamed henums hinner

end Schema

end SchemaClasses
