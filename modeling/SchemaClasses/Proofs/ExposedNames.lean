import SchemaClasses.Proofs.CamelCase
import SchemaClasses.Proofs.ClassNames

/-!
# Exposed names

The name that the class library exposes each entry of a class under, be it a field or an argument:
the one that its call pins, or else the bound name in camel case. An entry that gives way to another
is pinned, so it keeps its name in the schema. One that is bound to the converted name is exposed
under whatever camel case makes of that, which may be the name of another entry.
-/

namespace SchemaClasses

open Assignment (freshNames)

/-! ## Entries -/

/-- An entry of a class: a field, or an argument of one. -/
structure Entry where
  /-- The name in the schema. -/
  schemaName : String
  /-- The name that the call is bound to. -/
  name : String
  call : Call
  /-- The name that the class library exposes the entry under. -/
  exposed : String

namespace Entry

def bound (e : Entry) : String × Call :=
  (e.name, e.call)

/-- The line of a class that binds the entry. -/
def line (e : Entry) : Text :=
  e.name ++ " = " ++ e.call.render

/-- The class library goes by the name that the call pins, and without one by the bound name in
    camel case. -/
def IsExposed (e : Entry) : Prop :=
  match e.call.keyword? "name" with
  | some pinned => pinned = .source (Text.quote e.exposed)
  | none => e.exposed = Text.camelCase e.name

/-- The entry is bound to its converted name. -/
def IsConverted (config : Config) (e : Entry) : Prop :=
  e.name = Field.convertedName config e.schemaName

/-- The bound name, or else the pinned one, decides under which name the entry is exposed. -/
def Follows (config : Config) (e : Entry) : Prop :=
  (e.IsConverted config → e.exposed = Text.camelCase e.name) ∧
    (¬ e.IsConverted config → e.exposed = e.schemaName)

variable {config : Config} {e : Entry} {entries : List Entry}

/-- The class library goes by the pinned name where there is one. -/
theorem isExposed_of_pin (hpin : e.call.keyword? "name" = Field.pin config e.schemaName e.name)
    (hfollows : e.Follows config) : e.IsExposed := by
  by_cases hconverted : e.IsConverted config
  · rw [IsExposed, hpin.trans (if_pos hconverted)]
    exact hfollows.1 hconverted
  · rw [IsExposed, hpin.trans (if_neg hconverted), hfollows.2 hconverted]

/-- An entry without a pinned name is exposed under its name in the schema only if camel case
    restores that. -/
theorem Follows.exposed_eq_iff (h : e.Follows config) :
    e.exposed = e.schemaName ↔ (e.IsConverted config → Text.camelCase e.name = e.schemaName) := by
  by_cases hconverted : e.IsConverted config
  · rw [h.1 hconverted, forall_prop_of_true hconverted]
  · exact iff_of_true (h.2 hconverted) fun hcontra => absurd hcontra hconverted

/-- Camel case alone can bring two entries together. -/
theorem nodup_exposed_iff (hfollows : ∀ e ∈ entries, e.Follows config)
    (hnames : (entries.map schemaName).Nodup) :
    (entries.map exposed).Nodup ↔ ∀ e ∈ entries, e.IsConverted config →
      ∀ other ∈ entries, other.exposed = Text.camelCase e.name → other = e := by
  rw [List.nodup_map_iff_inj_on (hnames.of_map schemaName)]
  constructor
  · intro hinj e he hconverted other hother heq
    exact hinj other hother e he (heq.trans ((hfollows e he).1 hconverted).symm)
  · intro hcamel first hfirst second hsecond heq
    by_cases hconverted : first.IsConverted config
    · have hsame := hcamel first hfirst hconverted second hsecond
      exact (hsame (heq.symm.trans ((hfollows first hfirst).1 hconverted))).symm
    by_cases hconverted' : second.IsConverted config
    · have hsame := hcamel second hsecond hconverted' first hfirst
      exact hsame (heq.trans ((hfollows second hsecond).1 hconverted'))
    -- Names that are pinned both are names of the schema, which differ.
    rw [(hfollows first hfirst).2 hconverted, (hfollows second hsecond).2 hconverted'] at heq
    exact List.inj_on_of_nodup_map hnames hfirst hsecond heq

end Entry

namespace Field

/-- With conversion on, camel case restores a name of letters and digits exactly if its words are
    those of camel case. -/
theorem camelCase_convertedName {config : Config} {name : String}
    (hconvert : config.convertFieldNames.isTruthy) (h : ∀ c ∈ name.toList, Text.isWordChar c) :
    Text.camelCase (convertedName config name) = name ↔ Text.hasCamelWords name.toList := by
  rw [convertedName, if_pos hconvert]
  exact Text.camelCase_snakeCase h

/-- The entries for names of the schema, in order, and what can be said of the names that they are
    exposed under. -/
structure Exposed (config : Config) (schemaNames : List String) (entries : List Entry) : Prop where
  /-- Every name has its entry. -/
  all : entries.map Entry.schemaName = schemaNames
  /-- An entry gives way to those before it. -/
  names : entries.map Entry.name = freshNames (schemaNames.map (codeName config))
  exposed : ∀ e ∈ entries, e.IsExposed
  follows : ∀ e ∈ entries, e.Follows config
  /-- The names of the schema are exposed exactly if camel case restores those that are bound as
      converted. -/
  faithful : entries.map Entry.exposed = schemaNames ↔
    ∀ e ∈ entries, e.IsConverted config → Text.camelCase e.name = e.schemaName
  /-- No entry replaces another exactly if no converted name is in camel case what another entry is
      exposed under. -/
  distinct : schemaNames.Nodup → ((entries.map Entry.exposed).Nodup ↔
    ∀ e ∈ entries, e.IsConverted config →
      ∀ other ∈ entries, other.exposed = Text.camelCase e.name → other = e)
  /-- So all entries are kept if those that are bound as converted are in camel case. The others may
      have any name. -/
  kept : config.convertFieldNames.isTruthy →
    (∀ e ∈ entries, e.IsConverted config →
      (∀ c ∈ e.schemaName.toList, Text.isWordChar c) ∧ Text.hasCamelWords e.schemaName.toList) →
    entries.map Entry.exposed = schemaNames

/-- Calls that pin names of the schema as their bound names ask for make entries. -/
theorem exists_entries {config : Config} {schemaNames : List String}
    {bound : List (String × Call)}
    (h : List.Forall₂ (fun schemaName entry =>
      entry.2.keyword? "name" = pin config schemaName entry.1) schemaNames bound) :
    ∃ entries : List Entry, entries.map Entry.schemaName = schemaNames ∧
      entries.map Entry.bound = bound ∧ ∀ e ∈ entries, e.IsExposed ∧ e.Follows config := by
  induction h with
  | nil => exact ⟨[], rfl, rfl, by simp⟩
  | @cons schemaName entry _ _ hhead _ ih =>
    obtain ⟨entries, hschema, hbound, hall⟩ := ih
    let exposed :=
      if entry.1 = convertedName config schemaName then Text.camelCase entry.1 else schemaName
    let e : Entry := ⟨schemaName, entry.1, entry.2, exposed⟩
    have hfollows : e.Follows config := ⟨fun h => if_pos h, fun h => if_neg h⟩
    refine ⟨e :: entries, by rw [List.map_cons, hschema], by rw [List.map_cons, hbound]; rfl, ?_⟩
    exact List.forall_mem_cons.mpr ⟨⟨Entry.isExposed_of_pin hhead hfollows, hfollows⟩, hall⟩

theorem exposed_of_follows {config : Config} {schemaNames : List String} {entries : List Entry}
    (hschema : entries.map Entry.schemaName = schemaNames)
    (hnames : entries.map Entry.name = freshNames (schemaNames.map (codeName config)))
    (hexposed : ∀ e ∈ entries, e.IsExposed) (hfollows : ∀ e ∈ entries, e.Follows config) :
    Exposed config schemaNames entries := by
  have hfaithful : entries.map Entry.exposed = schemaNames ↔
      ∀ e ∈ entries, e.IsConverted config → Text.camelCase e.name = e.schemaName := by
    rw [← hschema, List.map_inj_left]
    exact forall₂_congr fun e he => (hfollows e he).exposed_eq_iff
  refine ⟨hschema, hnames, hexposed, hfollows, hfaithful, fun hnodup => ?_, fun hconvert hcamel => ?_⟩
  · exact Entry.nodup_exposed_iff hfollows (hschema ▸ hnodup)
  · refine hfaithful.mpr fun e he hconverted => ?_
    obtain ⟨hchars, hwords⟩ := hcamel e he hconverted
    rw [hconverted]
    exact (camelCase_convertedName hconvert hchars).mpr hwords

/-- Assignments that stand for names of a schema are entries once each gives way to those before
    it. `callOf` may change the callee only. -/
theorem exposed_unique {config : Config} {schemaNames : List String}
    {assignments : List Assignment} (callOf : Assignment → Call)
    (hcallOf : ∀ a, (callOf a).keywords = a.call.keywords)
    (h : List.Forall₂ (Stands config) schemaNames assignments) :
    ∃ entries, Exposed config schemaNames entries ∧
      entries.map Entry.bound =
        (Assignment.unique assignments).map fun a => (a.name, callOf a) := by
  -- Giving way changes the name that is bound and may pin the one of the schema, nothing else.
  have hpinned : List.Forall₂ (fun schemaName (entry : String × Call) =>
      entry.2.keyword? "name" = pin config schemaName entry.1) schemaNames
      ((Assignment.unique assignments).map fun a => (a.name, callOf a)) := by
    rw [List.forall₂_map_right_iff]
    refine Assignment.forall₂_unique h fun schemaName a taken hstands => ?_
    obtain ⟨-, hpinned, core, hpins⟩ := hstands
    exact keyword?_of_pins (hpins.avoiding hpinned taken) (hcallOf _)
  obtain ⟨entries, hschema, hbound, hall⟩ := exists_entries hpinned
  refine ⟨entries, exposed_of_follows hschema ?_ (fun e he => (hall e he).1)
    fun e he => (hall e he).2, hbound⟩
  have hnames := congrArg (List.map Prod.fst) hbound
  rw [List.map_map, List.map_map] at hnames
  rw [← map_name_of_stands h, ← Assignment.map_name_unique]
  exact hnames

end Field

/-! ## Classes -/

namespace TypeDef

/-- The fields of a class are bound to their names in the code, each giving way to those before it,
    and so are the arguments of each field. They are exposed under names of their own exactly if no
    name that is bound as converted is in camel case what another is exposed under. -/
theorem emit_exposed {config : Config} {d : TypeDef} {fragment : Fragment}
    (hfields : d.body.hasFields) (hkept : config.ignores d.name = .ok false)
    (h : d.emit config = .ok fragment) :
    ∃ base entries,
      fragment.text = Fragment.classBlock d.name base (d.description.getD "")
        (entries.map Entry.line) ∧
      Field.Exposed config d.body.fieldNames entries ∧
      (d.body.inputFields = [] → List.Forall₂ (fun field e => ∃ arguments,
        Field.IsFieldCall config field (arguments.map Entry.bound) e.name e.call ∧
        Field.Exposed config (field.arguments.map (·.name)) arguments)
        d.body.outputFields entries) := by
  obtain ⟨body, hbody, rfl⟩ := emit_eq_ok h hkept
  obtain ⟨base, inherits, assignments, rfl, hall⟩ := TypeBody.emit_fields hfields hbody
  obtain ⟨entries, hexposed, hbound⟩ :=
    Field.exposed_unique Assignment.call (fun _ => rfl) (TypeBody.forall₂_stands hall)
  have hlines : entries.map Entry.line = (Assignment.unique assignments).map Assignment.render := by
    have hlines := congrArg (List.map fun entry : String × Call =>
      (entry.1 ++ " = " ++ entry.2.render : Text)) hbound
    rwa [List.map_map, List.map_map] at hlines
  refine ⟨base, entries, ?_, hexposed, fun hinputs => ?_⟩
  · rw [hlines]
    rfl
  rcases hall with ⟨-, hall⟩ | ⟨hnone, hall⟩
  · have hcalls : List.Forall₂ (fun field (entry : String × Call) => ∃ arguments,
        Field.IsFieldCall config field (arguments.map Entry.bound) entry.1 entry.2 ∧
        Field.Exposed config (field.arguments.map (·.name)) arguments)
        d.body.outputFields (entries.map Entry.bound) := by
      rw [hbound, List.forall₂_map_right_iff]
      refine (Field.fieldCalls_unique hall).imp fun field a hfield => ?_
      obtain ⟨assigned, hargs, hcall⟩ := hfield
      obtain ⟨arguments, harguments, hpassed⟩ :=
        Field.exposed_unique (·.call.retarget "Argument") (fun _ => rfl)
          (Field.forall₂_stands (fun _ _ => Field.ofInputValue_stands) hargs)
      exact ⟨arguments, hpassed ▸ hcall, harguments⟩
    exact List.forall₂_map_right_iff.mp hcalls
  -- An input type without fields has no entries.
  · rw [hinputs] at hall
    obtain rfl : [] = assignments := Except.ok.inj hall
    rw [hnone, List.map_eq_nil_iff.mp hbound]
    exact .nil

/-- A type with two fields. -/
def collidingType (first second : String) : TypeDef where
  description := none
  name := "Query"
  directives := []
  body := .object [] [⟨none, first, [], .named "ID", []⟩, ⟨none, second, [], .named "String", []⟩]

/-- The field in camel case comes first and is bound as converted, so the other one is pinned. -/
theorem emit_exposed_collidingType :
    ∃ (fragment : Fragment) (base : Import) (entries : List Entry),
      (collidingType "userId" "user_id").emit {} = .ok fragment ∧
      fragment.text = Fragment.classBlock "Query" base "" (entries.map Entry.line) ∧
      Field.Exposed {} ["userId", "user_id"] entries ∧
      entries.map Entry.name = ["user_id", "user_id_"] ∧
      entries.map Entry.exposed = ["userId", "user_id"] := by
  have hok : ((collidingType "userId" "user_id").emit {}).isOk := by decide +kernel
  cases h : (collidingType "userId" "user_id").emit {} with
  | error e => simp [h, Except.isOk, Except.toBool] at hok
  | ok fragment =>
    obtain ⟨base, entries, htext, hexposed, -⟩ := emit_exposed rfl rfl h
    have hschema : entries.map Entry.schemaName = ["userId", "user_id"] := hexposed.all
    have hnames : entries.map Entry.name = ["user_id", "user_id_"] :=
      hexposed.names.trans (by decide +kernel)
    refine ⟨fragment, base, entries, rfl, htext, hexposed, hnames, hexposed.faithful.mpr ?_⟩
    -- Only the first of them is bound as converted, and camel case restores its name.
    obtain ⟨first, rest, rfl, hfirst, hrest⟩ := List.map_eq_cons_iff.mp hnames
    obtain ⟨second, none, rfl, hsecond, hnone⟩ := List.map_eq_cons_iff.mp hrest
    obtain rfl := List.map_eq_nil_iff.mp hnone
    simp only [List.map_cons, List.map_nil, List.cons.injEq, and_true] at hschema
    rw [List.forall_mem_cons, List.forall_mem_singleton, Entry.IsConverted, Entry.IsConverted,
      hfirst, hsecond, hschema.1, hschema.2]
    decide +kernel

/-- What the type binds if the field in camel case comes last. -/
def replacedFields : List Entry :=
  [⟨"user_id", "user_id", ⟨"Field", [.source "lambda: ID"], []⟩, "userId"⟩,
    ⟨"userId", "user_id_",
      ⟨"Field", [.source "lambda: String"], [("name", .source (Text.quote "userId"))]⟩, "userId"⟩]

/-- In the other order, the class exposes both fields under one name: the first is bound to its own
    name, which camel case turns into that of the second, and only the second is pinned. -/
theorem emit_collidingType_replaces :
    (collidingType "user_id" "userId").body.fieldNames.Nodup ∧
      (collidingType "user_id" "userId").emit {} =
        .ok ⟨Fragment.classBlock "Query" .objectType "" (replacedFields.map Entry.line), [],
          [.field, .id, .field, .string, .objectType]⟩ ∧
      (∀ e ∈ replacedFields, e.IsExposed) ∧
      replacedFields.map Entry.exposed = ["userId", "userId"] := by
  have hcamel : "userId" = Text.camelCase "user_id" := by decide +kernel
  refine ⟨by decide, by decide +kernel, ?_, rfl⟩
  exact List.forall_mem_cons.mpr ⟨hcamel, List.forall_mem_singleton.mpr rfl⟩

end TypeDef

end SchemaClasses
