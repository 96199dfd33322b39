import SchemaClasses.Json.Basic
import SchemaClasses.Json.Printer

/-!
# Configuration

What the generated code should look like. Settings come from outside and are taken as they are, so
each of them may be any JSON value; how it counts is decided where it is used. A few keys are no
settings but reserved: they stand for the table of all settings, or for what is no setting at all.
-/

namespace SchemaClasses

/-! ## Errors -/

/-- Why a setting cannot be taken or used. -/
inductive SettingError
  /-- The class of a configuration is not to be set to a value of this kind. -/
  | notClass (kind : String)
  /-- The table of all settings is not to be set to a value of this kind. -/
  | notTable (kind : String)
  | notWritable (key : String)
  /-- The listing of the settings is a value of this kind. -/
  | noListing (kind : String)
  | missing (key : String)
  /-- The types to leave out are no collection but a value of this kind. -/
  | noCollection (kind : String)
deriving DecidableEq, Repr

def SettingError.message : SettingError → String
  | .notClass kind => s!"__class__ must be set to a class, not '{kind}' object"
  | .notTable kind => s!"__dict__ must be set to a dictionary, not a '{kind}'"
  | .notWritable key => s!"attribute '{key}' of 'CodeGeneratorConfig' objects is not writable"
  | .noListing kind => s!"'{kind}' object is not callable"
  | .missing key => s!"'CodeGeneratorConfig' object has no attribute '{key}'"
  | .noCollection kind => s!"argument of type '{kind}' is not iterable"

/-! ## Settings -/

/-- The settings of a generation. -/
structure Config where
  /-- The types to leave out. The only setting that a replaced table of settings may lack. -/
  ignoreTypes : Option (Json Text) := some (.array [])
  /-- Whether names of fields and arguments are converted to lower case with underscores. -/
  convertFieldNames : Json Text := .bool true
  /-- The reason of a deprecation that gives none. -/
  defaultDeprecationReason : Json Text := .string "No reason specified."
  /-- Whether the module starts with the imports that it needs. -/
  addImports : Json Text := .bool false
  /-- Whether a header says how the module was made. -/
  addGenerationComment : Json Text := .bool true
  /-- What stands in place of the listing of the settings, if anything does. -/
  listing : Option (Json Text) := none
deriving Repr, Inhabited

namespace Config

/-- The configuration with one setting changed; a key of no setting changes nothing. -/
def set (config : Config) (key : Text) (value : Json Text) : Config :=
  match key.string? with
  | some "ignore_types" => { config with ignoreTypes := some value }
  | some "convert_field_names" => { config with convertFieldNames := value }
  | some "default_deprecation_reason" => { config with defaultDeprecationReason := value }
  | some "add_imports" => { config with addImports := value }
  | some "add_generation_comment" => { config with addGenerationComment := value }
  | some "to_dict" => { config with listing := some value }
  | _ => config

/-- The configuration whose table of settings is this one. All other settings have their defaults,
    but for the types to leave out, which have none. -/
def ofTable (table : List (Text × Json Text)) : Config :=
  table.foldl (fun config (key, value) => config.set key value) { ignoreTypes := none }

/-- The configuration with the value under a key taken in. A setting that is missing stays so. -/
def take (config : Config) (key : Text) (value : Json Text) : Except SettingError Config :=
  match key.string?, value with
  | some "__class__", value => .error (.notClass value.kindName)
  | some "__weakref__", _ => .error (.notWritable "__weakref__")
  | some "__dict__", .object table => .ok (ofTable table)
  | some "__dict__", value => .error (.notTable value.kindName)
  | some "ignore_types", value =>
    .ok (if config.ignoreTypes.isSome then config.set "ignore_types" value else config)
  | _, value => .ok (config.set key value)

/-- The configuration with these settings and the defaults for all others. -/
def ofMembers (members : List (Text × Json Text)) : Except SettingError Config :=
  members.foldlM (fun config (key, value) => config.take key value) {}

/-- All settings under their keys, unless something stands in the way of listing them. -/
def toMembers (config : Config) : Except SettingError (List (Text × Json Text)) :=
  match config.listing, config.ignoreTypes with
  | some value, _ => .error (.noListing value.kindName)
  | none, none => .error (.missing "ignore_types")
  | none, some types =>
    .ok
      [("ignore_types", types),
        ("convert_field_names", config.convertFieldNames),
        ("default_deprecation_reason", config.defaultDeprecationReason),
        ("add_imports", config.addImports),
        ("add_generation_comment", config.addGenerationComment)]

/-- Reading the listed settings back gives the configuration. -/
theorem ofMembers_of_toMembers {config : Config} {members : List (Text × Json Text)}
    (h : config.toMembers = .ok members) : ofMembers members = .ok config := by
  obtain ⟨types, names, reason, imports, comment, listing⟩ := config
  cases listing with
  | some value => simp [toMembers] at h
  | none =>
    cases types with
    | none => simp [toMembers] at h
    | some types =>
      simp only [toMembers, Except.ok.injEq] at h
      subst h
      rfl

/-! ## Use -/

/-- Whether a text occurs within another. -/
def occursIn (part : List CodePoint) : List CodePoint → Bool
  | [] => part.isEmpty
  | c :: rest => part.isPrefixOf (c :: rest) || occursIn part rest

/-- Whether a type is left out. A list names the types; in a text the name may occur anywhere, in
    an object it is a key. For values of other kinds the question makes no sense. -/
def ignores (config : Config) (type : String) : Except SettingError Bool :=
  match config.ignoreTypes with
  | none => .error (.missing "ignore_types")
  | some (.array items) => .ok (items.any fun
      | .string text => text == type
      | _ => false)
  | some (.string text) => .ok (occursIn (type : Text).points text.points)
  | some (.object members) => .ok (members.any (·.1 == type))
  | some value => .error (.noCollection value.kindName)

/-- The reason of a deprecation that gives none, as source text. -/
def reasonText (config : Config) : Text :=
  config.defaultDeprecationReason.print

end Config

end SchemaClasses
