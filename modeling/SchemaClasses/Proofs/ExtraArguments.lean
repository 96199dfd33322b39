import SchemaClasses.Proofs.FieldCalls

/-!
# Extra arguments

Which arguments of a field are passed as extra arguments of its call. A field of the class library
has parameters of its own, and a keyword with one of their names binds that parameter instead. Most
of these names are reserved, so that arguments with them go into a dictionary; three are not.
-/

namespace SchemaClasses.Field

open Assignment (freshNames IsBare underscored)
open Keyed (keys)

/-! ## Parameters -/

/-- The parameters of a field of the class library. All other keywords are extra arguments. -/
def parameters : List String :=
  ["self", "type_", "args", "resolver", "source", "deprecation_reason", "name", "description",
    "required", "_creation_counter", "default_value"]

/-- The keywords of a call that bind none of the parameters. -/
def extraArguments (call : Call) : List (String × Expr) :=
  call.keywords.filter (·.1 ∉ parameters)

/-- The parameters whose names are not reserved. -/
def openParameters : List String := ["self", "type_", "_creation_counter"]

/-- A parameter has a reserved name or an open one. -/
theorem mem_parameters_iff {name : String} :
    name ∈ parameters ↔ isReserved name ∨ name ∈ openParameters := by
  simp only [parameters, isReserved, reservedKeywords, openParameters, List.contains_iff_mem,
    List.mem_cons, List.not_mem_nil, or_false]
  tauto

/-! ## Names of arguments -/

/-- One of the names is that of a parameter that is not reserved, or two of them are that of the
    type, so that the second gets an underscore. -/
def TakesParameter (names : List String) : Prop :=
  "self" ∈ names ∨ "_creation_counter" ∈ names ∨ "type_" ∈ names ∨ 2 ≤ names.count "type"

instance (names : List String) : Decidable (TakesParameter names) :=
  inferInstanceAs (Decidable (_ ∨ _))

/-- Among the names that are given, such parameters occur exactly if they do among the names asked
    for. -/
theorem exists_openParameter_iff (names : List String) :
    (∃ name ∈ freshNames names, name ∈ openParameters) ↔ TakesParameter names := by
  have hself : "self" ∈ freshNames names ↔ "self" ∈ names :=
    Assignment.mem_freshNames (by simp [IsBare]) names
  have hcounter : "_creation_counter" ∈ freshNames names ↔ "_creation_counter" ∈ names :=
    Assignment.mem_freshNames (by simp [IsBare]) names
  have htype : "type_" ∈ freshNames names ↔ "type_" ∈ names ∨ 2 ≤ names.count "type" :=
    Assignment.mem_freshNames_underscored (show IsBare "type" by simp [IsBare]) names
  simp only [openParameters, List.mem_cons, List.not_mem_nil, or_false, and_or_left, exists_or,
    exists_eq_right, TakesParameter]
  tauto

/-! ## Calls -/

/-- A keyword of a key that has a meaning of its own is no extra argument. -/
theorem filter_of_sublist {keywords : List (String × Expr)} {key : String}
    (hkeys : (keys keywords).Sublist [key]) (hkey : key ∈ parameters) :
    keywords.filter (·.1 ∉ parameters) = [] := by
  rw [List.filter_eq_nil_iff]
  intro keyword hmem
  have hone : keyword.1 = key := by simpa using hkeys.mem (List.mem_map_of_mem hmem)
  simpa [hone] using hkey

/-- The extra arguments of a field are its plain arguments, but for those with the name of a
    parameter that is not reserved. -/
theorem IsFieldCall.extraArguments_eq {config : Config} {d : FieldDef}
    {arguments : List (String × Call)} {name : String} {call : Call}
    (h : IsFieldCall config d arguments name call) :
    extraArguments call = (plainKeywords arguments).filter (·.1 ∉ openParameters) := by
  obtain ⟨type, reason, -, -, -, -, rfl⟩ := h
  have hplain : (plainKeywords arguments).filter (·.1 ∉ parameters) =
      (plainKeywords arguments).filter (·.1 ∉ openParameters) := by
    refine List.filter_congr fun keyword hmem => ?_
    have hreserved := plainKeywords_not_reserved (List.mem_map_of_mem hmem)
    simp [mem_parameters_iff, hreserved]
  simp only [extraArguments, Call.extend_keywords, typeCall, List.nil_append, keywordsOf,
    List.filter_append, hplain, filter_of_sublist (keys_descriptionKeyword _) (by decide),
    filter_of_sublist (keys_dictKeyword _) (by decide),
    filter_of_sublist (keys_textKeyword "deprecation_reason" _) (by decide),
    filter_of_sublist (keys_nameKeyword _ _ _) (by decide), List.append_nil]

/-- No plain argument of a field has the name of a parameter if and only if the names of the schema
    lead to none that is not reserved. -/
theorem IsFieldCall.forall_notMem_parameters {config : Config} {d : FieldDef}
    {arguments : List (String × Call)} {name : String} {call : Call}
    (h : IsFieldCall config d arguments name call) :
    (∀ key ∈ keys (plainKeywords arguments), key ∉ parameters) ↔
      ¬ TakesParameter (d.arguments.map fun argument => codeName config argument.name) := by
  obtain ⟨type, reason, -, hnames, -⟩ := h
  rw [← exists_openParameter_iff, ← hnames, keys_plainKeywords]
  -- No open parameter is reserved, so an argument with its name is a plain one.
  have hopen : ∀ key ∈ openParameters, isReserved key = false := by decide
  constructor
  · rintro hplain ⟨key, hmem, hkey⟩
    refine hplain key (List.mem_filter.mpr ⟨hmem, ?_⟩) (mem_parameters_iff.mpr (.inr hkey))
    rw [hopen key hkey]
    rfl
  · intro hnone key hmem hkey
    obtain ⟨hgiven, hreserved⟩ := List.mem_filter.mp hmem
    rcases mem_parameters_iff.mp hkey with h | h
    · simp [h] at hreserved
    · exact hnone ⟨key, hgiven, h⟩

/-- The arguments of a field bind none of its parameters if and only if none of them is called
    `self`, `_creation_counter` or `type_`, and no two are called `type`. Whatever they are called,
    all plain arguments with other names are extra arguments, and nothing else is. All of this holds
    under every name that the field gets. -/
theorem ofField_extraArguments {config : Config} {d : FieldDef} {a : Assignment}
    (h : ofField config d = .ok a) :
    ∃ arguments, ∀ taken,
      let call := (a.avoiding taken).call
      IsFieldCall config d arguments (a.avoiding taken).name call ∧
      extraArguments call = (plainKeywords arguments).filter (·.1 ∉ openParameters) ∧
      ((∀ key ∈ keys (plainKeywords arguments), key ∉ parameters) ↔
        ¬ TakesParameter (d.arguments.map fun argument => codeName config argument.name)) := by
  obtain ⟨-, hpinned, type, arguments, reason, htype, harguments, hreason, hpins⟩ := ofField_pins h
  refine ⟨passed arguments, fun taken => ?_⟩
  have hcall :=
    (isFieldCall_of_pins htype harguments hreason (hpins.avoiding hpinned taken)).1
  exact ⟨hcall, hcall.extraArguments_eq, hcall.forall_notMem_parameters⟩

/-- A field with arguments of these names, all of the same type. -/
def fieldWith (names : List String) : FieldDef where
  description := none
  name := "f"
  arguments := names.map fun name => ⟨none, name, .named "Int", none, []⟩
  type := .named "Int"
  directives := []

/-- Names that only come close to those of parameters make no extra arguments. -/
theorem ofField_extraArguments_nearMisses :
    ∃ a arguments, ofField {} (fieldWith ["args", "Type", "TYPE_2", "_self", "name_"]) = .ok a ∧
      IsFieldCall {} (fieldWith ["args", "Type", "TYPE_2", "_self", "name_"]) arguments
        (a.avoiding ["f"]).name (a.avoiding ["f"]).call ∧
      keys arguments = ["args", "type", "type_2", "_self", "name_"] ∧
      ∀ key ∈ keys (plainKeywords arguments), key ∉ parameters := by
  have hok : (ofField {} (fieldWith ["args", "Type", "TYPE_2", "_self", "name_"])).isOk := by
    decide +kernel
  cases h : ofField {} (fieldWith ["args", "Type", "TYPE_2", "_self", "name_"]) with
  | error e => simp [h, Except.isOk, Except.toBool] at hok
  | ok a =>
    obtain ⟨arguments, hall⟩ := ofField_extraArguments h
    obtain ⟨hcall, -, hclear⟩ := hall ["f"]
    refine ⟨a, arguments, rfl, hcall, ?_, hclear.mpr (by decide +kernel)⟩
    obtain ⟨type, reason, -, hnames, -⟩ := hcall
    rw [hnames]
    decide +kernel

/-- Arguments with these names are passed under keywords that bind parameters of the field. The last
    of them is called so in the schema only up to its case. -/
theorem ofField_bindsParameters :
    ∃ a, ofField {} (fieldWith ["self", "_creation_counter", "type", "Type"]) = .ok a ∧
      a.call.keywords =
        [("self", .call "Argument" [.source "lambda: Int"] []),
          ("_creation_counter", .call "Argument" [.source "lambda: Int"] []),
          ("type", .call "Argument" [.source "lambda: Int"] []),
          ("type_", .call "Argument" [.source "lambda: Int"]
            [("name", .source (Text.quote "Type"))])] ∧
      "self" ∈ parameters ∧ "_creation_counter" ∈ parameters ∧ "type_" ∈ parameters := by
  have hkeywords : (ofField {} (fieldWith ["self", "_creation_counter", "type", "Type"])).map
      (·.call.keywords) = .ok
        [("self", .call "Argument" [.source "lambda: Int"] []),
          ("_creation_counter", .call "Argument" [.source "lambda: Int"] []),
          ("type", .call "Argument" [.source "lambda: Int"] []),
          ("type_", .call "Argument" [.source "lambda: Int"]
            [("name", .source (Text.quote "Type"))])] := by
    decide +kernel
  cases h : ofField {} (fieldWith ["self", "_creation_counter", "type", "Type"]) with
  | error e => simp [h, Except.map] at hkeywords
  | ok a =>
    rw [h] at hkeywords
    exact ⟨a, rfl, Except.ok.inj hkeywords, by decide, by decide, by decide⟩

end SchemaClasses.Field
