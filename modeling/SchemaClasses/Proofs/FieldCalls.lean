import SchemaClasses.Code.Fields
import SchemaClasses.Proofs.Identifiers
import SchemaClasses.Proofs.SourceText

/-!
# Calls of fields

What the call of a field and the call of an argument consist of, part by part and in order. Each
part of the schema has a keyword of its own, so that merging never replaces one part by another.
-/

namespace SchemaClasses.Field

open Assignment (nameKeyword freshNames)
open Keyed (keys)

/-! ## Parts of a call -/

def convertedName (config : Config) (schemaName : String) : String :=
  if config.convertFieldNames.isTruthy then Text.snakeCase schemaName else schemaName

/-- The name in the generated code, before it gives way to others. -/
def codeName (config : Config) (schemaName : String) : String :=
  Text.identifier schemaName config.convertFieldNames.isTruthy

def typeCall (callee type : String) : Call :=
  ⟨callee, [.source ("lambda: " ++ type)], []⟩

/-- The keyword for a description, unless that is empty. -/
def descriptionKeyword (description : Option String) : List (String × Expr) :=
  if (description.getD "").isEmpty then []
  else [("description", .source (Text.quote (description.getD "")))]

/-- A keyword for source text, if there is any. -/
def textKeyword (key : String) (text : Option Text) : List (String × Expr) :=
  (text.map fun text => (key, Expr.source text)).toList

/-- One keyword for each argument whose name has no other meaning. -/
def plainKeywords (arguments : List (String × Call)) : List (String × Expr) :=
  (arguments.filter fun argument => !isReserved argument.1).map fun (name, call) =>
    (name, call.toExpr)

/-- The keyword for all other arguments, if there are any. -/
def dictKeyword (arguments : List (String × Call)) : List (String × Expr) :=
  let reserved := arguments.filter fun argument => isReserved argument.1
  if reserved.isEmpty then [] else [("args", .source (argumentDict reserved))]

/-- The last directive that deprecates a field. -/
def lastDeprecation (directives : List Directive) : Option Directive :=
  (directives.filter (·.name = "deprecated")).getLast?

/-- `call` is what an input value becomes under the name `name`: its type, description and default,
    and its name in the schema if that differs. -/
def IsInputCall (config : Config) (callee : String) (d : InputValueDef) (name : String)
    (call : Call) : Prop :=
  ∃ type default, d.type.emit = .ok type ∧ d.defaultValue.mapM Value.emit = .ok default ∧
    call = (typeCall callee type).extend
      (descriptionKeyword d.description ++ textKeyword "default_value" (default.map Text.ofString)
        ++ nameKeyword d.name (convertedName config d.name) name)

/-- The keywords of a field but for its name in the schema. -/
def keywordsOf (d : FieldDef) (arguments : List (String × Call)) (reason : Option Text) :
    List (String × Expr) :=
  descriptionKeyword d.description ++ plainKeywords arguments ++ dictKeyword arguments
    ++ textKeyword "deprecation_reason" reason

/-- `call` is what a field becomes under the name `name`. Its type is the one positional part. Its
    keywords are the description, the plain arguments, the dictionary of the other arguments, the
    reason of the last deprecation, and its name in the schema if that differs from the converted
    one. The arguments are those of the schema in order, with names of their own. -/
def IsFieldCall (config : Config) (d : FieldDef) (arguments : List (String × Call))
    (name : String) (call : Call) : Prop :=
  ∃ type reason, d.type.emit = .ok type ∧
    keys arguments = freshNames (d.arguments.map fun argument => codeName config argument.name) ∧
    List.Forall₂ (fun d argument => IsInputCall config "Argument" d argument.1 argument.2)
      d.arguments arguments ∧
    (lastDeprecation d.directives).mapM (reasonText config) = .ok reason ∧
    call = (typeCall "Field" type).extend
      (keywordsOf d arguments reason ++ nameKeyword d.name (convertedName config d.name) name)

/-! ## Keys -/

theorem keys_descriptionKeyword (description : Option String) :
    (keys (descriptionKeyword description)).Sublist ["description"] := by
  unfold descriptionKeyword
  split <;> simp

theorem keys_textKeyword (key : String) (text : Option Text) :
    (keys (textKeyword key text)).Sublist [key] := by
  cases text <;> simp [textKeyword]

theorem keys_nameKeyword (schemaName converted name : String) :
    (keys (nameKeyword schemaName converted name)).Sublist ["name"] := by
  unfold nameKeyword
  split <;> simp

/-- The keyword for a text is the first of its key where only the name of the schema follows. -/
theorem lookup_textKeyword {key : String} (hkey : key ≠ "name") (text : Option Text)
    (schemaName converted name : String) :
    (textKeyword key text ++ nameKeyword schemaName converted name).lookup key =
      text.map .source := by
  have hname : key ∉ keys (nameKeyword schemaName converted name) :=
    fun hmem => hkey (by simpa using (keys_nameKeyword _ _ _).mem hmem)
  cases text with
  | none =>
    rw [textKeyword, Option.map_none, Option.toList_none, List.nil_append, Option.map_none,
      ← List.append_nil (nameKeyword _ _ _), Keyed.lookup_append_of_notMem hname]
    rfl
  | some text => simp [textKeyword]

theorem keys_dictKeyword (arguments : List (String × Call)) :
    (keys (dictKeyword arguments)).Sublist ["args"] := by
  simp only [dictKeyword]
  split <;> simp

/-- The names that are not reserved are passed as keywords, in order. -/
theorem keys_plainKeywords (arguments : List (String × Call)) :
    keys (plainKeywords arguments) = (keys arguments).filter fun name => !isReserved name := by
  simp [plainKeywords, keys, List.filter_map, Function.comp_def]

theorem plainKeywords_not_reserved {arguments : List (String × Call)} {key : String}
    (h : key ∈ keys (plainKeywords arguments)) : isReserved key = false := by
  rw [keys_plainKeywords, List.mem_filter] at h
  simpa using h.2

/-- A reserved key of another meaning is not among those of a description and arguments. -/
theorem notMem_keys_arguments {key : String} (hreserved : isReserved key)
    (hdescription : key ≠ "description") (hargs : key ≠ "args") (description : Option String)
    (arguments : List (String × Call)) :
    key ∉ keys (descriptionKeyword description ++ plainKeywords arguments
      ++ dictKeyword arguments) := by
  simp only [Keyed.keys_append, List.mem_append, not_or]
  refine ⟨⟨fun hmem => ?_, fun hmem => ?_⟩, fun hmem => ?_⟩
  · exact hdescription (by simpa using (keys_descriptionKeyword _).mem hmem)
  · rw [plainKeywords_not_reserved hmem] at hreserved
    exact absurd hreserved (by simp)
  · exact hargs (by simpa using (keys_dictKeyword _).mem hmem)

/-- The keys of a field are among the reserved ones and those of its plain arguments, in order. -/
theorem keys_sublist (d : FieldDef) (arguments : List (String × Call)) (reason : Option Text)
    (converted name : String) :
    (keys (keywordsOf d arguments reason ++ nameKeyword d.name converted name)).Sublist
      (["description"] ++ keys (plainKeywords arguments) ++ ["args"] ++ ["deprecation_reason"]
        ++ ["name"]) := by
  simp only [keywordsOf, Keyed.keys_append]
  exact ((((keys_descriptionKeyword _).append (.refl _)).append (keys_dictKeyword _)).append
    (keys_textKeyword _ _)).append (keys_nameKeyword _ _ _)

/-- Arguments with different names leave no two keywords of a field with one key. -/
theorem keys_nodup (d : FieldDef) {arguments : List (String × Call)} (reason : Option Text)
    (converted name : String) (h : (keys arguments).Nodup) :
    (keys (keywordsOf d arguments reason ++ nameKeyword d.name converted name)).Nodup := by
  refine List.Nodup.sublist (keys_sublist d arguments reason converted name) ?_
  have hplain : (keys (plainKeywords arguments)).Nodup := by
    rw [keys_plainKeywords]
    exact h.filter _
  -- All keys that a field has of its own are reserved, which no plain argument is called.
  have hfresh : ∀ key, isReserved key = true → key ∉ keys (plainKeywords arguments) := by
    intro key hkey hmem
    rw [plainKeywords_not_reserved hmem] at hkey
    exact absurd hkey (by simp)
  have hdescription := hfresh "description" (by decide)
  have hargs := hfresh "args" (by decide)
  have hreason := hfresh "deprecation_reason" (by decide)
  have hname := hfresh "name" (by decide)
  simp only [List.nodup_append, List.mem_append, List.mem_singleton]
  grind

/-! ## The type and the description -/

theorem baseCall_eq_ok {type : TypeRef} {description : Option String} {call : Call}
    (h : baseCall type description = .ok call) :
    ∃ text, type.emit = .ok text ∧
      call = (typeCall "Field" text).extend (descriptionKeyword description) := by
  simp only [baseCall, Success.bind_eq_ok, Success.mapError_eq_ok, Success.pure_eq_ok] at h
  obtain ⟨text, htype, rfl⟩ := h
  refine ⟨text, htype, ?_⟩
  unfold descriptionKeyword
  split
  case isTrue => rw [Call.extend_nil, typeCall]
  case isFalse => exact Call.merge_single (Assignment.quote_isEmpty _) (by simp)

/-! ## The name -/

theorem codeName_eq (config : Config) (schemaName : String) :
    codeName config schemaName = Text.escapeKeyword (convertedName config schemaName) := rfl

/-- The escaped name is the converted one with at most one underscore after it. -/
theorem codeName_eq_underscored (config : Config) (schemaName : String) :
    ∃ count, codeName config schemaName =
      Assignment.underscored (convertedName config schemaName) count := by
  rw [codeName_eq, Text.escapeKeyword_eq]
  exact ⟨_, rfl⟩

@[simp] theorem convertedName_empty (config : Config) : convertedName config "" = "" := by
  unfold convertedName
  split <;> rfl

@[simp] theorem codeName_empty (config : Config) : codeName config "" = "" := by
  rw [codeName_eq, convertedName_empty]
  rfl

/-- The assignment to the converted name, which may be a keyword. -/
def convertedAssignment (config : Config) (schemaName : String) (call : Call)
    (imports : List Import) : Assignment :=
  ⟨convertedName config schemaName, call, imports, schemaName⟩

/-- Only a keyword is renamed. -/
theorem assign_eq (config : Config) (schemaName : String) (call : Call) (imports : List Import) :
    assign config schemaName call imports =
      if codeName config schemaName = convertedName config schemaName then
        convertedAssignment config schemaName call imports
      else
        (convertedAssignment config schemaName call imports).renamed
          (codeName config schemaName) := rfl

@[simp] theorem assign_name (config : Config) (schemaName : String) (call : Call)
    (imports : List Import) :
    (assign config schemaName call imports).name = codeName config schemaName := by
  rw [assign_eq]
  split
  case isTrue h => exact h.symm
  case isFalse => rfl

/-- Whatever it is bound to, the schema name is the one that is pinned. -/
theorem convertedAssignment_pinnedName (config : Config) (schemaName : String) (call : Call)
    (imports : List Import) :
    (convertedAssignment config schemaName call imports).pinnedName = schemaName := by
  by_cases hempty : schemaName = ""
  · subst hempty
    simp [Assignment.pinnedName, convertedAssignment]
  · simp [Assignment.pinnedName, convertedAssignment, hempty]

/-- The name of the schema can be recovered from an assignment, also if it is empty. -/
theorem assign_pinnedName (config : Config) (schemaName : String) (call : Call)
    (imports : List Import) :
    (assign config schemaName call imports).pinnedName = schemaName := by
  rw [assign_eq]
  split
  case isTrue => exact convertedAssignment_pinnedName config schemaName call imports
  case isFalse hne =>
    -- An empty name is no keyword, so nothing renames it.
    have hempty : schemaName ≠ "" := by
      rintro rfl
      exact hne (by simp)
    simp [Assignment.pinnedName, Assignment.renamed, convertedAssignment, hempty]

/-- An assignment has the converted name, or pins the name of the schema. -/
theorem assign_pins (config : Config) (schemaName : String) {call : Call} (imports : List Import)
    (h : "name" ∉ keys call.keywords) :
    (assign config schemaName call imports).Pins schemaName (convertedName config schemaName)
      call := by
  obtain ⟨count, hcount⟩ := codeName_eq_underscored config schemaName
  have hplain : (convertedAssignment config schemaName call imports).Pins schemaName
      (convertedName config schemaName) call :=
    ⟨⟨0, (Assignment.underscored_zero _).symm⟩, by simp [nameKeyword, convertedAssignment], h⟩
  rw [assign_eq]
  split
  case isTrue => exact hplain
  case isFalse hne =>
    rw [hcount] at hne ⊢
    exact hplain.renamed (convertedAssignment_pinnedName config schemaName call imports)
      fun hzero => hne (by rw [hzero, Assignment.underscored_zero])

/-! ## Arguments -/

/-- Merging source text, if there is any, adds its keyword. -/
theorem merge_text {call : Call} {key : String} {text : Option Text}
    (htext : ∀ t, text = some t → t ≠ "") (hkey : key ∉ keys call.keywords) :
    call.merge [(key, text.map .source)] = call.extend (textKeyword key text) := by
  cases text with
  | none => simp [textKeyword, Call.merge_cons, Call.mergeOne]
  | some t => exact Call.merge_single (by simpa [Expr.isEmpty] using htext t rfl) hkey

/-- No default is written as the empty text, so a merge keeps it. -/
theorem emit_text_ne_empty {value : Option Value} {text : Option String}
    (h : value.mapM Value.emit = .ok text) : ∀ t, text.map Text.ofString = some t → t ≠ "" := by
  intro t ht
  obtain ⟨source, rfl, rfl⟩ := Option.map_eq_some_iff.mp ht
  obtain ⟨v, -, hv⟩ := Success.option_mapM_eq_ok.mp h
  simpa using Value.emit_ne_empty hv

/-- The default of an input value is merged into its call, if there is one. -/
theorem ofInputValue_eq_ok {config : Config} {d : InputValueDef} {a : Assignment}
    (h : ofInputValue config d = .ok a) :
    ∃ base default, baseCall d.type d.description = .ok base ∧
      d.defaultValue.mapM Value.emit = .ok default ∧
      a = assign config d.name
        (base.merge [("default_value", (default.map Text.ofString).map .source)])
        d.type.imports := by
  unfold ofInputValue at h
  cases hvalue : d.defaultValue with
  | none =>
    simp only [hvalue, Success.bind_eq_ok, Success.pure_eq_ok] at h
    obtain ⟨base, hbase, call, rfl, rfl⟩ := h
    exact ⟨base, none, hbase, rfl, rfl⟩
  | some value =>
    simp only [hvalue, Success.bind_eq_ok, Success.mapError_eq_ok, Success.pure_eq_ok] at h
    obtain ⟨base, hbase, text, htext, call, rfl, rfl⟩ := h
    exact ⟨base, some text, hbase, by simp [htext], rfl⟩

/-- An input value becomes a call of its own parts, and pins its name. -/
theorem ofInputValue_pins {config : Config} {d : InputValueDef} {a : Assignment}
    (h : ofInputValue config d = .ok a) :
    a.name = codeName config d.name ∧ a.pinnedName = d.name ∧
      ∃ type default, d.type.emit = .ok type ∧ d.defaultValue.mapM Value.emit = .ok default ∧
        a.Pins d.name (convertedName config d.name)
          ((typeCall "Field" type).extend
            (descriptionKeyword d.description
              ++ textKeyword "default_value" (default.map Text.ofString))) := by
  obtain ⟨base, default, hbase, hdefault, rfl⟩ := ofInputValue_eq_ok h
  obtain ⟨type, htype, rfl⟩ := baseCall_eq_ok hbase
  refine ⟨assign_name .., assign_pinnedName .., type, default, htype, hdefault, ?_⟩
  -- The default comes last, so its keyword is a new one.
  have hkey : "default_value" ∉
      keys ((typeCall "Field" type).extend (descriptionKeyword d.description)).keywords :=
    fun hmem => absurd ((keys_descriptionKeyword _).mem hmem) (by decide)
  rw [merge_text (emit_text_ne_empty hdefault) hkey, Call.extend_extend]
  refine assign_pins config d.name d.type.imports fun hmem => ?_
  rw [Call.extend_keywords, typeCall, List.nil_append, Keyed.keys_append, List.mem_append] at hmem
  rcases hmem with hmem | hmem
  · exact absurd ((keys_descriptionKeyword _).mem hmem) (by decide)
  · exact absurd ((keys_textKeyword _ _).mem hmem) (by decide)

/-- The arguments of a field as they are passed, under their final names. -/
def passed (arguments : List Assignment) : List (String × Call) :=
  (Assignment.unique arguments).map Assignment.asArgument

/-- Arguments are passed under names of their own. -/
theorem keys_passed (arguments : List Assignment) :
    keys (passed arguments) = freshNames (arguments.map Assignment.name) := by
  rw [← Assignment.map_name_unique]
  simp [passed, keys, Function.comp_def, Assignment.asArgument]

/-- The names that arguments are passed under come from those of the schema. -/
theorem passed_names {config : Config} {defs : List InputValueDef} {arguments : List Assignment}
    (h : defs.mapM (ofInputValue config) = .ok arguments) :
    keys (passed arguments) = freshNames (defs.map fun d => codeName config d.name) := by
  have hall := Success.mapM_eq_ok.mp h
  rw [keys_passed]
  congr 1
  clear h
  induction hall with
  | nil => rfl
  | cons hhead _ ih => rw [List.map_cons, List.map_cons, (ofInputValue_pins hhead).1, ih]

/-- Under every name that an input value gets, its call has all of its parts. -/
theorem isInputCall_of_pins {config : Config} {d : InputValueDef} {type : String}
    {default : Option String} {bound : Assignment} (htype : d.type.emit = .ok type)
    (hdefault : d.defaultValue.mapM Value.emit = .ok default)
    (hpins : bound.Pins d.name (convertedName config d.name) ((typeCall "Field" type).extend
      (descriptionKeyword d.description
        ++ textKeyword "default_value" (default.map Text.ofString)))) :
    IsInputCall config "Field" d bound.name bound.call := by
  have hcall := hpins.call
  rw [Call.extend_extend] at hcall
  exact ⟨type, default, htype, hdefault, hcall⟩

/-- The parts of a call do not depend on what is called. -/
theorem IsInputCall.retarget {config : Config} {callee : String} {d : InputValueDef} {name : String}
    {call : Call} (h : IsInputCall config callee d name call) (other : String) :
    IsInputCall config other d name (call.retarget other) := by
  obtain ⟨type, default, htype, hdefault, rfl⟩ := h
  exact ⟨type, default, htype, hdefault, rfl⟩

/-- All input values of a list are bound with all of their parts. -/
theorem inputCalls_unique {config : Config} {defs : List InputValueDef}
    {assignments : List Assignment} (h : defs.mapM (ofInputValue config) = .ok assignments) :
    List.Forall₂ (fun d bound => IsInputCall config "Field" d bound.name bound.call) defs
      (Assignment.unique assignments) := by
  refine Assignment.forall₂_unique (Success.mapM_eq_ok.mp h) fun d a taken ha => ?_
  obtain ⟨-, hpinned, type, default, htype, hdefault, hpins⟩ := ofInputValue_pins ha
  exact isInputCall_of_pins htype hdefault (hpins.avoiding hpinned taken)

/-- Each argument is passed with all of its parts. -/
theorem passed_calls {config : Config} {defs : List InputValueDef} {arguments : List Assignment}
    (h : defs.mapM (ofInputValue config) = .ok arguments) :
    List.Forall₂ (fun d argument => IsInputCall config "Argument" d argument.1 argument.2) defs
      (passed arguments) := by
  rw [passed, List.forall₂_map_right_iff]
  exact (inputCalls_unique h).imp fun _ _ hcall => hcall.retarget "Argument"

/-- Merging the arguments adds the plain ones in order, and then all others as one keyword. -/
theorem withArguments_eq {call : Call} (arguments : List Assignment)
    (h : ∀ key ∈ keys call.keywords, isReserved key ∧ key ≠ "args") :
    withArguments call arguments =
      call.extend (plainKeywords (passed arguments) ++ dictKeyword (passed arguments)) := by
  have hnodup : (keys (passed arguments)).Nodup := by
    rw [keys_passed]
    exact Assignment.freshNames_nodup _
  -- The plain arguments have keys of their own, and the call has reserved ones only.
  have hplain : call.merge (Call.given (plainKeywords (passed arguments))) =
      call.extend (plainKeywords (passed arguments)) := by
    apply Call.merge_fresh
    · intro keyword hkeyword
      obtain ⟨argument, -, rfl⟩ := List.mem_map.mp hkeyword
      rfl
    · rw [keys_plainKeywords]
      exact hnodup.filter _
    · intro key hkey hmem
      have hreserved := (h key hmem).1
      rw [plainKeywords_not_reserved hkey] at hreserved
      exact absurd hreserved (by simp)
  have hsplit : withArguments call arguments =
      if ((passed arguments).filter fun argument => isReserved argument.1).isEmpty then
        call.merge (Call.given (plainKeywords (passed arguments)))
      else
        (call.merge (Call.given (plainKeywords (passed arguments)))).merge
          [("args", some (.source (argumentDict
            ((passed arguments).filter fun argument => isReserved argument.1))))] := by
    simp only [withArguments, passed, plainKeywords, Call.given, List.map_map]
    rfl
  -- What is left is the one keyword for the others, which is not among the keys so far.
  rw [hsplit, hplain]
  simp only [dictKeyword]
  split
  case isTrue => rw [List.append_nil]
  case isFalse =>
    rw [Call.merge_single, Call.extend_extend]
    · simp [Expr.isEmpty, argumentDict]
    · intro hmem
      rw [Call.extend_keywords, Keyed.keys_append, List.mem_append] at hmem
      rcases hmem with hmem | hmem
      · exact (h _ hmem).2 rfl
      · exact absurd (plainKeywords_not_reserved hmem) (by decide)

/-! ## Deprecation -/

/-- No reason is written as the empty text either. -/
theorem reasonText_ne_empty {config : Config} {d : Directive} {text : Text}
    (h : reasonText config d = .ok text) : text ≠ "" := by
  unfold reasonText at h
  split at h
  · obtain ⟨source, hsource, rfl⟩ := Success.map_eq_ok.mp h
    simpa using Value.emit_ne_empty (Success.mapError_eq_ok.mp hsource)
  · rw [Except.ok.injEq] at h
    exact h ▸ Json.print_ne_empty _

/-- A deprecation at the front counts only if none follows it. -/
theorem lastDeprecation_cons {d : Directive} (h : d.name = "deprecated") (rest : List Directive) :
    lastDeprecation (d :: rest) = (lastDeprecation rest).or (some d) := by
  have hfilter : (d :: rest).filter (fun d => decide (d.name = "deprecated")) =
      d :: rest.filter fun d => decide (d.name = "deprecated") :=
    List.filter_cons_of_pos (by simpa using h)
  rw [lastDeprecation, lastDeprecation, hfilter, List.getLast?_cons]
  cases (rest.filter fun d => decide (d.name = "deprecated")).getLast? <;> rfl

/-- Whichever reason a call has, that of the last deprecation takes its place. -/
theorem withDeprecation_eq_ok {config : Config} {call result : Call} {directives : List Directive}
    {old : Option Text} (hkey : "deprecation_reason" ∉ keys call.keywords)
    (h : withDeprecation config (call.extend (textKeyword "deprecation_reason" old)) directives =
      .ok result) :
    ∃ reason, (lastDeprecation directives).mapM (reasonText config) = .ok reason ∧
      result = call.extend (textKeyword "deprecation_reason" (reason.or old)) := by
  induction directives generalizing old with
  | nil =>
    simp only [withDeprecation, Except.ok.injEq] at h
    exact ⟨none, rfl, h.symm⟩
  | cons d rest ih =>
    unfold withDeprecation at h
    split at h
    case isTrue hname =>
      simp only [Success.bind_eq_ok] at h
      obtain ⟨text, htext, h⟩ := h
      -- The first reason is added at the end, and each further one takes its place.
      have hmerge : (call.extend (textKeyword "deprecation_reason" old)).merge
          [("deprecation_reason", some (.source text))] =
          call.extend (textKeyword "deprecation_reason" (some text)) := by
        have hvalue : (Expr.source text).isEmpty = false := by
          simpa [Expr.isEmpty] using reasonText_ne_empty htext
        cases old with
        | none => simpa [textKeyword] using Call.merge_single hvalue hkey
        | some t => exact Call.merge_single_again hvalue hkey _
      rw [hmerge] at h
      obtain ⟨reason, hreason, rfl⟩ := ih h
      -- This reason stays only if no deprecation follows.
      rw [lastDeprecation_cons hname]
      cases hlast : lastDeprecation rest with
      | none =>
        rw [hlast, Option.mapM_none, Success.pure_eq_ok] at hreason
        subst hreason
        exact ⟨some text, by simp [htext], rfl⟩
      | some last =>
        rw [hlast, Option.mapM_some, Success.map_eq_ok] at hreason
        obtain ⟨t, ht, rfl⟩ := hreason
        exact ⟨some t, by simp [ht], rfl⟩
    case isFalse hname =>
      obtain ⟨reason, hreason, rfl⟩ := ih h
      exact ⟨reason, by simpa [lastDeprecation, hname] using hreason, rfl⟩

/-! ## Fields -/

/-- What a field is bound to, what it pins, and the parts that its call is put together from. -/
theorem ofField_pins {config : Config} {d : FieldDef} {a : Assignment}
    (h : ofField config d = .ok a) :
    a.name = codeName config d.name ∧ a.pinnedName = d.name ∧
      ∃ type arguments reason, d.type.emit = .ok type ∧
        d.arguments.mapM (ofInputValue config) = .ok arguments ∧
        (lastDeprecation d.directives).mapM (reasonText config) = .ok reason ∧
        a.Pins d.name (convertedName config d.name)
          ((typeCall "Field" type).extend (keywordsOf d (passed arguments) reason)) := by
  simp only [ofField, Success.bind_eq_ok, Success.pure_eq_ok] at h
  obtain ⟨arguments, harguments, base, hbase, call, hcall, rfl⟩ := h
  obtain ⟨type, htype, rfl⟩ := baseCall_eq_ok hbase
  have hdescription : ∀ key ∈ keys ((typeCall "Field" type).extend
      (descriptionKeyword d.description)).keywords, isReserved key ∧ key ≠ "args" := by
    intro key hmem
    obtain rfl : key = "description" := by
      simpa using (keys_descriptionKeyword d.description).mem hmem
    decide
  -- The arguments come after the description, and the reason after both.
  rw [withArguments_eq arguments hdescription, Call.extend_extend, ← List.append_assoc] at hcall
  have hreason : "deprecation_reason" ∉ keys ((typeCall "Field" type).extend
      (descriptionKeyword d.description ++ plainKeywords (passed arguments)
        ++ dictKeyword (passed arguments))).keywords :=
    notMem_keys_arguments (by decide) (by decide) (by decide) _ _
  rw [← Call.extend_nil (Call.extend _ _)] at hcall
  obtain ⟨reason, hdeprecation, rfl⟩ : ∃ reason,
      (lastDeprecation d.directives).mapM (reasonText config) = .ok reason ∧
      call = Call.extend _ (textKeyword "deprecation_reason" (reason.or none)) :=
    withDeprecation_eq_ok hreason hcall
  refine ⟨assign_name .., assign_pinnedName .., type, arguments, reason, htype, harguments,
    hdeprecation, ?_⟩
  -- Nothing so far has the key of the name, which no argument can have either.
  rw [Option.or_none, Call.extend_extend]
  refine assign_pins config d.name _ fun hmem => ?_
  rw [Call.extend_keywords, typeCall, List.nil_append, Keyed.keys_append, List.mem_append] at hmem
  rcases hmem with hmem | hmem
  · exact notMem_keys_arguments (by decide) (by decide) (by decide) _ _ hmem
  · exact absurd ((keys_textKeyword _ _).mem hmem) (by decide)

/-- Under every name that a field gets, its call has all of its parts and no key twice. -/
theorem isFieldCall_of_pins {config : Config} {d : FieldDef} {arguments : List Assignment}
    {type : String} {reason : Option Text} {bound : Assignment} (htype : d.type.emit = .ok type)
    (harguments : d.arguments.mapM (ofInputValue config) = .ok arguments)
    (hreason : (lastDeprecation d.directives).mapM (reasonText config) = .ok reason)
    (hpins : bound.Pins d.name (convertedName config d.name)
      ((typeCall "Field" type).extend (keywordsOf d (passed arguments) reason))) :
    IsFieldCall config d (passed arguments) bound.name bound.call ∧
      (keys bound.call.keywords).Nodup := by
  have hcall := hpins.call
  rw [Call.extend_extend] at hcall
  refine ⟨⟨type, reason, htype, passed_names harguments, passed_calls harguments, hreason, hcall⟩, ?_⟩
  rw [hcall]
  refine keys_nodup d reason _ _ ?_
  rw [keys_passed]
  exact Assignment.freshNames_nodup _

/-- All fields of a list are bound with all of their parts. -/
theorem fieldCalls_unique {config : Config} {defs : List FieldDef} {assignments : List Assignment}
    (h : defs.mapM (ofField config) = .ok assignments) :
    List.Forall₂ (fun d bound => ∃ arguments, d.arguments.mapM (ofInputValue config) = .ok arguments ∧
      IsFieldCall config d (passed arguments) bound.name bound.call) defs
      (Assignment.unique assignments) := by
  refine Assignment.forall₂_unique (Success.mapM_eq_ok.mp h) fun d a taken ha => ?_
  obtain ⟨-, hpinned, type, arguments, reason, htype, harguments, hreason, hpins⟩ := ofField_pins ha
  exact ⟨arguments, harguments,
    (isFieldCall_of_pins htype harguments hreason (hpins.avoiding hpinned taken)).1⟩

/-- A field keeps all of its parts, each under a key of its own. Both stay so when the field gives
    way to names that are taken. -/
theorem ofField_call {config : Config} {d : FieldDef} {a : Assignment}
    (h : ofField config d = .ok a) :
    a.name = codeName config d.name ∧ ∃ arguments,
      IsFieldCall config d arguments a.name a.call ∧ (keys a.call.keywords).Nodup ∧
      ∀ taken, IsFieldCall config d arguments (a.avoiding taken).name (a.avoiding taken).call ∧
        (keys (a.avoiding taken).call.keywords).Nodup := by
  obtain ⟨hname, hpinned, type, arguments, reason, htype, harguments, hreason, hpins⟩ :=
    ofField_pins h
  have hcall := isFieldCall_of_pins htype harguments hreason hpins
  refine ⟨hname, passed arguments, hcall.1, hcall.2, fun taken => ?_⟩
  exact isFieldCall_of_pins htype harguments hreason (hpins.avoiding hpinned taken)

/-- A deprecated field named by a keyword, whose arguments clash with each other and with a keyword
    of fields. -/
def crowdedField : FieldDef where
  description := some "say \"hi\""
  name := "from"
  arguments :=
    [⟨none, "userId", .named "ID", some (.int ⟨false, 5⟩), []⟩,
      ⟨none, "user_id", .list (.named "Int"), none, []⟩,
      ⟨some "d", "name", .named "String", some .null, []⟩]
  type := .nonNull (.named "String")
  directives := [⟨"deprecated", [⟨"reason", .string "a" false, 0⟩], 0⟩, ⟨"deprecated", [], 0⟩]

/-- A field where every keyword is given and names clash. -/
theorem ofField_call_crowdedField :
    ∃ a arguments, ofField {} crowdedField = .ok a ∧
      IsFieldCall {} crowdedField arguments a.name a.call ∧ (keys a.call.keywords).Nodup := by
  have hok : (ofField {} crowdedField).isOk := by decide +kernel
  cases h : ofField {} crowdedField with
  | error e => simp [h, Except.isOk, Except.toBool] at hok
  | ok a =>
    obtain ⟨-, arguments, hcall, hnodup, -⟩ := ofField_call h
    exact ⟨a, arguments, rfl, hcall, hnodup⟩

end SchemaClasses.Field
