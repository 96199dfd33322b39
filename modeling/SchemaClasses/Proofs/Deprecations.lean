import SchemaClasses.Proofs.GeneratedClasses
import SchemaClasses.Proofs.KeptRules

/-!
# Deprecations

The reason that the call of a deprecated field gives. A reason written in the schema is quoted,
except that the one which deprecations without a reason have by default goes the way of these: the
canonical document leaves it out, and the configured reason takes its place.
-/

namespace SchemaClasses

open Keyed (keys)

/-! ## Reasons -/

namespace Schema

variable {directives : List Directive} {d : Directive}

/-- Without the directive nothing is deprecated. -/
theorem deprecationReason_of_none (h : ∀ d ∈ directives, d.name ≠ "deprecated") :
    deprecationReason directives = .ok none := by
  have hfind : directives.find? (·.name = "deprecated") = none := by simpa using h
  rw [deprecationReason, hfind]

/-- The last argument of the name of the first deprecation decides. -/
theorem deprecationReason_of_string {content : String} {isBlock : Bool} {argument : Argument}
    (h : directives.find? (·.name = "deprecated") = some d)
    (hargument : d.arguments.reverse.find? (·.name = "reason") = some argument)
    (hvalue : argument.value = .string content isBlock) :
    deprecationReason directives = .ok (some content) := by
  simp only [deprecationReason, h, textArgument, hargument, hvalue]

/-- A deprecation that gives no reason has the one by default. -/
theorem deprecationReason_of_no_argument (h : directives.find? (·.name = "deprecated") = some d)
    (hargument : ∀ argument ∈ d.arguments, argument.name ≠ "reason") :
    deprecationReason directives = .ok (some BuiltIn.defaultReason) := by
  have hfind : d.arguments.reverse.find? (·.name = "reason") = none := by simpa using hargument
  simp only [deprecationReason, h, textArgument, hfind]

end Schema

namespace Field

/-- The source text for a reason in the call of a field: the reason by default has the configured
    one in its place. -/
def emittedReason (config : Config) (reason : String) : Text :=
  if reason = BuiltIn.defaultReason then config.reasonText else Text.quote reason

/-- What a canonical deprecation emits. -/
theorem mapM_reasonText_deprecatedDirective (config : Config) (reason : Option String) :
    (lastDeprecation (Schema.deprecatedDirective reason)).mapM (reasonText config) =
      .ok (reason.map (emittedReason config)) := by
  cases reason with
  | none => rfl
  | some text =>
    by_cases hdefault : text = BuiltIn.defaultReason
    · simp [Schema.deprecatedDirective, lastDeprecation, reasonText, emittedReason, hdefault]
    · simp [Schema.deprecatedDirective, lastDeprecation, reasonText, emittedReason, hdefault,
        Value.emit]

/-- The reason is the only keyword of its key in the call of a field. -/
theorem IsFieldCall.keyword?_deprecation {config : Config} {d : FieldDef}
    {arguments : List (String × Call)} {name : String} {call : Call}
    (h : IsFieldCall config d arguments name call) :
    ∃ reason, (lastDeprecation d.directives).mapM (reasonText config) = .ok reason ∧
      call.keyword? "deprecation_reason" = reason.map .source := by
  obtain ⟨type, reason, -, -, -, hreason, rfl⟩ := h
  refine ⟨reason, hreason, ?_⟩
  have hbefore : "deprecation_reason" ∉ keys (descriptionKeyword d.description
      ++ plainKeywords arguments ++ dictKeyword arguments) :=
    notMem_keys_arguments (by decide) (by decide) (by decide) _ _
  rw [Call.keyword?, Call.extend_keywords, typeCall, List.nil_append, keywordsOf,
    List.append_assoc, Keyed.lookup_append_of_notMem hbefore, lookup_textKeyword (by decide)]

/-- A directive that deprecates where these directives stand: the first of the name. There are no
    others unless the document lets it be repeated. -/
def DeprecatedBy (document : Document) (directives : List Directive) (d : Directive) : Prop :=
  d ∈ directives ∧ d.name = "deprecated" ∧
    ((Rules.directive? document "deprecated").any (·.repeatable) →
      directives.find? (·.name = "deprecated") = some d)

/-- What the call of a field says of its deprecation. -/
structure GivesReason (config : Config) (document : Document) (directives : List Directive)
    (call : Call) : Prop where
  /-- A reason of its own is quoted. -/
  written : ∀ d, DeprecatedBy document directives d → ∀ argument ∈ d.arguments,
    argument.name = "reason" → ∀ content isBlock, argument.value = .string content isBlock →
      content ≠ BuiltIn.defaultReason →
      call.keyword? "deprecation_reason" = some (.source (Text.quote content))
  /-- The configured reason is for deprecations without one. -/
  unwritten : ∀ d, DeprecatedBy document directives d →
    (∀ argument ∈ d.arguments, argument.name ≠ "reason") →
      call.keyword? "deprecation_reason" = some (.source config.reasonText)
  /-- It is also for those that write the reason that there is by default. -/
  byDefault : ∀ d, DeprecatedBy document directives d → ∀ argument ∈ d.arguments,
    argument.name = "reason" → ∀ isBlock, argument.value = .string BuiltIn.defaultReason isBlock →
      call.keyword? "deprecation_reason" = some (.source config.reasonText)
  none : (∀ d ∈ directives, d.name ≠ "deprecated") → call.keyword? "deprecation_reason" = none

/-- The rules on repeated directives leave one deprecation at most, so the first is the only one. -/
theorem DeprecatedBy.find? {document : Document} {field : FieldDef}
    (hrules : Rules.inField document field = []) {d : Directive}
    (h : DeprecatedBy document field.directives d) :
    field.directives.find? (·.name = "deprecated") = some d := by
  obtain ⟨hmem, hname, hrepeatable⟩ := h
  simp only [Rules.inField, List.append_eq_nil_iff] at hrules
  obtain ⟨⟨⟨hrepeated, -⟩, -⟩, -⟩ := hrules
  by_cases hagain : (Rules.directive? document "deprecated").any (·.repeatable)
  · exact hrepeatable hagain
  · refine Rules.find?_directive ?_ hrepeated d hmem hname
    obtain ⟨definition, hfound⟩ :=
      Option.isSome_iff_exists.mp (Rules.directive?_deprecated document)
    rw [hfound, Option.any_some] at hagain ⊢
    simpa using hagain

/-- The canonical deprecation of a field that keeps to the rules gives its reason. -/
theorem givesReason_of_canonical {config : Config} {document : Document} {field : FieldDef}
    (hrules : Rules.inField document field = []) {canonical : List Directive}
    (hcanonical : CanonicalDeprecation field.directives canonical) {call : Call}
    (hcall : ∃ reason, (lastDeprecation canonical).mapM (reasonText config) = .ok reason ∧
      call.keyword? "deprecation_reason" = reason.map .source) :
    GivesReason config document field.directives call := by
  obtain ⟨reason, hreason, rfl⟩ := hcanonical
  -- The keyword is what the reason that the schema stores emits.
  have hkeyword : ∀ stored, Schema.deprecationReason field.directives = .ok stored →
      call.keyword? "deprecation_reason" = stored.map fun text =>
        .source (emittedReason config text) := by
    intro stored hstored
    obtain rfl : reason = stored := Except.ok.inj (hreason.symm.trans hstored)
    obtain ⟨text, htext, hcall⟩ := hcall
    rw [mapM_reasonText_deprecatedDirective] at htext
    rw [hcall, ← Except.ok.inj htext, Option.map_map]
    rfl
  have hargument : ∀ d, DeprecatedBy document field.directives d → ∀ argument ∈ d.arguments,
      argument.name = "reason" → d.arguments.reverse.find? (·.name = "reason") = some argument := by
    intro d hd argument hmem hname
    simp only [Rules.inField, List.append_eq_nil_iff, Rules.inDirectives,
      List.flatMap_eq_nil_iff] at hrules
    rw [← hname]
    exact Rules.find?_argument (hrules.2 d hd.1) argument hmem
  constructor
  case written =>
    intro d hd argument hmem hname content isBlock hvalue hne
    rw [hkeyword _ (Schema.deprecationReason_of_string (hd.find? hrules)
      (hargument d hd argument hmem hname) hvalue), Option.map_some, emittedReason, if_neg hne]
  case unwritten =>
    intro d hd hnone
    rw [hkeyword _ (Schema.deprecationReason_of_no_argument (hd.find? hrules) hnone),
      Option.map_some, emittedReason, if_pos rfl]
  case byDefault =>
    intro d hd argument hmem hname isBlock hvalue
    rw [hkeyword _ (Schema.deprecationReason_of_string (hd.find? hrules)
      (hargument d hd argument hmem hname) hvalue), Option.map_some, emittedReason, if_pos rfl]
  case none =>
    intro hnone
    rw [hkeyword _ (Schema.deprecationReason_of_none hnone), Option.map_none]

end Field

/-! ## Modules -/

theorem outputFields_eq (body : TypeBody) : Rules.outputFields body = body.outputFields := by
  cases body <;> rfl

/-- Every field in the classes of a module gives the reason of its deprecation. -/
theorem generate_deprecations {config : Config} {commandLine : Text} {before after : Diagnostics}
    {text : String} {generation : Generation}
    (h : generate config commandLine before text = (.ok generation, after)) :
    ∃ document, Document.parse text = .ok document ∧ ∀ d ∈ document.declaredTypes,
      (d.body.kind = .object ∨ d.body.kind = .interface) → config.ignores d.name = .ok false →
      ∃ base bound,
        Module.Includes generation.code (Fragment.classBlock d.name base (d.description.getD "")
          (bound.map Assignment.render)) ∧
        List.Forall₂ (fun field a => Field.GivesReason config document field.directives a.call)
          d.body.outputFields bound := by
  obtain ⟨document, canonical, hparse, hrules, htypes⟩ := generate_classes h
  refine ⟨document, hparse, fun d hd hkind hkept => ?_⟩
  obtain ⟨c, -, hclass⟩ := Success.exists_of_mem_left htypes d hd
  obtain ⟨hcanonical, hinputs, hsome⟩ := hclass.parts.body.output hkind
  obtain ⟨base, bound, hincludes, hbinds⟩ := hclass.block hsome hkept
  refine ⟨base, bound, hincludes, Success.forall₂_trans hcanonical (hbinds.output hinputs) ?_⟩
  intro field hfield canonicalField a hcanonicalField hcall
  obtain ⟨arguments, hcall⟩ := hcall
  refine Field.givesReason_of_canonical ?_ hcanonicalField.directives hcall.keyword?_deprecation
  exact Rules.inField_eq_nil hrules hd field (by rwa [outputFields_eq])

/-- A schema with one field, which is deprecated for a reason. -/
def deprecatedText (reason : String) : String :=
  "type Query \x7b a: String @deprecated(reason: " ++ Text.quote reason ++ ") \x7d"

/-- A reason of its own arrives in the module. -/
theorem generate_deprecations_deprecatedText :
    ∃ generation after document,
      generate {} "" [] (deprecatedText "gone") = (.ok generation, after) ∧
      Document.parse (deprecatedText "gone") = .ok document ∧ ∀ d ∈ document.declaredTypes,
        (d.body.kind = .object ∨ d.body.kind = .interface) →
        (Config.ignores {} d.name = .ok false) →
        ∃ base bound,
          Module.Includes generation.code (Fragment.classBlock d.name base (d.description.getD "")
            (bound.map Assignment.render)) ∧
          List.Forall₂ (fun field a => Field.GivesReason {} document field.directives a.call)
            d.body.outputFields bound := by
  have hok : (generate {} "" [] (deprecatedText "gone")).1.isOk := by decide +kernel
  obtain ⟨generation, after, h⟩ := exists_generation hok
  obtain ⟨document, hparse, hall⟩ := generate_deprecations h
  exact ⟨generation, after, document, h, hparse, hall⟩

/-- A reason that is written out does not win if it is the one by default: the class has the
    configured one in its place. -/
theorem generate_deprecatedText_default :
    (generate {} "" [] (deprecatedText BuiltIn.defaultReason)).1.toOption.map Generation.code =
      some ("class Query(ObjectType):\n"
        ++ "    a = Field(lambda: String, deprecation_reason=\"No reason specified.\")\n" : Text) := by
  decide +kernel

end SchemaClasses
