import SchemaClasses.Proofs.DefaultLiterals
import SchemaClasses.Proofs.GeneratedClasses
import SchemaClasses.Proofs.KeptRules
import SchemaClasses.Proofs.Parsing

/-!
# Defaults

The default of an argument or an input field in a generated module means the same as the literal in
the text that the module was generated for, if the literal has the shape of its type. The text goes
through the canonical document, where the literal may be written differently.
-/

namespace SchemaClasses

open Keyed (keys)

/-! ## Declared types -/

/-- The numbers in the defaults of declared types are complete, whatever extensions add. -/
theorem Document.isLexical_declaredTypes {document : Document}
    (h : ∀ definition ∈ document, definition.IsLexical) :
    ∀ d ∈ document.declaredTypes, d.body.IsLexical := by
  refine forall_declaredTypes (fun body more hbody hmore => ?_) fun part hpart => ?_
  · unfold TypeBody.extend
    split
    case h_1 | h_2 | h_5 => exact List.forall_mem_append.mpr ⟨hbody, hmore⟩
    case h_3 | h_4 => trivial
    case h_6 => exact hbody
  · obtain hpart | hpart := hpart <;> exact h _ hpart

/-- The fields of input types correspond to those that are looked up by the name of the type. -/
theorem CanonicalBody.input {ds : Declarations} {name : String} {fields : List InputValueDef}
    {canonical : TypeBody} (h : CanonicalBody ds name (.inputObject fields) canonical) :
    List.Forall₂ (CanonicalInput ds) (ds.inputFields name) canonical.inputFields ∧
      canonical.outputFields = [] ∧ canonical.hasFields := by
  cases h with
  | inputObject h => exact ⟨h, rfl, rfl⟩

/-! ## Calls -/

/-- The call has the default of the argument or the input field, if that has the shape of its type:
    what is written there and what the literal emits are read as literals that mean the same. -/
def InputValueDef.KeepsDefault (d : InputValueDef) (call : Call) : Prop :=
  ∀ v ∈ d.defaultValue, v.Fits d.type → ∃ (written kept : String) (direct default : Literal),
    v.emit = .ok written ∧ Literal.read written = some direct ∧
    call.keyword? "default_value" = some (.source kept) ∧ Literal.read kept = some default ∧
    direct.Same default

namespace Field

variable {config : Config} {ds : Declarations} {callee name : String} {call : Call}

/-- The default is the only keyword of its key in the call of an input value. -/
theorem IsInputCall.keyword?_default {d : InputValueDef}
    (h : IsInputCall config callee d name call) :
    ∃ default, d.defaultValue.mapM Value.emit = .ok default ∧
      call.keyword? "default_value" = default.map fun text => .source text := by
  obtain ⟨type, default, -, hdefault, rfl⟩ := h
  refine ⟨default, hdefault, ?_⟩
  have hdescription : "default_value" ∉ keys (descriptionKeyword d.description) :=
    fun hmem => absurd ((keys_descriptionKeyword _).mem hmem) (by decide)
  rw [Call.keyword?, Call.extend_keywords, typeCall, List.nil_append, List.append_assoc,
    Keyed.lookup_append_of_notMem hdescription, lookup_textKeyword (by decide), Option.map_map]
  rfl

/-- The call of a canonical argument or input field keeps the default of the text. -/
theorem keepsDefault_of_canonical {written canonical : InputValueDef} (hlexical : written.IsLexical)
    (hcanonical : CanonicalInput ds written canonical)
    (hcall : IsInputCall config callee canonical name call) : written.KeepsDefault call := by
  intro v hv hfits
  obtain ⟨value, literal, hvalue, hliteral, hreadable, direct, default, hdirect, hdefault, hsame⟩ :=
    @Value.Fits.survives ds _ _ hfits (hlexical v hv)
  -- The literal fits its type, so the schema does not drop it.
  have hkept : canonical.defaultValue = some literal := by
    have hdefaults := hcanonical.defaultValue
    rw [Option.mem_def.mp hv] at hdefaults
    generalize canonical.defaultValue = found at hdefaults ⊢
    cases hdefaults with
    | unfit h => simp [Value.asDefault, hvalue] at h
    | fit h hwrite =>
      simp only [Value.asDefault, hvalue, Except.ok.injEq, Option.some.injEq] at h
      rw [← h, hliteral] at hwrite
      rw [Except.ok.inj hwrite]
  obtain ⟨text, hemit⟩ := Value.exists_emit hfits.not_hasVariable
  obtain ⟨found, hfound, hkeyword⟩ := hcall.keyword?_default
  rw [hkept] at hfound
  obtain ⟨kept, hkeptEmit, rfl⟩ : ∃ kept, literal.emit = .ok kept ∧ some kept = found := by
    simpa using hfound
  -- Both texts are read as the literals that the values stand for.
  obtain ⟨_, hfirst, hread⟩ := Value.read_emit (hlexical v hv) hemit
  obtain ⟨_, hsecond, hreadKept⟩ := Value.read_emit hreadable hkeptEmit
  obtain rfl := Option.some.inj (hdirect.symm.trans hfirst)
  obtain rfl := Option.some.inj (hdefault.symm.trans hsecond)
  exact ⟨text, kept, direct, default, hemit, hread, hkeyword, hreadKept, hsame⟩

/-- The call of a field has a call for each of its arguments, and each keeps its default. The calls
    are keywords of their own or entries of the dictionary of arguments. -/
def KeepsDefaults (config : Config) (d : FieldDef) (call : Call) : Prop :=
  ∃ arguments : List (String × Call),
    keys arguments =
      Assignment.freshNames (d.arguments.map fun argument => codeName config argument.name) ∧
    plainKeywords arguments ++ dictKeyword arguments <:+: call.keywords ∧
    List.Forall₂ (fun d argument => d.KeepsDefault argument.2) d.arguments arguments

/-- The call of a canonical field keeps the defaults of the text. -/
theorem keepsDefaults_of_canonical {written canonical : FieldDef} (hlexical : written.IsLexical)
    (hcanonical : CanonicalField ds written canonical) {arguments : List (String × Call)}
    (hcall : IsFieldCall config canonical arguments name call) :
    KeepsDefaults config written call := by
  obtain ⟨type, reason, -, hkeys, harguments, -, rfl⟩ := hcall
  refine ⟨arguments, ?_, ?_, ?_⟩
  · have hnames : List.Forall₂ (fun (w c : InputValueDef) => codeName config w.name =
        codeName config c.name) written.arguments canonical.arguments :=
      hcanonical.arguments.imp fun _ _ h => by rw [h.name]
    have hmap : written.arguments.map (fun argument => codeName config argument.name) =
        canonical.arguments.map fun argument => codeName config argument.name := by
      rw [← List.forall₂_eq_eq_eq, List.forall₂_map_left_iff, List.forall₂_map_right_iff]
      exact hnames
    rw [hkeys, hmap]
  · refine ⟨descriptionKeyword canonical.description, textKeyword "deprecation_reason" reason ++
      Assignment.nameKeyword canonical.name (convertedName config canonical.name) name, ?_⟩
    simp only [Call.extend_keywords, typeCall, keywordsOf, List.nil_append, List.append_assoc]
  · exact Success.forall₂_trans hcanonical.arguments harguments fun w hw _ _ hinput harg =>
      keepsDefault_of_canonical (hlexical w hw) hinput harg

end Field

/-! ## Modules -/

/-- The fields of a type keep their defaults, or those of their arguments, in the lines of its
    class. -/
def TypeBody.KeepsDefaults (config : Config) (bound : List Assignment) : TypeBody → Prop
  | .object _ fields | .interface _ fields =>
    List.Forall₂ (fun field a => Field.KeepsDefaults config field a.call) fields bound
  | .inputObject fields => List.Forall₂ (fun field a => field.KeepsDefault a.call) fields bound
  | .scalar | .union _ | .enum _ => True

/-- The class of a type in a generated module keeps all defaults of the type. -/
theorem generate_defaults {config : Config} {commandLine : String} {before after : Diagnostics}
    {text : String} {generation : Generation}
    (h : generate config commandLine before text = (.ok generation, after)) :
    ∃ document, Document.parse text = .ok document ∧ ∀ d ∈ document.declaredTypes,
      d.body.hasFields → config.ignores d.name = .ok false →
      ∃ base bound,
        Module.Includes generation.code (Fragment.classBlock d.name base (d.description.getD "")
          (bound.map Assignment.render)) ∧
        d.body.KeepsDefaults config bound := by
  obtain ⟨document, canonical, hparse, hrules, htypes⟩ := generate_classes h
  refine ⟨document, hparse, fun d hd hfields hkept => ?_⟩
  obtain ⟨c, -, hclass⟩ := Success.exists_of_mem_left htypes d hd
  have hlexical := Document.isLexical_declaredTypes (Document.isLexical_of_parse hparse) d hd
  have hbody := hclass.parts.body
  -- From the written field to the one of the canonical document, and from there to its call.
  cases hwritten : d.body with
  | object parents fields | interface parents fields =>
    rw [hwritten] at hbody hlexical
    obtain ⟨hcanonical, hinputs, hsome⟩ := hbody.output (by simp [TypeBody.kind])
    obtain ⟨base, bound, hincludes, hbinds⟩ := hclass.block hsome hkept
    refine ⟨base, bound, hincludes, Success.forall₂_trans hcanonical (hbinds.output hinputs) ?_⟩
    rintro field hfield canonicalField a hfieldCanonical ⟨arguments, hcall⟩
    exact Field.keepsDefaults_of_canonical (hlexical field hfield) hfieldCanonical hcall
  | inputObject fields =>
    rw [hwritten] at hbody hlexical
    obtain ⟨hcanonical, houtputs, hsome⟩ := hbody.input
    rw [Rules.inputFields_ofDocument hrules hd hwritten] at hcanonical
    obtain ⟨base, bound, hincludes, hbinds⟩ := hclass.block hsome hkept
    refine ⟨base, bound, hincludes, Success.forall₂_trans hcanonical (hbinds.input houtputs) ?_⟩
    intro field hfield _ _ hinput hcall
    exact Field.keepsDefault_of_canonical (hlexical field hfield) hinput hcall
  | scalar | union members | enum values =>
    rw [hwritten] at hfields
    cases hfields

/-- A schema with one field, whose argument has a default. -/
def defaultText (type literal : String) : String :=
  "type Query \x7b f(id: " ++ type ++ " = " ++ literal ++ "): String \x7d"

/-- Two doubles, with zeros at their ends that no shortest numeral has. -/
def doubles : Value :=
  .list [.float ⟨false, 0, Decimal.digitsOf 50, none⟩,
    .float ⟨false, 2, Decimal.digitsOf 50, some ⟨false, none, Decimal.digitsOf 0⟩⟩]

theorem fits_doubles : doubles.Fits (.list (.nonNull (.named "Float"))) := by
  refine .list fun v hv => .nonNull ?_
  simp only [List.mem_cons, List.not_mem_nil, or_false] at hv
  obtain rfl | rfl := hv
  · have heq : Decimal.Scientific.Equals ⟨false, 50, -2⟩ 1 1073 := ⟨by decide +kernel⟩
    exact .float ⟨1, 1073, by decide, by decide, Decimal.Scientific.equals_iff_toRat.mp heq⟩
  · have heq : Decimal.Scientific.Equals ⟨false, 250, -2⟩ 5 1073 := ⟨by decide +kernel⟩
    exact .float ⟨5, 1073, by decide, by decide, Decimal.Scientific.equals_iff_toRat.mp heq⟩

/-- The digits of doubles are written anew, and the numbers stay. -/
theorem generate_defaults_doubles :
    doubles.Fits (.list (.nonNull (.named "Float"))) ∧ doubles.emit = .ok "[0.50, 2.50e0]" ∧
    ∃ generation after document,
      generate {} "" [] (defaultText "[Float!]" "[0.50, 2.50e0]") = (.ok generation, after) ∧
      Document.parse (defaultText "[Float!]" "[0.50, 2.50e0]") = .ok document ∧
      ∀ d ∈ document.declaredTypes, d.body.hasFields → Config.ignores {} d.name = .ok false →
        ∃ base bound,
          Module.Includes generation.code (Fragment.classBlock d.name base (d.description.getD "")
            (bound.map Assignment.render)) ∧
          d.body.KeepsDefaults {} bound := by
  refine ⟨fits_doubles, rfl, ?_⟩
  have hok : (generate {} "" [] (defaultText "[Float!]" "[0.50, 2.50e0]")).1.isOk := by
    decide +kernel
  obtain ⟨generation, after, h⟩ := exists_generation hok
  obtain ⟨document, hparse, hall⟩ := generate_defaults h
  exact ⟨generation, after, document, h, hparse, hall⟩

/-- A string for an identifier becomes a number if it reads as an integer, and so means something
    else than its literal. -/
theorem generate_defaultText_digits :
    (generate {} "" [] (defaultText "ID" (Text.quote "123"))).1.toOption.map Generation.code =
      some ("class Query(ObjectType):\n"
        ++ "    f = Field(lambda: String, id=Argument(lambda: ID, default_value=123))\n") := by
  decide +kernel

end SchemaClasses
