import SchemaClasses.Proofs.ClassNames
import SchemaClasses.Proofs.Parsing
import SchemaClasses.Proofs.Runs
import SchemaClasses.Schema.Canonical

/-!
# Failures

Which documents have no code, and what is recorded when they fail. A definition fails because of its
kind or because of a variable in a default, and for nothing else. It fails as a whole: what is
recorded is what the definitions before it add.
-/

namespace SchemaClasses

/-! ## Definitions that have code -/

/-- A variable occurs in the default. -/
def InputValueDef.HasVariable (d : InputValueDef) : Prop :=
  ∃ value, d.defaultValue = some value ∧ value.HasVariable

/-- Whether a definition is of a kind that becomes code or a warning: a type of any kind, a
    directive, the schema. -/
def Definition.isHandled : Definition → Bool
  | .type _ | .directive _ | .schema _ => true
  | .schemaExtension _ | .typeExtension _ | .operation _ | .fragment _ => false

/-- The definition is of a kind that is handled, and all of its defaults are constants. -/
structure Definition.IsEmittable (d : Definition) : Prop where
  handled : d.isHandled
  constant : ∀ input ∈ d.inputValues, ¬ input.HasVariable

/-- Whether an error is about a construct that has no code, and not about a setting. -/
def EmissionError.isUnsupported : EmissionError → Bool
  | .literal _ | .node _ => true
  | .setting _ => false

/-! ## Failing because of a variable -/

/-- The computation fails exactly if there is a variable, and then because of it. -/
def FailsIff {α : Type} (x : Except EmissionError α) (hasVariable : Prop) : Prop :=
  (¬ hasVariable ∧ ∃ a, x = .ok a) ∨ (hasVariable ∧ x = .error (.literal .variable))

namespace FailsIff

variable {α β : Type} {x : Except EmissionError α} {p q : Prop}

theorem ok (a : α) : FailsIff (.ok a) False :=
  .inl ⟨not_false, a, rfl⟩

theorem congr (h : FailsIff x p) (hpq : p ↔ q) : FailsIff x q := by
  rwa [← propext hpq]

/-- The first step that meets a variable ends a computation. -/
theorem bind {f : α → Except EmissionError β} (h : FailsIff x p)
    (hf : ∀ a, x = .ok a → FailsIff (f a) q) : FailsIff (x >>= f) (p ∨ q) := by
  rcases h with ⟨hnone, a, rfl⟩ | ⟨hvariable, rfl⟩
  · exact (hf a rfl).congr (by simp [hnone])
  · exact .inr ⟨.inl hvariable, rfl⟩

/-- What comes after a step that always succeeds decides. -/
theorem bind_of_ok {f : α → Except EmissionError β} (h : FailsIff x False)
    (hf : ∀ a, FailsIff (f a) q) : FailsIff (x >>= f) q :=
  (h.bind fun a _ => hf a).congr (by simp)

/-- What always succeeds after a step does not matter. -/
theorem bind_ok_of {f : α → Except EmissionError β} (h : FailsIff x p)
    (hf : ∀ a, FailsIff (f a) False) : FailsIff (x >>= f) p :=
  (h.bind fun a _ => hf a).congr (by simp)

theorem map {f : α → β} (h : FailsIff x p) : FailsIff (x >>= fun a => pure (f a)) p :=
  h.bind_ok_of fun a => ok (f a)

/-- A list fails exactly if some part of it does. -/
theorem mapM {f : α → Except EmissionError β} {hasVariable : α → Prop} {xs : List α}
    (h : ∀ x ∈ xs, FailsIff (f x) (hasVariable x)) :
    FailsIff (xs.mapM f) (∃ x ∈ xs, hasVariable x) := by
  induction xs with
  | nil => exact (ok []).congr (by simp)
  | cons first rest ih =>
    rw [List.forall_mem_cons] at h
    rw [List.mapM_cons]
    refine (h.1.bind fun y _ => (ih h.2).map).congr ?_
    simp

end FailsIff

/-! ## Fields -/

/-- A type with a name at its bottom can always be written. -/
theorem TypeRef.exists_emit {type : TypeRef} (h : type.isGrounded) :
    ∃ text, type.emit = .ok text := by
  induction type with
  | named name => exact ⟨name, rfl⟩
  | list item ih =>
    obtain ⟨text, htext⟩ := ih h
    exact ⟨Wrapper.list.wrap text, by simp [emit, htext, Functor.map, Except.map]⟩
  | nonNull item ih =>
    obtain ⟨text, htext⟩ := ih h
    exact ⟨Wrapper.nonNull.wrap text, by simp [emit, htext, Functor.map, Except.map]⟩
  | foreign kind => cases h

/-- Of all literals only those with a variable cannot be written. -/
theorem Value.failsIff_emit (value : Value) :
    FailsIff (value.emit.mapError .literal) value.HasVariable := by
  cases hemit : value.emit with
  | ok text =>
    refine .inl ⟨fun hvariable => ?_, text, rfl⟩
    rw [emit_eq_error.mpr ⟨rfl, hvariable⟩] at hemit
    cases hemit
  | error kind =>
    obtain ⟨rfl, hvariable⟩ := emit_eq_error.mp hemit
    exact .inr ⟨hvariable, rfl⟩

namespace Field

theorem failsIff_baseCall {type : TypeRef} (h : type.isGrounded) (description : Option String) :
    FailsIff (baseCall type description) False := by
  obtain ⟨text, htext⟩ := type.exists_emit h
  refine .inl ⟨not_false, ?_⟩
  simp only [baseCall, htext]
  exact ⟨_, rfl⟩

/-- An input value has code exactly if its default holds no variable. -/
theorem failsIff_ofInputValue (config : Config) {d : InputValueDef} (h : d.IsGrounded) :
    FailsIff (ofInputValue config d) d.HasVariable := by
  unfold ofInputValue
  refine (failsIff_baseCall h d.description).bind_of_ok fun call => ?_
  cases hdefault : d.defaultValue with
  | none => exact (FailsIff.ok _).congr (by simp [InputValueDef.HasVariable, hdefault])
  | some value =>
    refine (value.failsIff_emit.bind_ok_of fun text => .ok _).congr ?_
    simp [InputValueDef.HasVariable, hdefault]

/-- The reason of a deprecation can be written if it holds no variable. -/
theorem failsIff_reasonText (config : Config) {d : Directive} (h : d.IsConstant) :
    FailsIff (reasonText config d) False := by
  unfold reasonText
  split
  · next argument hfind =>
    have hconstant := h argument (List.mem_of_find?_eq_some hfind)
    exact (argument.value.failsIff_emit.congr (iff_false_intro hconstant)).map
  · exact .ok _

/-- Deprecations with constant reasons never fail. -/
theorem failsIff_withDeprecation (config : Config) (call : Call) {directives : List Directive}
    (h : ∀ d ∈ directives, d.IsConstant) :
    FailsIff (withDeprecation config call directives) False := by
  induction directives generalizing call with
  | nil => exact .ok call
  | cons d rest ih =>
    rw [List.forall_mem_cons] at h
    unfold withDeprecation
    split
    · exact (failsIff_reasonText config h.1).bind_of_ok fun text => ih _ h.2
    · exact ih call h.2

/-- A field has code exactly if no default of its arguments holds a variable. -/
theorem failsIff_ofField (config : Config) {d : FieldDef} (h : d.IsGrounded) :
    FailsIff (ofField config d) (∃ argument ∈ d.arguments, argument.HasVariable) := by
  have harguments : FailsIff (d.arguments.mapM (ofInputValue config))
      (∃ argument ∈ d.arguments, argument.HasVariable) :=
    .mapM fun argument hmem => failsIff_ofInputValue config (h.arguments argument hmem)
  refine harguments.bind_ok_of fun arguments => ?_
  refine (failsIff_baseCall h.type d.description).bind_of_ok fun call => ?_
  exact (failsIff_withDeprecation config _ h.directives).map

end Field

/-! ## Definitions -/

/-- The parts of a type have code exactly if no default in it holds a variable. -/
theorem TypeBody.failsIff_emit (config : Config) {body : TypeBody} (h : body.IsGrounded) :
    FailsIff (body.emit config) (∃ input ∈
      body.outputFields.flatMap (·.arguments) ++ body.inputFields, input.HasVariable) := by
  have houtput (fields : List FieldDef) (hfields : ∀ d ∈ fields, d.IsGrounded) :
      FailsIff (fields.mapM (Field.ofField config))
        (∃ input ∈ fields.flatMap (·.arguments), input.HasVariable) := by
    refine (FailsIff.mapM fun d hmem => Field.failsIff_ofField config (hfields d hmem)).congr ?_
    simp only [List.mem_flatMap]
    constructor
    · rintro ⟨d, hd, argument, hargument, hvariable⟩
      exact ⟨argument, ⟨d, hd, hargument⟩, hvariable⟩
    · rintro ⟨argument, ⟨d, hd, hargument⟩, hvariable⟩
      exact ⟨d, hd, argument, hargument, hvariable⟩
  -- Only the kinds with fields have defaults that could fail.
  cases body with
  | scalar | union members | enum values =>
    exact (FailsIff.ok _).congr (by simp [outputFields, inputFields])
  | object parents fields | interface parents fields =>
    exact (houtput fields h).map.congr (by simp [outputFields, inputFields])
  | inputObject fields =>
    refine (FailsIff.mapM fun d hmem => Field.failsIff_ofInputValue config (h d hmem)).map.congr ?_
    simp [outputFields, inputFields]

theorem Definition.inputValues_type (d : TypeDef) :
    (Definition.type d).inputValues =
      d.body.outputFields.flatMap (·.arguments) ++ d.body.inputFields := by
  obtain ⟨description, name, directives, body⟩ := d
  cases body <;> simp [inputValues, TypeBody.outputFields, TypeBody.inputFields]

section

variable {config : Config} {items : List (Json Text)}
  (hignore : config.ignoreTypes = some (.array items))

include hignore

/-- A type has code or is left out exactly if no default in it holds a variable. -/
theorem TypeDef.failsIff_emit {d : TypeDef} (h : d.body.IsGrounded) :
    FailsIff (d.emit config) (∃ input ∈ (Definition.type d).inputValues, input.HasVariable) := by
  rw [Definition.inputValues_type, TypeDef.emit_eq]
  -- A list of names to leave out can always be asked.
  have hignored : FailsIff ((config.ignores d.name).mapError .setting) False := by
    simp only [Config.ignores, hignore]
    exact .ok _
  refine (TypeBody.failsIff_emit config h).bind_ok_of fun body => ?_
  exact hignored.map

/-- A definition of a kind that is handled fails exactly if one of its defaults holds a variable. -/
theorem Definition.failsIff_emit {d : Definition} (hhandled : d.isHandled) (h : d.IsGrounded) :
    FailsIff (d.emit config) (∃ input ∈ d.inputValues, input.HasVariable) := by
  cases d with
  | schema d => exact (FailsIff.ok _).congr (by simp [inputValues])
  | type d => exact TypeDef.failsIff_emit hignore h
  | directive d =>
    rw [emit_directive]
    exact (FailsIff.mapM fun input hmem => Field.failsIff_ofInputValue config (h input hmem)).map
  | schemaExtension d | typeExtension d | operation d | fragment d => cases hhandled

omit hignore in
/-- A definition of another kind always fails, and not because of a setting. -/
theorem Definition.emit_of_not_handled (config : Config) {d : Definition}
    (hhandled : d.isHandled = false) (h : d.IsGrounded) :
    ∃ e, d.emit config = .error e ∧ e.isUnsupported := by
  cases d with
  | schema d | type d | directive d => cases hhandled
  | schemaExtension d => exact ⟨_, rfl, rfl⟩
  | operation d => exact ⟨_, rfl, rfl⟩
  | fragment d => exact ⟨_, rfl, rfl⟩
  | typeExtension d =>
    -- The parts of an extension come first, so a variable in them decides on the error.
    rcases TypeBody.failsIff_emit config h with ⟨-, body, hbody⟩ | ⟨-, hbody⟩
    · exact ⟨.node d.body.extensionKind, by simp [hbody, bind, Except.bind], rfl⟩
    · exact ⟨.literal .variable, by simp [hbody, bind, Except.bind], rfl⟩

/-- Nothing else than its kind and its defaults can keep a definition from being emitted. -/
theorem Definition.emit_of_isEmittable {d : Definition} (hd : d.IsEmittable) (h : d.IsGrounded) :
    ∃ fragment, d.emit config = .ok fragment := by
  rcases Definition.failsIff_emit hignore hd.handled h with ⟨-, hok⟩ | ⟨⟨input, hmem, hinput⟩, -⟩
  · exact hok
  · exact absurd hinput (hd.constant input hmem)

/-- A definition that cannot be emitted fails because of its kind or of a variable. -/
theorem Definition.emit_of_not_isEmittable {d : Definition} (hd : ¬ d.IsEmittable)
    (h : d.IsGrounded) : ∃ e, d.emit config = .error e ∧ e.isUnsupported ∧
      (d.isHandled → e = .literal .variable) := by
  cases hhandled : d.isHandled with
  | false =>
    obtain ⟨e, herror, hunsupported⟩ := Definition.emit_of_not_handled config hhandled h
    exact ⟨e, herror, hunsupported, fun htrue => nomatch htrue⟩
  | true =>
    rcases Definition.failsIff_emit hignore hhandled h with ⟨hnone, -⟩ | ⟨-, herror⟩
    · exact absurd ⟨hhandled, fun input hmem hinput => hnone ⟨input, hmem, hinput⟩⟩ hd
    · exact ⟨_, herror, rfl, fun _ => rfl⟩

/-! ## Documents -/

/-- A document whose definitions all have code is emitted. -/
theorem Document.emit_of_isEmittable {document : Document} (hground : document.IsGrounded)
    (h : ∀ d ∈ document, d.IsEmittable) (record : Record) :
    ∃ texts after, Document.emit config record document = (.ok texts, after) := by
  induction document generalizing record with
  | nil => exact ⟨[], record, rfl⟩
  | cons definition rest ih =>
    rw [List.forall_mem_cons] at h
    obtain ⟨hfirst, hrest⟩ := List.forall_mem_cons.mp hground
    obtain ⟨fragment, hfragment⟩ := Definition.emit_of_isEmittable hignore h.1 hfirst
    obtain ⟨texts, after, hmore⟩ := ih hrest h.2 (record.add fragment)
    exact ⟨fragment.text :: texts, after, by rw [emit_cons_ok hfragment, hmore]; rfl⟩

/-- The first definition without code ends a document, and leaves the record of those before it. -/
theorem Document.emit_of_first {front back : Document} {offending : Definition}
    (hground : Document.IsGrounded (front ++ offending :: back))
    (hfront : ∀ d ∈ front, d.IsEmittable) (hoffending : ¬ offending.IsEmittable)
    (record : Record) : ∃ e, e.isUnsupported ∧
      (offending.isHandled → e = .literal .variable) ∧
      Document.emit config record (front ++ offending :: back) =
        (.error e, (Document.emit config record front).2) := by
  obtain ⟨hgroundFront, hgroundBack⟩ := List.forall_mem_append.mp hground
  obtain ⟨texts, after, hemit⟩ := Document.emit_of_isEmittable hignore hgroundFront hfront record
  obtain ⟨e, herror, hunsupported, hvariable⟩ := Definition.emit_of_not_isEmittable hignore
    hoffending (hgroundBack offending List.mem_cons_self)
  refine ⟨e, hunsupported, hvariable, ?_⟩
  rw [emit_append_ok hemit, emit_cons_error herror, hemit]
  rfl

omit hignore in
/-- Of the definitions that cannot be emitted one comes first. -/
theorem Document.exists_first {document : Document} (h : ¬ ∀ d ∈ document, d.IsEmittable) :
    ∃ front offending back, document = front ++ offending :: back ∧
      (∀ d ∈ front, d.IsEmittable) ∧ ¬ offending.IsEmittable := by
  classical
  cases hfind : document.find? fun d => !decide d.IsEmittable with
  | none =>
    have hall := List.find?_eq_none.mp hfind
    exact absurd (fun d hd => by simpa using hall d hd) h
  | some offending =>
    obtain ⟨hoffending, front, back, rfl, hfront⟩ := List.find?_eq_some_iff_append.mp hfind
    exact ⟨front, offending, back, rfl, fun d hd => by simpa using hfront d hd,
      by simpa using hoffending⟩

/-- A document that has a definition without code fails at the first one. -/
theorem Document.exists_failure {document : Document} (hground : document.IsGrounded)
    (record : Record) (hnot : ¬ ∀ d ∈ document, d.IsEmittable) : ∃ front offending back e,
      document = front ++ offending :: back ∧ (∀ d ∈ front, d.IsEmittable) ∧
      ¬ offending.IsEmittable ∧
      e.isUnsupported ∧ (offending.isHandled → e = .literal .variable) ∧
      Document.emit config record document =
        (.error e, (Document.emit config record front).2) := by
  obtain ⟨front, offending, back, rfl, hfront, hoffending⟩ := exists_first hnot
  obtain ⟨e, hunsupported, hvariable, hemit⟩ :=
    emit_of_first hignore hground hfront hoffending record
  exact ⟨front, offending, back, e, rfl, hfront, hoffending, hunsupported, hvariable, hemit⟩

/-- A document has code exactly if all of its definitions have. Otherwise it fails at the first that
    has none, because of its kind or of a variable in it, and what is recorded is what the
    definitions before that one record. Only the grammar is assumed, which holds of every document
    that is read (`isGrounded_of_parse`), whatever its defaults are replaced by. -/
theorem Document.emit_outcome {document : Document} (hground : document.IsGrounded)
    (record : Record) :
    ((∃ texts, (Document.emit config record document).1 = .ok texts) ↔
        ∀ d ∈ document, d.IsEmittable) ∧
      ((¬ ∀ d ∈ document, d.IsEmittable) → ∃ front offending back e,
        document = front ++ offending :: back ∧ (∀ d ∈ front, d.IsEmittable) ∧
        ¬ offending.IsEmittable ∧
        e.isUnsupported ∧ (offending.isHandled → e = .literal .variable) ∧
        Document.emit config record document =
          (.error e, (Document.emit config record front).2)) := by
  have hfails := exists_failure hignore hground record
  refine ⟨⟨fun ⟨texts, hok⟩ => ?_, fun hall => ?_⟩, hfails⟩
  -- A document of which some definition is not emittable has just been shown to fail.
  · by_contra hnot
    obtain ⟨front, offending, back, e, -, -, -, -, -, hemit⟩ := hfails hnot
    rw [hemit] at hok
    cases hok
  · obtain ⟨texts, after, hemit⟩ := emit_of_isEmittable hignore hground hall record
    exact ⟨texts, by rw [hemit]⟩

end

/-- A document with a type that is left out and has a variable deep within a default. The type
    before it and the directive after it come with warnings, and so would the type itself. -/
def hiddenVariable : Document :=
  [.type ⟨none, "Node", [], .object ["Named"] []⟩,
    .type ⟨none, "Hidden", [], .object ["Named"]
      [⟨none, "plain", [], .nonNull (.named "ID"), [⟨"deprecated", [], 0⟩]⟩,
        ⟨none, "deep", [⟨none, "at", .list (.named "In"),
          some (.list [.null, .object [("k", .variable "v")]]), []⟩], .named "Int", []⟩]⟩,
    .directive ⟨none, "auth", [], false, ["OBJECT"]⟩]

/-- A variable counts even within a type that is left out. -/
theorem Document.emit_outcome_hiddenVariable :
    hiddenVariable.IsGrounded ∧ ∃ front offending back e,
      hiddenVariable = front ++ offending :: back ∧ (∀ d ∈ front, d.IsEmittable) ∧
      ¬ offending.IsEmittable ∧
      e.isUnsupported ∧ (offending.isHandled → e = .literal .variable) ∧
      Document.emit { ignoreTypes := some (.array [.string "Hidden"]) } {} hiddenVariable =
        (.error e,
          (Document.emit { ignoreTypes := some (.array [.string "Hidden"]) } {} front).2) := by
  have hground : hiddenVariable.IsGrounded := by
    intro definition hmem
    simp only [hiddenVariable, List.mem_cons, List.not_mem_nil, or_false] at hmem
    rcases hmem with rfl | rfl | rfl
    · simp [Definition.IsGrounded, TypeBody.IsGrounded]
    · simp only [Definition.IsGrounded, TypeBody.IsGrounded, List.forall_mem_cons,
        List.not_mem_nil, false_implies, implies_true, and_true]
      refine ⟨⟨rfl, by simp, by simp [Directive.IsConstant]⟩, ⟨rfl, ?_, by simp⟩⟩
      intro argument hargument
      obtain rfl := List.mem_singleton.mp hargument
      rfl
    · simp [Definition.IsGrounded]
  refine ⟨hground, (Document.emit_outcome rfl hground {}).2 fun hall => ?_⟩
  have hhidden := (hall _ (List.mem_cons_of_mem _ List.mem_cons_self)).constant _
    (List.mem_cons_self)
  exact hhidden ⟨_, rfl, by simp⟩

end SchemaClasses
