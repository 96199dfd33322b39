import SchemaClasses.Generation
import SchemaClasses.Proofs.CanonicalDefinitions
import SchemaClasses.Proofs.Printing.ReadBack

/-!
# Canonical documents are read back

A module is generated from what is read from the text of the canonical document. That is the
canonical document itself, but for the places in it, and the generated code does not depend on
places. So it makes no difference that the text is only read where reading it can fail.
-/

namespace SchemaClasses

/-! ## Code does not depend on places -/

namespace Field

variable (config : Config)

/-- A reason is the same wherever it stands. -/
theorem reasonText_withoutOffsets (d : Directive) :
    reasonText config d.withoutOffsets = reasonText config d := by
  have hfind : (d.arguments.map Argument.withoutOffset).find? (·.name = "reason") =
      (d.arguments.find? (·.name = "reason")).map Argument.withoutOffset := by
    rw [List.find?_map]
    rfl
  rw [reasonText, reasonText, Directive.withoutOffsets, hfind]
  cases d.arguments.find? (·.name = "reason") <;> rfl

theorem withDeprecation_withoutOffsets (ds : List Directive) (call : Call) :
    withDeprecation config call (ds.map Directive.withoutOffsets) =
      withDeprecation config call ds := by
  induction ds generalizing call with
  | nil => rfl
  | cons d rest ih =>
    have hname : d.withoutOffsets.name = d.name := rfl
    simp only [List.map_cons, withDeprecation, hname, reasonText_withoutOffsets, ih]

theorem mapM_ofInputValue_withoutOffsets (ds : List InputValueDef) :
    (ds.map InputValueDef.withoutOffsets).mapM (ofInputValue config) =
      ds.mapM (ofInputValue config) := by
  rw [List.mapM_map]
  rfl

/-- Fields are emitted alike wherever their parts stand. -/
theorem mapM_ofField_withoutOffsets (ds : List FieldDef) :
    (ds.map FieldDef.withoutOffsets).mapM (ofField config) = ds.mapM (ofField config) := by
  have hfield (d : FieldDef) : ofField config d.withoutOffsets = ofField config d := by
    simp only [ofField, FieldDef.withoutOffsets, mapM_ofInputValue_withoutOffsets,
      withDeprecation_withoutOffsets]
  rw [List.mapM_map]
  exact congrArg (ds.mapM ·) (funext hfield)

end Field

/-- Nothing in the body of a type shows where it stands. -/
theorem TypeBody.emit_withoutOffsets (config : Config) (body : TypeBody) :
    body.withoutOffsets.emit config = body.emit config := by
  cases body with
  | scalar | union => rfl
  | enum values =>
    rw [withoutOffsets, emit, emit, List.map_map]
    rfl
  | object parents fields | interface parents fields =>
    simp only [withoutOffsets, emit, Field.mapM_ofField_withoutOffsets]
  | inputObject fields =>
    simp only [withoutOffsets, emit, Field.mapM_ofInputValue_withoutOffsets]

/-- A definition is written in the same way, with the same warnings, wherever it stands. -/
theorem Definition.write_withoutOffsets (config : Config) (d : Definition) :
    d.withoutOffsets.write config = d.write config := by
  cases d with
  | type d =>
    have hbody := d.body.emit_withoutOffsets config
    simp only [withoutOffsets, write, TypeDef.write, TypeDef.withoutOffsets, hbody]
  | typeExtension d =>
    have hbody := d.body.emit_withoutOffsets config
    have hkind : d.body.withoutOffsets.extensionKind = d.body.extensionKind := by
      cases d.body <;> rfl
    simp only [withoutOffsets, write, TypeDef.withoutOffsets, hbody, hkind]
  | directive d =>
    simp only [withoutOffsets, write, DirectiveDef.withoutOffsets,
      Field.mapM_ofInputValue_withoutOffsets]
  | schema | schemaExtension | operation | fragment => rfl

namespace Document

/-- The same module is generated wherever the parts of a document stand. -/
theorem generate_withoutOffsets (config : Config) (commandLine : Text) (before : Diagnostics)
    (document : Document) :
    generate config commandLine before document.withoutOffsets =
      generate config commandLine before document := by
  have hemit (record : Record) :
      document.withoutOffsets.emit config record = document.emit config record := by
    rw [emit, emit, withoutOffsets, List.mapM_map]
    exact congrArg (fun write => Emission.start (document.mapM write) record)
      (funext (Definition.write_withoutOffsets config))
  simp only [generate, hemit]

/-! ## Reading again -/

/-- Checking that the text of a document can be read gives what reading it gives, errors and all,
    but for places. -/
theorem checkReadable_eq_parse {document : Document} (h : ∀ d ∈ document, d.IsWritable) :
    (do document.checkReadable; return document.withoutOffsets) =
      withoutOffsets <$> (parse document.print).mapError (.unreadable document.print) := by
  rw [checkReadable]
  split
  next hbad =>
    obtain ⟨e, herror⟩ := parse_print_eq_error h (by simpa using hbad)
    simp only [herror]
    rfl
  next hgood =>
    rw [Bool.or_eq_true, not_or] at hgood
    obtain ⟨read, hread, hsame⟩ := parse_print h (by simpa using hgood.1) (by simpa using hgood.2)
    rw [hread, ← hsame]
    rfl

/-- What is read again once a text has been read, made a schema and written anew. -/
def reread (text : String) : Except DocumentError Document := do
  let document ← (parse text).mapError .syntaxFault
  let result ← document.rebuilt
  (parse result.print).mapError (.unreadable result.print)

/-- The canonical document of a text is what is read again, but for places. There is none exactly if
    nothing is read again, for the same reason. -/
theorem ofText_eq_reread (text : String) :
    withoutOffsets <$> ofText text = withoutOffsets <$> reread text := by
  rw [ofText, reread]
  cases hparse : parse text with
  | error e => rfl
  | ok document =>
    change withoutOffsets <$> document.canonical = withoutOffsets <$> (document.rebuilt >>=
      fun result => (parse result.print).mapError (.unreadable result.print))
    rw [canonical]
    cases hrebuilt : document.rebuilt with
    | error e => rfl
    | ok result =>
      have hcheck :=
        checkReadable_eq_parse (isWritable_rebuilt (isSpelled_of_parse hparse) hrebuilt)
      refine Eq.trans ?_ hcheck
      change withoutOffsets <$> (do result.checkReadable; return result) = _
      rw [map_bind]
      simp only [map_pure]

end Document

/-- Generation goes through the text of the canonical document: the module is that for what is read
    from there. -/
theorem generate_eq_of_reread (config : Config) (commandLine : Text) (before : Diagnostics)
    (text : String) :
    generate config commandLine before text =
      match Document.reread text with
      | .error e => (.error (.document e), before)
      | .ok document =>
        let (result, warnings) := document.generate config commandLine before
        (result.mapError .emission, warnings) := by
  have hsame := Document.ofText_eq_reread text
  rw [generate]
  cases hcanonical : Document.ofText text with
  | error e =>
    rw [hcanonical] at hsame
    cases hreread : Document.reread text with
    | error other =>
      rw [hreread] at hsame
      cases hsame
      rfl
    | ok document => rw [hreread] at hsame; cases hsame
  | ok canonical =>
    rw [hcanonical] at hsame
    cases hreread : Document.reread text with
    | error e => rw [hreread] at hsame; cases hsame
    | ok document =>
      rw [hreread] at hsame
      dsimp only
      rw [← Document.generate_withoutOffsets, Except.ok.inj hsame,
        Document.generate_withoutOffsets]

end SchemaClasses
