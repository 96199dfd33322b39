import SchemaClasses.Code.Emission

/-!
# Settings

Which settings the code of a document depends on: the types to leave out, the conversion of names
and the reason of deprecations that give none. Fields depend on the last two alone, and nothing
depends on how the module is put together.
-/

namespace SchemaClasses

variable {first second : Config} (hnames : first.convertFieldNames = second.convertFieldNames)
  (hreason : first.defaultDeprecationReason = second.defaultDeprecationReason)
  (hignore : first.ignoreTypes = second.ignoreTypes)

/-! ## Fields -/

namespace Field

include hnames

theorem assign_congr (schemaName : String) (call : Call) (imports : List Import) :
    assign first schemaName call imports = assign second schemaName call imports := by
  simp only [assign, hnames]

/-- Only the setting on names matters to an input value. -/
theorem ofInputValue_congr : ofInputValue first = ofInputValue second := by
  funext d
  simp only [ofInputValue, assign_congr hnames]

omit hnames
include hreason

theorem withDeprecation_congr (call : Call) (directives : List Directive) :
    withDeprecation first call directives = withDeprecation second call directives := by
  have htext : reasonText first = reasonText second := by
    funext d
    simp only [reasonText, Config.reasonText, hreason]
  induction directives generalizing call with
  | nil => rfl
  | cons d rest ih => simp only [withDeprecation, htext, ih]

include hnames

/-- To a field the reason by default matters as well. -/
theorem ofField_congr : ofField first = ofField second := by
  funext d
  simp only [ofField, ofInputValue_congr hnames, withDeprecation_congr hreason, assign_congr hnames]

end Field

/-! ## Definitions -/

include hnames hreason

theorem TypeBody.emit_congr (body : TypeBody) : body.emit first = body.emit second := by
  cases body <;>
    simp only [emit, Field.ofField_congr hnames hreason, Field.ofInputValue_congr hnames]

include hignore

theorem Definition.write_congr : Definition.write first = Definition.write second := by
  funext d
  cases d with
  | schema d | schemaExtension d | operation d | fragment d => rfl
  | type d =>
    simp only [write, TypeDef.write, TypeBody.emit_congr hnames hreason, Config.ignores, hignore]
  | typeExtension d => simp only [write, TypeBody.emit_congr hnames hreason]
  | directive d => simp only [write, Field.ofInputValue_congr hnames]

/-- Settings that agree on what emission reads give the same code. -/
theorem Document.emit_congr (record : Record) (document : Document) :
    Document.emit first record document = Document.emit second record document := by
  rw [emit, emit, Definition.write_congr hnames hreason hignore]

end SchemaClasses
