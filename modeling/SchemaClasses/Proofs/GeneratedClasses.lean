import SchemaClasses.Proofs.Assembly
import SchemaClasses.Proofs.CanonicalDefinitions
import SchemaClasses.Proofs.CanonicalParts
import SchemaClasses.Proofs.ClassNames

/-!
# Classes of a generated module

From the declarations of a text to the module generated for it: every type with fields that is not
left out has its class among the blocks of the module, and each line of the class is the call of
one field.
-/

namespace SchemaClasses

open Text (IsBlock)

/-! ## Blocks -/

/-- The text of a fragment is one of the blocks that a module consists of, after a header. -/
def Module.Includes (code text : Text) : Prop :=
  ∃ header blocks, code = header ++ (Text.join "\n\n" blocks ++ "\n") ∧
    ∃ block ∈ blocks, text = block ++ "\n\n"

/-- Every block is in the module, between line feeds. -/
theorem Module.includes_render {config : Config} (commandLine : Text) {blocks : List Text}
    (hblocks : ∀ block ∈ blocks, IsBlock block) {imports : List Import}
    (himports : imports = [] → blocks = []) :
    ∀ block ∈ blocks, Includes
      (render config commandLine (blocks.map (· ++ Fragment.blockEnd)) imports)
      (block ++ Fragment.blockEnd) := by
  intro block hmem
  have hne : blocks ≠ [] := List.ne_nil_of_mem hmem
  cases hon : config.addImports.isTruthy with
  | false =>
    refine ⟨"", blocks, ?_, block, hmem, rfl⟩
    rw [render_body hon commandLine hblocks, if_neg hne]
    rfl
  | true =>
    have hrender := render_blocks hon commandLine hne hblocks fun hnone => hne (himports hnone)
    exact ⟨_, blocks, hrender, block, hmem, rfl⟩

variable {config : Config} {commandLine : Text} {before after : Diagnostics}
  {generation : Generation}

/-- Every definition of a document that a module was generated for is part of it, if it has any
    text. -/
theorem Document.generate_includes {document : Document} (hnames : document.wellNamed)
    (h : document.generate config commandLine before = (.ok generation, after)) :
    ∀ definition ∈ document, ∃ fragment, definition.emit config = .ok fragment ∧
      (fragment.text ≠ "" → Module.Includes generation.code fragment.text) := by
  cases hemit : Document.emit config { warnings := before } document with
  | mk result record =>
    cases result with
    | error e =>
      simp only [Document.generate, hemit] at h
      cases h
    | ok texts =>
      simp only [Document.generate, hemit] at h
      cases h
      -- A fragment that is not empty is one of the blocks, and every block stands in the module.
      obtain ⟨blocks, htexts, hblocks, himports⟩ := exists_blocks hnames hemit
      obtain ⟨fragments, hall, rfl, -⟩ := emit_eq_ok hemit
      intro definition hmem
      obtain ⟨fragment, hfragment, hone⟩ := Success.exists_of_mem_left hall definition hmem
      refine ⟨fragment, hone, fun hne => ?_⟩
      have htext : fragment.text ∈ blocks.map (· ++ Fragment.blockEnd) := by
        rw [← htexts]
        exact List.mem_filter.mpr ⟨List.mem_map_of_mem hfragment, by simpa using hne⟩
      obtain ⟨block, hblock, heq⟩ := List.mem_map.mp htext
      change Module.Includes (Module.render config commandLine _ record.imports) _
      rw [← heq, htexts]
      exact Module.includes_render commandLine hblocks himports.mpr block hblock

/-! ## Classes -/

/-- The fields of object and interface types correspond, and these types have no others. -/
theorem CanonicalBody.output {ds : Declarations} {name : String} {written canonical : TypeBody}
    (h : CanonicalBody ds name written canonical)
    (hkind : written.kind = .object ∨ written.kind = .interface) :
    List.Forall₂ (CanonicalField ds) written.outputFields canonical.outputFields ∧
      canonical.inputFields = [] ∧ canonical.hasFields := by
  cases h with
  | object h | interface h => exact ⟨h, rfl, rfl⟩
  | scalar | union members | enum h | inputObject h => simp [TypeBody.kind] at hkind

/-- The lines of a class, one call for each field. Types with fields of both kinds do not exist. -/
def BindsFields (config : Config) (body : TypeBody) (bound : List Assignment) : Prop :=
  (body.inputFields = [] ∧ List.Forall₂ (fun field a => ∃ arguments,
      Field.IsFieldCall config field arguments a.name a.call) body.outputFields bound) ∨
    (body.outputFields = [] ∧ List.Forall₂ (fun field a =>
      Field.IsInputCall config "Field" field a.name a.call) body.inputFields bound)

/-- A class of fields that may have arguments, also if there are no fields at all. -/
theorem BindsFields.output {body : TypeBody} {bound : List Assignment}
    (h : BindsFields config body bound) (hbody : body.inputFields = []) :
    List.Forall₂ (fun field a => ∃ arguments,
      Field.IsFieldCall config field arguments a.name a.call) body.outputFields bound := by
  obtain ⟨-, h⟩ | ⟨hnone, h⟩ := h
  · exact h
  · rw [hbody] at h
    cases h
    rw [hnone]
    exact .nil

theorem BindsFields.input {body : TypeBody} {bound : List Assignment}
    (h : BindsFields config body bound) (hbody : body.outputFields = []) :
    List.Forall₂ (fun field a => Field.IsInputCall config "Field" field a.name a.call)
      body.inputFields bound := by
  obtain ⟨hnone, h⟩ | ⟨-, h⟩ := h
  · rw [hbody] at h
    cases h
    rw [hnone]
    exact .nil
  · exact h

/-- The class of a type binds its fields. -/
theorem TypeDef.emit_binds {d : TypeDef} {fragment : Fragment} (hfields : d.body.hasFields)
    (hkept : config.ignores d.name = .ok false) (h : d.emit config = .ok fragment) :
    ∃ base bound,
      fragment.text = Fragment.classBlock d.name base (d.description.getD "")
        (bound.map Assignment.render) ∧
      BindsFields config d.body bound := by
  obtain ⟨body, hbody, rfl⟩ := emit_eq_ok h hkept
  obtain ⟨base, inherits, assignments, rfl, hall⟩ := TypeBody.emit_fields hfields hbody
  refine ⟨base, Assignment.unique assignments, rfl, ?_⟩
  rcases hall with ⟨hnone, hall⟩ | ⟨hnone, hall⟩
  · exact .inl ⟨hnone, (Field.fieldCalls_unique hall).imp fun _ _ ⟨_, _, hcall⟩ => ⟨_, hcall⟩⟩
  · exact .inr ⟨hnone, Field.inputCalls_unique hall⟩

/-- A type of the text and one of the canonical document that correspond, with the class of the
    module if the type has fields and is not left out. -/
structure HasClass (config : Config) (ds : Declarations) (code : Text)
    (written canonical : TypeDef) : Prop where
  parts : CanonicalType ds written canonical
  block : canonical.body.hasFields → config.ignores written.name = .ok false →
    ∃ base bound,
      Module.Includes code (Fragment.classBlock written.name base (written.description.getD "")
        (bound.map Assignment.render)) ∧
      BindsFields config canonical.body bound

/-! ## Modules of texts -/

variable {text : String}

/-- A text that a module can be generated for has one. -/
theorem exists_generation
    (h : (generate config commandLine before text).1.isOk) :
    ∃ generation after, generate config commandLine before text = (.ok generation, after) := by
  cases hgenerate : generate config commandLine before text with
  | mk result after =>
    rw [hgenerate] at h
    cases result with
    | error e => cases h
    | ok generation => exact ⟨generation, after, rfl⟩

/-- The module for a text is the one for its canonical document. -/
theorem generate_eq_ok (h : generate config commandLine before text = (.ok generation, after)) :
    ∃ document canonical, Document.parse text = .ok document ∧ document.canonical = .ok canonical ∧
      canonical.wellNamed ∧
      canonical.generate config commandLine before = (.ok generation, after) := by
  simp only [generate] at h
  split at h
  next => cases h
  next canonical hcanonical =>
    rw [Prod.mk.injEq, Success.mapError_eq_ok] at h
    have hnames := Document.wellNamed_of_ofText hcanonical
    simp only [Document.ofText, Success.bind_eq_ok, Success.mapError_eq_ok] at hcanonical
    obtain ⟨document, hparse, hcanonical⟩ := hcanonical
    exact ⟨document, canonical, hparse, hcanonical, hnames, Prod.ext h.1 h.2⟩

/-- A module that was generated for a text has the classes of all types that the text declares. -/
theorem generate_classes
    (h : generate config commandLine before text = (.ok generation, after)) :
    ∃ document canonical, Document.parse text = .ok document ∧ document.violations = [] ∧
      List.Forall₂ (HasClass config (Declarations.ofDocument document) generation.code)
        document.declaredTypes (Rules.typeDefs canonical) := by
  obtain ⟨document, canonical, hparse, hcanonical, hnames, hgenerate⟩ := generate_eq_ok h
  obtain ⟨hrules, htypes⟩ := Document.canonicalTypes hcanonical
  refine ⟨document, canonical, hparse, hrules, ?_⟩
  refine Success.forall₂_imp_mem htypes fun written _ d hd hparts => ⟨hparts, ?_⟩
  intro hfields hkept
  -- The type is a definition of the canonical document, so its fragment is in the module.
  obtain ⟨fragment, hemit, hincludes⟩ :=
    Document.generate_includes hnames hgenerate _ (Document.mem_typeDefs.mp hd)
  rw [← hparts.name] at hkept ⊢
  obtain ⟨base, bound, htext, hbinds⟩ := TypeDef.emit_binds hfields hkept hemit
  rw [htext, hparts.description] at hincludes
  exact ⟨base, bound, hincludes (Fragment.classBlock_ne_empty _ _ _ _), hbinds⟩

end SchemaClasses
