import SchemaClasses.Schema.Declarations

/-!
# Declared types

A declared type is put together from a definition and its extensions. What all of these have, and
what extending hands on, every declared type has.
-/

namespace SchemaClasses.Document

variable {document : Document}

/-- A definition or an extension of a type in a document. -/
def IsPart (document : Document) (d : TypeDef) : Prop :=
  .type d ∈ document ∨ .typeExtension d ∈ document

theorem mem_typeDefs {d : TypeDef} : d ∈ Rules.typeDefs document ↔ .type d ∈ document := by
  rw [Rules.typeDefs, List.mem_filterMap]
  constructor
  · rintro ⟨definition, hmem, heq⟩
    split at heq
    next => cases heq; exact hmem
    next => cases heq
  · exact fun hmem => ⟨_, hmem, rfl⟩

theorem mem_of_extensionsOf {name : String} {e : TypeDef} (h : e ∈ document.extensionsOf name) :
    .typeExtension e ∈ document := by
  obtain ⟨definition, hmem, heq⟩ := List.mem_filterMap.mp h
  split at heq
  next =>
    split at heq
    next => cases heq; exact hmem
    next => cases heq
  next => cases heq

/-- A declared type is a definition that was merged with its extensions. -/
theorem exists_of_declared {d : TypeDef} (h : d ∈ document.declaredTypes) :
    ∃ core, .type core ∈ document ∧ document.merged core = d := by
  obtain ⟨core, hcore, rfl⟩ := List.mem_map.mp h
  exact ⟨core, mem_typeDefs.mp (List.mem_filter.mp hcore).1, rfl⟩

/-- What one extension keeps is kept by all of them. -/
theorem foldl_extend {P : TypeBody → Prop}
    (hextend : ∀ body more, P body → P more → P (body.extend more)) {extensions : List TypeDef}
    {body : TypeBody} (hbody : P body) (h : ∀ e ∈ extensions, P e.body) :
    P (extensions.foldl (fun body e => body.extend e.body) body) := by
  induction extensions generalizing body with
  | nil => exact hbody
  | cons first rest ih =>
    rw [List.forall_mem_cons] at h
    exact ih (hextend _ _ hbody h.1) h.2

/-- What all definitions and extensions of types have, declared types have. -/
theorem forall_declaredTypes {P : TypeBody → Prop}
    (hextend : ∀ body more, P body → P more → P (body.extend more))
    (h : ∀ part, document.IsPart part → P part.body) : ∀ d ∈ document.declaredTypes, P d.body := by
  intro d hd
  obtain ⟨core, hcore, rfl⟩ := exists_of_declared hd
  exact foldl_extend hextend (h core (.inl hcore)) fun e he => h e (.inr (mem_of_extensionsOf he))

end SchemaClasses.Document
