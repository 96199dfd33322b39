import SchemaClasses.Proofs.Fragments

/-!
# Runs

Documents that are emitted one after the other with one record. No text depends on what was
collected before, and what a document adds does not either, also if it fails half-way. So the run
over several documents is the run over all of their definitions.
-/

namespace SchemaClasses

/-! ## One definition -/

namespace Definition

/-- The definitions that can be emitted, each with what it becomes. A type is left out or becomes
    the code of its body. -/
inductive Becomes (config : Config) : Definition → Fragment → Prop
  | schema (d : SchemaDef) : Becomes config (.schema d) { warnings := [Fragment.schemaWarning] }
  | directive (d : DirectiveDef) :
      Becomes config (.directive d) { warnings := [Fragment.directiveWarning d.name] }
  | ignored {d : TypeDef} (ignored : config.ignores d.name = .ok true) : Becomes config (.type d) {}
  | kept {d : TypeDef} {emitted : EmittedBody} (kept : config.ignores d.name = .ok false)
      (body : d.body.emit config = .ok emitted) :
      Becomes config (.type d) (emitted.fragment d.name (d.description.getD ""))

/-- A type either is left out or becomes the code of its body. -/
theorem becomes_of_emit {config : Config} {definition : Definition} {fragment : Fragment}
    (h : definition.emit config = .ok fragment) : definition.Becomes config fragment := by
  cases definition with
  | schema d =>
    cases h
    exact .schema d
  | type d =>
    simp only [emit_type, TypeDef.emit_eq, Success.bind_eq_ok, Success.mapError_eq_ok,
      Success.pure_eq_ok] at h
    obtain ⟨emitted, hbody, ignored, hignored, rfl⟩ := h
    cases ignored with
    | true => exact .ignored hignored
    | false => exact .kept hignored hbody
  | directive d =>
    simp only [emit_directive, Success.bind_eq_ok, Success.pure_eq_ok] at h
    obtain ⟨_, -, rfl⟩ := h
    exact .directive d
  | typeExtension d =>
    simp only [emit_typeExtension, Success.bind_eq_ok, reduceCtorEq, and_false, exists_false] at h
  -- These kinds are never visited with success.
  | schemaExtension d | operation d | fragment d => cases h

end Definition

/-! ## One document -/

namespace Document

variable {config : Config} {record : Record} {definition : Definition} {document : Document}

theorem emit_nil : Document.emit config record [] = (.ok [], record) := rfl

/-- A definition that fails ends the run, with what was recorded before. -/
theorem emit_cons_error {e : EmissionError} (h : definition.emit config = .error e) :
    Document.emit config record (definition :: document) = (.error e, record) := by
  rw [emit, List.mapM_cons]
  exact Emission.start_bind_error (Definition.start_write_of_error h record) _

/-- A definition that is emitted adds its fragment to the record, and the rest goes on from there.
    -/
theorem emit_cons_ok {fragment : Fragment} (h : definition.emit config = .ok fragment) :
    Document.emit config record (definition :: document) =
      ((Document.emit config (record.add fragment) document).1.map (fragment.text :: ·),
        (Document.emit config (record.add fragment) document).2) := by
  rw [emit, List.mapM_cons, Emission.start_bind_ok (Definition.start_write_of_ok h record)]
  cases hrest : Document.emit config (record.add fragment) document with
  | mk result after =>
    cases result with
    | error e => exact Emission.start_bind_error hrest _
    | ok texts => exact Emission.start_bind_ok hrest _

theorem exists_emitted (h : (Document.emit config record document).1.isOk) :
    ∃ texts after, Document.emit config record document = (.ok texts, after) := by
  cases hemit : Document.emit config record document with
  | mk result after =>
    rw [hemit] at h
    cases result with
    | error e => cases h
    | ok texts => exact ⟨texts, after, rfl⟩

/-- A document succeeds with the texts of the fragments of its definitions, in order, and what they
    add to the record. -/
theorem emit_eq_ok {texts : List Text} {after : Record}
    (h : Document.emit config record document = (.ok texts, after)) :
    ∃ fragments, List.Forall₂ (fun definition fragment => definition.emit config = .ok fragment)
        document fragments ∧
      texts = fragments.map Fragment.text ∧
      after =
        record ++ ⟨fragments.flatMap Fragment.warnings, fragments.flatMap Fragment.imports⟩ := by
  -- The induction is on the document; the record each definition starts from stays general.
  induction document generalizing record texts with
  | nil =>
    cases h
    exact ⟨[], .nil, rfl, (Record.append_empty _).symm⟩
  | cons definition rest ih =>
    cases hfirst : definition.emit config with
    | error e =>
      rw [emit_cons_error hfirst] at h
      cases h
    | ok fragment =>
      rw [emit_cons_ok hfirst, Prod.mk.injEq] at h
      cases hrest : Document.emit config (record.add fragment) rest with
      | mk result last =>
        rw [hrest] at h
        cases result with
        | error e => cases h.1
        | ok more =>
          cases h.1
          cases h.2
          obtain ⟨fragments, hall, rfl, rfl⟩ := ih hrest
          refine ⟨fragment :: fragments, .cons hfirst hall, rfl, ?_⟩
          rw [Record.add_eq, Record.append_assoc]
          rfl

/-- The result of a document does not depend on the record, and what the document adds to the record
    does not either. -/
theorem emit_eq_fresh (config : Config) (record : Record) (document : Document) :
    Document.emit config record document =
      ((Document.emit config {} document).1, record ++ (Document.emit config {} document).2) :=
  (Emission.appendsOnly_mapM (Definition.write_appendsOnly config) document).start_eq record

/-- After a run that succeeds, what follows is emitted with the record that it left. -/
theorem emit_append_ok {front : Document} {texts : List Text} {after : Record}
    (h : Document.emit config record front = (.ok texts, after)) (back : Document) :
    Document.emit config record (front ++ back) =
      ((Document.emit config after back).1.map (texts ++ ·),
        (Document.emit config after back).2) := by
  -- The back starts from the record that the front leaves, so the record stays general.
  induction front generalizing record texts with
  | nil =>
    cases h
    cases hback : Document.emit config after back with
    | mk result last =>
      rw [List.nil_append, hback]
      cases result <;> rfl
  | cons definition rest ih =>
    rw [List.cons_append]
    cases hfirst : definition.emit config with
    | error d =>
      rw [emit_cons_error hfirst] at h
      cases h
    | ok fragment =>
      rw [emit_cons_ok hfirst, Prod.mk.injEq] at h
      cases hrest : Document.emit config (record.add fragment) rest with
      | mk result last =>
        rw [hrest] at h
        cases result with
        | error d => cases h.1
        | ok more =>
          cases h.1
          cases h.2
          rw [emit_cons_ok hfirst, ih hrest]
          cases (Document.emit config last back).1 <;> rfl

/-! ## Several documents -/

/-- The results of documents that are emitted one after the other, and the record after the last. A
    document that fails hands on what it collected. -/
def emitEach (config : Config) (record : Record) :
    List Document → List (Except EmissionError (List Text)) × Record
  | [] => ([], record)
  | document :: rest =>
    let (result, record) := Document.emit config record document
    let (results, record) := emitEach config record rest
    (result :: results, record)

theorem emitEach_cons (config : Config) (record : Record) (document : Document)
    (rest : List Document) :
    emitEach config record (document :: rest) =
      ((Document.emit config record document).1 ::
          (emitEach config (Document.emit config record document).2 rest).1,
        (emitEach config (Document.emit config record document).2 rest).2) := rfl

/-- Each document has the result that it has alone. -/
theorem emitEach_results (config : Config) (record : Record) (documents : List Document) :
    (emitEach config record documents).1 =
      documents.map fun document => (Document.emit config {} document).1 := by
  induction documents generalizing record with
  | nil => rfl
  | cons document rest ih =>
    rw [emitEach_cons, List.map_cons, ih, emit_eq_fresh config record document]

/-- One document more is emitted with the record that all others left. -/
theorem emitEach_concat (config : Config) (record : Record) (documents : List Document)
    (document : Document) :
    (emitEach config record (documents ++ [document])).2 =
      (Document.emit config (emitEach config record documents).2 document).2 := by
  induction documents generalizing record with
  | nil => rfl
  | cons first rest ih =>
    rw [List.cons_append, emitEach_cons, emitEach_cons]
    exact ih _

/-- If all documents succeed, their definitions succeed as one document with the same texts and the
    same record. -/
theorem emit_flatten {documents : List Document} {texts : List (List Text)}
    (h : (emitEach config record documents).1 = texts.map .ok) :
    Document.emit config record documents.flatten =
      (.ok texts.flatten, (emitEach config record documents).2) := by
  -- Each document starts from the record of those before it.
  induction documents generalizing record texts with
  | nil =>
    obtain rfl : texts = [] := by
      symm at h
      simpa [emitEach] using h
    rfl
  | cons document rest ih =>
    cases texts with
    | nil => cases h
    | cons first more =>
      rw [emitEach_cons, List.map_cons, List.cons.injEq] at h
      obtain ⟨hfirst, hmore⟩ := h
      have hdocument : Document.emit config record document =
          (.ok first, (Document.emit config record document).2) := by
        rw [← hfirst]
      rw [List.flatten_cons, emit_append_ok hdocument, ih hmore, emitEach_cons, List.flatten_cons]
      rfl

/-- Whatever was emitted before with a record, also by documents that failed, a document has the
    result that it has with a fresh one, and adds the same warnings and imported names. Documents
    that all succeed make up one document with the texts of all of them. -/
theorem emitEach_compositional (config : Config) (record : Record) (documents : List Document) :
    (emitEach config record documents).1 =
        documents.map (fun document => (Document.emit config {} document).1) ∧
      (∀ document,
        let before := (emitEach config record documents).2
        let after := (emitEach config record (documents ++ [document])).2
        let fresh := (Document.emit config {} document).2
        after.warnings = before.warnings ++ fresh.warnings ∧
          ∀ i, i ∈ after.imports ↔ i ∈ before.imports ∨ i ∈ fresh.imports) ∧
      ∀ texts : List (List Text), (emitEach config record documents).1 = texts.map .ok →
        Document.emit config record documents.flatten =
          (.ok texts.flatten, (emitEach config record documents).2) := by
  refine ⟨emitEach_results config record documents, ?_, fun texts h => emit_flatten h⟩
  intro document before after fresh
  have hafter : after = before ++ fresh := by
    change (emitEach config record (documents ++ [document])).2 = before ++ fresh
    rw [emitEach_concat, emit_eq_fresh]
  rw [hafter]
  exact ⟨rfl, fun i => List.mem_append⟩

/-- A document whose second definition fails, after its first one has been recorded. -/
def halfway : Document :=
  [.type ⟨none, "Node", [], .object ["Named"] []⟩, .schemaExtension ⟨none, [], []⟩]

/-- Two documents that succeed. -/
def scalarThenDirective : List Document :=
  [[.type ⟨none, "Date", [], .scalar⟩], [.directive ⟨none, "auth", [], false, ["OBJECT"]⟩]]

/-- Documents that succeed after one that failed half-way. -/
theorem emitEach_compositional_halfway :
    ∃ texts : List (List Text),
      (emitEach {} (emitEach {} {} [halfway]).2 scalarThenDirective).1 = texts.map .ok ∧
        Document.emit {} (emitEach {} {} [halfway]).2 scalarThenDirective.flatten =
          (.ok texts.flatten, (emitEach {} (emitEach {} {} [halfway]).2 scalarThenDirective).2) := by
  let texts : List (List Text) :=
    [["class Date(Scalar):\n    serialize = lambda x: str(x)\n\n"], [""]]
  have hok : (emitEach {} (emitEach {} {} [halfway]).2 scalarThenDirective).1 =
      texts.map .ok := rfl
  exact ⟨texts, hok, (emitEach_compositional {} _ scalarThenDirective).2.2 _ hok⟩

end Document

end SchemaClasses
