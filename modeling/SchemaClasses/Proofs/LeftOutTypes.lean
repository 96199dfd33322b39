import SchemaClasses.Proofs.Omissions
import SchemaClasses.Proofs.Settings

/-!
# Types that are left out

What changes when types are left out: their texts are empty, there is no warning on their
interfaces, and no names are imported for them alone. All else stays, and so does whether there is
code at all, because a type that is left out still needs code for its parts.
-/

namespace SchemaClasses

/-- The configuration that leaves out the types of these names and no others. -/
def Config.leavingOut (config : Config) (names : List String) : Config :=
  { config with ignoreTypes := some (.array (names.map fun (name : String) => .string name)) }

theorem Json.names_map_string (names : List String) :
    Json.names (names.map fun (name : String) => .string name) = names := by
  simp [Json.names, List.filterMap_map]

/-- With such a configuration just the types named are left out. -/
theorem Config.ignores_leavingOut (config : Config) (names : List String) (type : String) :
    (config.leavingOut names).ignores type = .ok (decide (type ∈ names)) := by
  rw [Config.ignores_list rfl, Json.names_map_string]

/-! ## One definition -/

namespace Definition

instance (ignored : List String) (definition : Definition) :
    Decidable (definition.IsIgnored ignored) :=
  match definition with
  | .type d => decidable_of_iff (d.name ∈ ignored) (by simp [IsIgnored])
  | .schema _ | .schemaExtension _ | .typeExtension _ | .directive _ | .operation _ | .fragment _ =>
    isFalse (by simp [IsIgnored])

/-- A definition becomes the same fragment whichever types are left out, unless it is left out
    itself. Then it becomes nothing, but fails as it would otherwise. -/
theorem emit_of_leavingOut (config : Config) (names : List String) (definition : Definition) :
    definition.emit (config.leavingOut names) =
      (definition.emit (config.leavingOut [])).map fun fragment =>
        if definition.IsIgnored names then {} else fragment := by
  have hbody (body : TypeBody) :
      body.emit (config.leavingOut names) = body.emit (config.leavingOut []) := by
    apply TypeBody.emit_congr <;> rfl
  have hinput : Field.ofInputValue (config.leavingOut names) =
      Field.ofInputValue (config.leavingOut []) := Field.ofInputValue_congr rfl
  -- Only a type is looked up among the ignored names.
  cases definition with
  | type d =>
    have hignored : (Definition.type d).IsIgnored names ↔ d.name ∈ names := by simp [IsIgnored]
    simp only [emit_type, TypeDef.emit_eq, hbody, Config.ignores_leavingOut, hignored]
    cases d.body.emit (config.leavingOut []) with
    | error e => rfl
    | ok emitted =>
      by_cases hmem : d.name ∈ names <;>
        simp [hmem, Except.mapError, bind, Except.bind, Except.map, pure, Except.pure]
  | directive d =>
    have hkept : ¬ (Definition.directive d).IsIgnored names := by simp [IsIgnored]
    simp only [emit_directive, hinput, hkept, if_false]
    cases d.arguments.mapM (Field.ofInputValue (config.leavingOut [])) <;> rfl
  | typeExtension d =>
    simp only [emit_typeExtension, hbody]
    cases d.body.emit (config.leavingOut []) <;> rfl
  | schema d => rfl
  | schemaExtension d | operation d | fragment d => rfl

/-- Leaving types out changes what those become, and nothing else. -/
theorem emit_ok_of_leavingOut {config : Config} (names : List String) {definition : Definition}
    {fragment : Fragment} (h : definition.emit (config.leavingOut []) = .ok fragment) :
    definition.emit (config.leavingOut names) =
      .ok (if definition.IsIgnored names then {} else fragment) := by
  rw [emit_of_leavingOut, h]
  rfl

/-- Of the warnings on a definition those stay that are not on the interfaces of a type that is left
    out. -/
theorem warnings_leavingOut {config : Config} (names : List String) {definition : Definition}
    {fragment : Fragment} (h : definition.emit (config.leavingOut []) = .ok fragment) :
    (if definition.IsIgnored names then [] else fragment.warnings) =
      fragment.warnings.filter (· ∉ names.map Fragment.inheritanceWarning) := by
  rw [(Definition.emit_accounts rfl h).1]
  cases definition with
  | type d =>
    have hignored : (Definition.type d).IsIgnored names ↔ d.name ∈ names := by simp [IsIgnored]
    have hwarning : Fragment.inheritanceWarning d.name ∈ names.map Fragment.inheritanceWarning ↔
        d.name ∈ names := by
      simp [Fragment.inheritanceWarning, Diagnostic.unsupported]
    by_cases hparents : d.body.parents = []
    · simp [warning?, hparents]
    · have hsome : (Definition.type d).warning?
          (Json.names (List.map (fun (name : String) => .string name) [])) =
          some (Fragment.inheritanceWarning d.name) := by
        simp [warning?, hparents, Json.names, Fragment.inheritanceWarning]
      rw [hsome, Option.toList_some, List.filter_singleton]
      by_cases hmem : d.name ∈ names <;> simp [hignored, hwarning, hmem]
  | schema d | schemaExtension d | typeExtension d | directive d | operation d | fragment d =>
    simp [warning?, IsIgnored, Fragment.inheritanceWarning, Diagnostic.unsupported]

end Definition

/-! ## Documents -/

namespace Document

/-- The texts of a document without those of the types that are left out. -/
def blank (names : List String) (document : Document) (texts : List Text) : List Text :=
  List.zipWith (fun definition text => if definition.IsIgnored names then "" else text)
    document texts

/-- The definitions of a document that are not left out. -/
def without (names : List String) (document : Document) : Document :=
  document.filter fun definition => ¬ definition.IsIgnored names

/-- The result of a document is the same but for the texts of the types that are left out. -/
theorem emit_leavingOut_fst (config : Config) (names : List String) (first second : Record)
    (document : Document) :
    (Document.emit (config.leavingOut names) first document).1 =
      (Document.emit (config.leavingOut []) second document).1.map (blank names document) := by
  induction document generalizing first second with
  | nil => rfl
  | cons definition rest ih =>
    cases hfirst : definition.emit (config.leavingOut []) with
    | error e =>
      have hstep : definition.emit (config.leavingOut names) = .error e := by
        rw [Definition.emit_of_leavingOut, hfirst]
        rfl
      rw [emit_cons_error hfirst, emit_cons_error hstep]
      rfl
    | ok fragment =>
      rw [emit_cons_ok hfirst, emit_cons_ok (Definition.emit_ok_of_leavingOut names hfirst),
        ih _ (second.add fragment)]
      cases (Document.emit (config.leavingOut []) (second.add fragment) rest).1 with
      | error e => rfl
      | ok texts =>
        by_cases hignored : definition.IsIgnored names <;> simp [Except.map, blank, hignored]

section

variable {config : Config} {document : Document} {fragments : List Fragment}
  (h : List.Forall₂ (fun definition fragment =>
    definition.emit (config.leavingOut []) = .ok fragment) document fragments)

include h

/-- What a document with types left out records is what the document without them records, and that
    has code. -/
theorem emit_without (names : List String) (record : Record) :
    ∃ rest, Document.emit (config.leavingOut []) record (document.without names) =
      (.ok rest, (Document.emit (config.leavingOut names) record document).2) := by
  induction h generalizing record with
  | nil => exact ⟨[], rfl⟩
  | @cons definition fragment document _ hfirst _ ih =>
    rw [emit_cons_ok (Definition.emit_ok_of_leavingOut names hfirst)]
    by_cases hignored : definition.IsIgnored names
    · rw [without, List.filter_cons_of_neg (by simpa using hignored), ← without, if_pos hignored,
        Record.add_empty]
      exact ih record
    · obtain ⟨rest, hrest⟩ := ih (record.add fragment)
      rw [without, List.filter_cons_of_pos (by simpa using hignored), ← without, if_neg hignored,
        emit_cons_ok hfirst, hrest]
      exact ⟨_, rfl⟩

/-- Only the warnings on the interfaces of types that are left out are missing. -/
theorem emit_leavingOut_warnings (names : List String) (record : Record) :
    (Document.emit (config.leavingOut names) record document).2.warnings =
      record.warnings ++ (fragments.flatMap Fragment.warnings).filter
        (· ∉ names.map Fragment.inheritanceWarning) := by
  induction h generalizing record with
  | nil => simp [emit_nil]
  | @cons definition fragment document _ hfirst _ ih =>
    rw [emit_cons_ok (Definition.emit_ok_of_leavingOut names hfirst), List.flatMap_cons,
      List.filter_append, ← Definition.warnings_leavingOut names hfirst, ih, ← List.append_assoc]
    split <;> rfl

end

/-- Leaving types out deletes them and nothing else. The texts of a document stay in their places,
    those of the types apart, which are empty then and would not be otherwise. Of the warnings only
    those on the interfaces of these types are missing. All that is recorded is recorded of the
    document that does not have them. Whether there is code does not depend on what is left out. -/
theorem emit_leavingOut (config : Config) (names : List String) (record : Record)
    (document : Document) :
    (Document.emit (config.leavingOut names) record document).1 =
        (Document.emit (config.leavingOut []) record document).1.map (blank names document) ∧
      ∀ texts after, Document.emit (config.leavingOut []) record document = (.ok texts, after) →
        List.Forall₂ (fun definition (text : Text) => (∃ d, definition = .type d) → text ≠ "")
            document texts ∧
          let left := (Document.emit (config.leavingOut names) record document).2
          (∃ added, after.warnings = record.warnings ++ added ∧
            left.warnings = record.warnings ++
              added.filter (· ∉ names.map Fragment.inheritanceWarning)) ∧
          ∃ rest, Document.emit (config.leavingOut []) record (document.without names) =
            (.ok rest, left) := by
  refine ⟨emit_leavingOut_fst config names record record document, fun texts after h => ?_⟩
  obtain ⟨fragments, hall, rfl, rfl⟩ := emit_eq_ok h
  refine ⟨?_, ⟨_, rfl, emit_leavingOut_warnings hall names record⟩, emit_without hall names record⟩
  rw [List.forall₂_map_right_iff]
  refine hall.imp fun definition fragment hemit => ?_
  rintro ⟨d, rfl⟩ hempty
  -- Nothing is left out here, so the type has code.
  cases ((Definition.emit_accounts rfl hemit).2.mp hempty) with
  | type hmem => simp [Json.names] at hmem

/-- A document whose only argument and only enumeration are in types to leave out. One of these
    has interfaces, as a type that stays has too. -/
def partlyHidden : Document :=
  [.type ⟨none, "Query", [], .object ["Node"] [⟨none, "id", [], .named "ID", []⟩]⟩,
    .directive ⟨none, "auth", [], false, ["OBJECT"]⟩,
    .type ⟨none, "Hidden", [], .object ["Node"]
      [⟨none, "at", [⟨none, "zone", .named "String", some .null, []⟩], .named "Int", []⟩]⟩,
    .type ⟨none, "Color", [], .enum [⟨none, "RED", []⟩]⟩,
    .type ⟨none, "Any", [], .union ["Query"]⟩]

/-- What leaving out a type does to the warnings and to the names that a document needs. -/
theorem emit_leavingOut_partlyHidden :
    ∃ texts after, Document.emit (Config.leavingOut {} []) {} partlyHidden = (.ok texts, after) ∧
      after.warnings.map (·.subject) = ["Query", "@auth", "Hidden"] ∧
      let names := ["Color", "Hidden", "Nothing"]
      let left := Document.emit (Config.leavingOut {} names) {} partlyHidden
      left.1 = .ok (blank names partlyHidden texts) ∧
        left.2.warnings.map (·.subject) = ["Query", "@auth"] ∧
        (∀ i ∈ left.2.imports, i ≠ .argument ∧ i ≠ .enum) ∧
        ∃ rest, Document.emit (Config.leavingOut {} []) {} (partlyHidden.without names) =
          (.ok rest, left.2) := by
  have hok : (Document.emit (Config.leavingOut {} []) {} partlyHidden).1.isOk := by decide +kernel
  obtain ⟨texts, after, h⟩ := exists_emitted hok
  obtain ⟨hresult, hrecord⟩ :=
    emit_leavingOut {} ["Color", "Hidden", "Nothing"] {} partlyHidden
  obtain ⟨-, -, hwithout⟩ := hrecord texts after h
  refine ⟨texts, after, h, ?_, ?_, by decide +kernel, by decide +kernel, hwithout⟩
  · have hsubjects : (Document.emit (Config.leavingOut {} []) {} partlyHidden).2.warnings.map
        (·.subject) = ["Query", "@auth", "Hidden"] := by decide +kernel
    rwa [h] at hsubjects
  · rw [hresult, h]
    rfl

end Document

end SchemaClasses
