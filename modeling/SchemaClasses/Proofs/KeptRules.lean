import Mathlib.Data.List.Flatten
import Mathlib.Data.List.Nodup
import SchemaClasses.Proofs.DeclaredTypes

/-!
# Rules that are kept

What a document without violations looks like: no type is defined twice, no two fields of a type
have one name, no directive stands where it stood before unless it may, and no directive is given an
argument twice.
-/

namespace SchemaClasses.Rules

variable {document before : Document}

/-! ## Names that are not repeated -/

/-- Names repeat nothing exactly if they differ from each other and from those seen before. -/
theorem repeats_eq_nil {seen names : List String} (h : repeats seen names = []) :
    names.Nodup ∧ ∀ name ∈ names, name ∉ seen := by
  induction names generalizing seen with
  | nil => simp
  | cons name rest ih =>
    rw [repeats] at h
    split at h
    next => cases h
    next hfresh =>
      obtain ⟨hnodup, hrest⟩ := ih h
      have hname : name ∉ seen := by simpa using hfresh
      refine ⟨List.nodup_cons.mpr ⟨fun hmem => ?_, hnodup⟩, List.forall_mem_cons.mpr ⟨hname, ?_⟩⟩
      · exact hrest name hmem List.mem_cons_self
      · exact fun other hother hseen => hrest other hother (List.mem_cons_of_mem _ hseen)

theorem mem_distinct {name : String} {names : List String} :
    name ∈ Suggestion.distinct names ↔ name ∈ names := by
  induction names with
  | nil => rfl
  | cons first rest ih =>
    rw [Suggestion.distinct, List.mem_cons, List.mem_cons, List.mem_filter, ih]
    by_cases h : name = first <;> simp [h]

/-- Names of which none comes up again are distinct. -/
theorem repeatedNames_eq_nil {names : List String} (h : repeatedNames names = []) :
    names.Nodup := by
  rw [List.nodup_iff_count_le_one]
  intro name
  by_contra hcount
  have hmem : name ∈ repeatedNames names := by
    have hpos : 0 < names.count name := by omega
    exact List.mem_filter.mpr
      ⟨mem_distinct.mpr (List.count_pos_iff.mp hpos), by simpa using hcount⟩
  rw [h] at hmem
  cases hmem

/-- An element is the first with its key if no two have one key. -/
theorem find?_of_nodup {α : Type} {key : α → String} {elements : List α}
    (h : (elements.map key).Nodup) :
    ∀ a ∈ elements, elements.find? (key · = key a) = some a := by
  induction elements with
  | nil => simp
  | cons first rest ih =>
    rw [List.map_cons, List.nodup_cons] at h
    refine List.forall_mem_cons.mpr ⟨List.find?_cons_of_pos (by simp), fun a ha => ?_⟩
    have hne : key first ≠ key a := fun heq => h.1 (heq ▸ List.mem_map_of_mem ha)
    rw [List.find?_cons_of_neg (by simpa using hne), ih h.2 a ha]

/-! ## Definitions -/

/-- No definition of a document without violations has any. -/
theorem inDefinition_eq_nil {definitions : List Definition}
    (h : inDefinitions document before definitions = []) :
    ∀ definition ∈ definitions, ∃ earlier, inDefinition document earlier definition = [] := by
  induction definitions generalizing before with
  | nil => simp
  | cons first rest ih =>
    rw [inDefinitions, List.append_eq_nil_iff] at h
    exact List.forall_mem_cons.mpr ⟨⟨before, h.1⟩, ih h.2⟩

/-- Where no definition breaks a rule, the types defined so far have different names. -/
theorem nodup_typeNames_append {definitions : List Definition}
    (hbefore : ((typeDefs before).map (·.name)).Nodup)
    (h : inDefinitions document before definitions = []) :
    ((typeDefs (before ++ definitions)).map (·.name)).Nodup := by
  induction definitions generalizing before with
  | nil => rwa [List.append_nil]
  | cons first rest ih =>
    rw [inDefinitions, List.append_eq_nil_iff] at h
    rw [List.append_cons]
    refine ih ?_ h.2
    cases first with
    | type d =>
      have hfresh : d.name ∉ (typeDefs before).map (·.name) := by
        simp only [inDefinition, List.append_eq_nil_iff] at h
        obtain ⟨⟨⟨⟨hfresh, -⟩, -⟩, -⟩, -⟩ := h
        split at hfresh
        next => cases hfresh
        next hname => simpa using hname
      have hone : typeDefs (before ++ [.type d]) = typeDefs before ++ [d] := by
        simp [typeDefs]
      rw [hone, List.map_append, List.map_singleton]
      exact List.nodup_append.mpr ⟨hbefore, List.nodup_singleton _, fun name hname other hother =>
        fun heq => hfresh (by rw [List.mem_singleton] at hother; rwa [← hother, ← heq])⟩
    | _ => simpa [typeDefs] using hbefore

/-- No type is defined twice. -/
theorem nodup_typeNames (h : document.violations = []) :
    ((typeDefs document).map (·.name)).Nodup :=
  @nodup_typeNames_append document [] document List.nodup_nil h

/-! ## Types with their extensions -/

theorem inTypeParts_eq_nil (h : document.violations = []) {d : TypeDef} (hd : document.IsPart d) :
    ∃ isExtension, inTypeParts document isExtension d = [] := by
  obtain hd | hd := hd
  · obtain ⟨earlier, hnone⟩ := inDefinition_eq_nil h _ hd
    simp only [inDefinition, List.append_eq_nil_iff] at hnone
    exact ⟨false, hnone.2⟩
  · obtain ⟨earlier, hnone⟩ := inDefinition_eq_nil h _ hd
    simp only [inDefinition, List.append_eq_nil_iff] at hnone
    exact ⟨true, hnone.2⟩

/-- Every field of a declared type stands in a definition or an extension. -/
theorem exists_part_of_declared {d : TypeDef} (hd : d ∈ document.declaredTypes) :
    ∀ field ∈ outputFields d.body,
      ∃ part, document.IsPart part ∧ field ∈ outputFields part.body := by
  refine @Document.forall_declaredTypes document (fun body => ∀ field ∈ outputFields body,
    ∃ part, document.IsPart part ∧ field ∈ outputFields part.body) ?_ ?_ d hd
  · intro body more hbody hmore field hfield
    have hsplit : field ∈ outputFields body ∨ field ∈ outputFields more := by
      revert hfield
      unfold TypeBody.extend
      split <;> simp +contextual [outputFields]
    exact hsplit.elim (hbody field) (hmore field)
  · exact fun part hpart field hfield => ⟨part, hpart, hfield⟩

/-- No field of a declared type breaks a rule. -/
theorem inField_eq_nil (h : document.violations = []) {d : TypeDef}
    (hd : d ∈ document.declaredTypes) :
    ∀ field ∈ outputFields d.body, inField document field = [] := by
  intro field hfield
  obtain ⟨part, hpart, hfield⟩ := exists_part_of_declared hd field hfield
  obtain ⟨isExtension, hnone⟩ := inTypeParts_eq_nil h hpart
  unfold inTypeParts at hnone
  dsimp only at hnone
  cases hbody : part.body with
  | object parents fields | interface parents fields =>
    rw [hbody] at hfield hnone
    simp only [List.append_eq_nil_iff, List.flatMap_eq_nil_iff] at hnone
    exact hnone.2 field hfield
  | scalar | union members | enum values | inputObject fields =>
    rw [hbody] at hfield
    cases hfield

/-- A declared type is the one that its name stands for. -/
theorem typeDef?_ofDocument (h : document.violations = []) :
    ∀ d ∈ document.declaredTypes, (Declarations.ofDocument document).typeDef? d.name = some d := by
  have hnames : (document.declaredTypes.map (·.name)).Sublist
      ((typeDefs document).map (·.name)) := by
    rw [Document.declaredTypes, List.map_map]
    exact List.filter_sublist.map _
  exact find?_of_nodup (hnames.nodup (nodup_typeNames h))

/-- The fields of a declared input type are found under its name. -/
theorem inputFields_ofDocument (h : document.violations = []) {d : TypeDef}
    (hd : d ∈ document.declaredTypes) {fields : List InputValueDef}
    (hbody : d.body = .inputObject fields) :
    (Declarations.ofDocument document).inputFields d.name = fields := by
  rw [Declarations.inputFields, typeDef?_ofDocument h d hd, Option.map_some, hbody]

/-! ## Fields of types -/

/-- A further part of a type repeats none of its fields. -/
theorem nodup_fieldNames_of_part {d : TypeDef} (h : ofTypeNames before d = []) :
    ((partsOf d.name before).flatMap (fieldNames ·.body)).Nodup →
      ((partsOf d.name before).flatMap (fieldNames ·.body) ++ fieldNames d.body).Nodup := by
  simp only [ofTypeNames, List.append_eq_nil_iff, List.map_eq_nil_iff] at h
  obtain ⟨hnodup, hfresh⟩ := repeats_eq_nil h.1.2
  exact fun hbefore => List.nodup_append.mpr
    ⟨hbefore, hnodup, fun name hname other hother heq => hfresh other hother (heq ▸ hname)⟩

/-- The parts of a type declare no two fields of one name. -/
theorem nodup_fieldNames_append {definitions : List Definition} {name : String}
    (hbefore : ((partsOf name before).flatMap (fieldNames ·.body)).Nodup)
    (h : inDefinitions document before definitions = []) :
    ((partsOf name (before ++ definitions)).flatMap (fieldNames ·.body)).Nodup := by
  -- The parts before a definition grow by it, as in the rule itself.
  induction definitions generalizing before with
  | nil => rwa [List.append_nil]
  | cons first rest ih =>
    rw [inDefinitions, List.append_eq_nil_iff] at h
    rw [List.append_cons]
    refine ih ?_ h.2
    rw [partsOf, List.filterMap_append, List.flatMap_append]
    cases first with
    | type d | typeExtension d =>
      by_cases hname : d.name = name
      · subst hname
        simp only [inDefinition, List.append_eq_nil_iff] at h
        have hnames : ofTypeNames before d = [] := by simp only [h]
        simpa [partsOf] using nodup_fieldNames_of_part hnames hbefore
      · simpa [partsOf, hname] using hbefore
    | _ => simpa [partsOf] using hbefore

/-- The parts of a type in document order are its definitions and its extensions. -/
theorem partsOf_perm (name : String) (document : Document) :
    (partsOf name document).Perm
      ((typeDefs document).filter (·.name = name) ++ document.extensionsOf name) := by
  induction document with
  | nil => exact .nil
  | cons first rest ih =>
    cases first with
    | type d =>
      by_cases hname : d.name = name
      · simpa [partsOf, typeDefs, Document.extensionsOf, hname] using ih.cons d
      · simpa [partsOf, typeDefs, Document.extensionsOf, hname] using ih
    | typeExtension d =>
      by_cases hname : d.name = name
      · simpa [partsOf, typeDefs, Document.extensionsOf, hname] using
          (ih.cons d).trans List.perm_middle.symm
      · simpa [partsOf, typeDefs, Document.extensionsOf, hname] using ih
    | _ => simpa [partsOf, typeDefs, Document.extensionsOf] using ih

/-- An extension adds its own fields at most, and none if it is of another kind. -/
theorem fieldNames_extend (body more : TypeBody) :
    (fieldNames (body.extend more)).Sublist (fieldNames body ++ fieldNames more) := by
  unfold TypeBody.extend
  split <;> simp [fieldNames]

theorem fieldNames_foldl_extend (body : TypeBody) (extensions : List TypeDef) :
    (fieldNames (extensions.foldl (fun body e => body.extend e.body) body)).Sublist
      (fieldNames body ++ extensions.flatMap (fieldNames ·.body)) := by
  induction extensions generalizing body with
  | nil => simp
  | cons first rest ih =>
    rw [List.flatMap_cons, ← List.append_assoc]
    exact (ih _).trans ((fieldNames_extend body first.body).append_right _)

/-- No two fields of a declared type have one name. -/
theorem nodup_fieldNames (h : document.violations = []) :
    ∀ d ∈ document.declaredTypes, (fieldNames d.body).Nodup := by
  intro d hd
  obtain ⟨core, hcore, rfl⟩ := Document.exists_of_declared hd
  have hparts : ((partsOf core.name document).flatMap (fieldNames ·.body)).Nodup :=
    @nodup_fieldNames_append document [] document core.name List.nodup_nil h
  have hself : [core].Sublist ((typeDefs document).filter (·.name = core.name)) := by
    rw [List.singleton_sublist, List.mem_filter]
    exact ⟨Document.mem_typeDefs.mpr hcore, by simp⟩
  have hperm := (partsOf_perm core.name document).flatMap_right (fieldNames ·.body)
  have hall := hperm.nodup_iff.mp hparts
  rw [List.flatMap_append] at hall
  refine (fieldNames_foldl_extend core.body (document.extensionsOf core.name)).nodup ?_
  refine List.Nodup.sublist (List.Sublist.append_right ?_ _) hall
  simpa using hself.flatMap (fieldNames ·.body)

/-! ## Applied directives -/

/-- The directive for deprecations is there in every document. -/
theorem directive?_deprecated (document : Document) :
    (directive? document "deprecated").isSome := by
  rw [directive?, Option.isSome_or, Bool.or_eq_true]
  exact .inr (by decide)

/-- A directive that may stand once is the first of its name. -/
theorem find?_directive {directives : List Directive} {name : String}
    (hsingle : (directive? document name).any (!·.repeatable))
    (h : repeatedDirectives document [] directives = []) :
    ∀ d ∈ directives, d.name = name → directives.find? (·.name = name) = some d := by
  rw [repeatedDirectives, List.map_eq_nil_iff] at h
  obtain ⟨hnodup, -⟩ := repeats_eq_nil h
  clear h
  -- The induction is on the directives; that no name repeats passes on to the rest.
  induction directives with
  | nil => simp
  | cons first rest ih =>
    intro d hd hname
    rw [List.map_cons, List.filter_cons] at hnodup
    by_cases hfirst : first.name = name
    · obtain rfl | hd := List.mem_cons.mp hd
      · rw [List.find?_cons_of_pos (by simpa using hfirst)]
      · -- A second one of the name would repeat it.
        rw [hfirst, if_pos hsingle] at hnodup
        have hagain : name ∈ (rest.map (·.name)).filter fun name =>
            (directive? document name).any (!·.repeatable) :=
          List.mem_filter.mpr ⟨List.mem_map.mpr ⟨d, hd, hname⟩, hsingle⟩
        exact absurd hagain (List.nodup_cons.mp hnodup).1
    · obtain rfl | hd := List.mem_cons.mp hd
      · exact absurd hname hfirst
      · rw [List.find?_cons_of_neg (by simpa using hfirst)]
        refine ih ?_ d hd hname
        split at hnodup
        next => exact (List.nodup_cons.mp hnodup).2
        next => exact hnodup

/-- An argument is the last of its name too. -/
theorem find?_argument {d : Directive} {place : String} (h : inDirective document place d = []) :
    ∀ argument ∈ d.arguments,
      d.arguments.reverse.find? (·.name = argument.name) = some argument := by
  simp only [inDirective, List.append_eq_nil_iff, repeatedArguments, List.map_eq_nil_iff] at h
  obtain ⟨⟨⟨-, hrepeated⟩, -⟩, -⟩ := h
  have hnodup : (d.arguments.reverse.map (·.name)).Nodup := by
    rw [List.map_reverse, List.nodup_reverse]
    exact repeatedNames_eq_nil hrepeated
  exact fun argument hargument => find?_of_nodup hnodup argument (List.mem_reverse.mpr hargument)

end SchemaClasses.Rules
