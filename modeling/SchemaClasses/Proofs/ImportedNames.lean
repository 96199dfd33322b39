import SchemaClasses.Proofs.FieldReferences

/-!
# Imported names

The names of the class library that a document needs are those that its code refers to, no more and
no less: line by line for the fields of a class, then for blocks and for whole documents.
-/

namespace SchemaClasses

open Keyed (keys)
open Text (Anything Delimited LineEnd Silent Unbound Uses UsesEach delimited_cons delimited_nil
  isIdentifier lineEnd_cons lineEnd_nil)

/-! ## Lines -/

theorem Assignment.avoiding_imports (taken : List String) (a : Assignment) :
    (a.avoiding taken).imports = a.imports := by
  simp only [avoiding]
  split <;> rfl

/-- The call refers to those names of the class library that are collected with it. -/
def Assignment.IsExact (a : Assignment) : Prop :=
  Uses Anything a.call.render (· ∈ a.imports)

namespace Field

/-- Arguments and input fields come with the names that their calls refer to. -/
theorem isExact_inputs {config : Config} {defs : List InputValueDef} {assignments : List Assignment}
    (hnames : ∀ d ∈ defs, d.wellNamed) (havoids : ∀ d ∈ defs, d.avoidsLibrary)
    (h : defs.mapM (ofInputValue config) = .ok assignments) :
    ∀ a ∈ Assignment.unique assignments, a.IsExact := by
  have hall : List.Forall₂ (fun d bound => IsInputCall config "Field" d bound.name bound.call ∧
      bound.imports = d.type.imports) defs (Assignment.unique assignments) := by
    refine Assignment.forall₂_unique (Success.mapM_eq_ok.mp h) fun d a taken ha => ⟨?_, ?_⟩
    · obtain ⟨-, hpinned, type, default, htype, hdefault, hpins⟩ := ofInputValue_pins ha
      exact isInputCall_of_pins htype hdefault (hpins.avoiding hpinned taken)
    · rw [Assignment.avoiding_imports, ofInputValue_imports ha]
  refine Success.forall_of_forall₂ hall fun d hmem bound hbound => ?_
  have huses := IsInputCall.uses .field hbound.1 (hnames d hmem) (havoids d hmem)
  refine huses.congr fun i => ?_
  rw [hbound.2, TypeRef.mem_imports]

/-- Fields come with the names that their calls refer to, those of their arguments among them. -/
theorem isExact_fields {config : Config} {defs : List FieldDef} {assignments : List Assignment}
    (hnames : ∀ d ∈ defs, d.wellNamed) (havoids : ∀ d ∈ defs, d.avoidsLibrary)
    (h : defs.mapM (ofField config) = .ok assignments) :
    ∀ a ∈ Assignment.unique assignments, a.IsExact := by
  have hall : List.Forall₂ (fun d bound =>
      (∃ arguments, IsFieldCall config d arguments bound.name bound.call) ∧
        ∀ i, i ∈ bound.imports ↔ d.Needs i) defs (Assignment.unique assignments) := by
    refine Assignment.forall₂_unique (Success.mapM_eq_ok.mp h) fun d a taken ha => ⟨?_, ?_⟩
    · obtain ⟨-, hpinned, type, arguments, reason, htype, harguments, hreason, hpins⟩ :=
        ofField_pins ha
      exact ⟨passed arguments,
        (isFieldCall_of_pins htype harguments hreason (hpins.avoiding hpinned taken)).1⟩
    · rw [Assignment.avoiding_imports]
      exact mem_imports_of_ofField ha
  refine Success.forall_of_forall₂ hall fun d hmem bound hbound => ?_
  obtain ⟨⟨arguments, hcall⟩, himports⟩ := hbound
  exact (hcall.uses (hnames d hmem) (havoids d hmem)).congr fun i => (himports i).symm

end Field

namespace Fragment

theorem usesEach_indent {lines : List Text} {uses : Import → Prop}
    (h : UsesEach LineEnd lines uses) : UsesEach LineEnd (lines.map indent) uses := by
  have hblanks : Silent Anything "    " := .punctuation rfl
  refine (UsesEach.map lineEnd_nil fun line hmem => ?_).congr h.all
  exact (hblanks.append (h.each line hmem) fun _ _ => trivial).congr (by simp)

/-- The head of a class refers to its base, unless its own name is one of the library. -/
theorem uses_head {name : String} (hname : isIdentifier name) (htaken : Import.isTaken name = false)
    (base : Import) :
    Uses Anything ("class " ++ name ++ "(" ++ base.text ++ "):" : String) fun i => i = base := by
  have hbase : Uses Delimited base.text fun i => i = base :=
    base.uses_text.mono fun _ => Delimited.unbound
  have hcolon : Silent Anything ":" := .punctuation rfl
  have hbody : Uses Anything (name ++ ("(" ++ base.text ++ ")" ++ ":") : Text)
      fun i => i = base := by
    refine Uses.afterWord hname htaken ?_ fun rest _ => ?_
    · exact ((hbase.bracketed .round).append hcolon fun _ _ => trivial).congr (by simp)
    · exact (delimited_cons rfl _).unbound
  have hclass : Uses Anything ("class" ++ " " ++ (name ++ ("(" ++ base.text ++ ")" ++ ":")) : Text)
      fun i => i = base := by
    refine Uses.afterBlank rfl rfl hbody fun rest _ => ?_
    rw [Text.chars_append, List.append_assoc, Text.chars_ofString]
    exact Text.unbinding_identifier hname _
  have hsplit : Text.ofString ("class " ++ name ++ "(" ++ base.text ++ "):") =
      ("class" ++ " " ++ (name ++ ("(" ++ base.text ++ ")" ++ ":")) : Text) := by
    ext1
    simp
  rw [hsplit]
  exact hclass

/-- A class refers to its base and to what its body refers to. Its description refers to nothing. -/
theorem uses_classBlock {name : String} (hname : isIdentifier name)
    (htaken : Import.isTaken name = false) (base : Import) (description : String)
    {body : List Text} {uses : Import → Prop} (hbody : UsesEach LineEnd body uses) :
    Uses Anything (classBlock name base description body) fun i => i = base ∨ uses i := by
  have hdescription : UsesEach LineEnd
      (if description.isEmpty then [] else [↑(Text.docstring description)] : List Text)
      fun _ => False := by
    split
    case isTrue => exact .silent lineEnd_nil (by simp)
    case isFalse => exact .singleton lineEnd_nil (.docstring description)
  have hinner := hdescription.append hbody
  unfold classBlock classLines
  dsimp only
  generalize
    (if description.isEmpty then [] else [↑(Text.docstring description)] : List Text) ++ body =
    inner at *
  -- An empty body has a line of its own, which uses nothing.
  have hlines : UsesEach LineEnd (if inner.isEmpty then [("pass" : Text)] else inner) uses := by
    split
    case isTrue hnil =>
      rw [List.isEmpty_iff] at hnil
      subst hnil
      have hpass : Silent LineEnd "pass" :=
        (Text.silent_word rfl rfl).mono fun _ => LineEnd.delimited
      refine (UsesEach.singleton lineEnd_nil hpass).congr fun i => ?_
      simpa using (hinner.all i).symm
    case isFalse => exact hinner.congr (by simp)
  have hhead : UsesEach LineEnd
      [Text.ofString ("class " ++ name ++ "(" ++ base.text ++ "):")] fun i => i = base :=
    .singleton lineEnd_nil ((uses_head hname htaken base).mono fun _ _ => trivial)
  have hfeed (rest : List Char) : LineEnd ("\n".toList ++ rest) := lineEnd_cons rest
  have hjoined := (hhead.append (usesEach_indent hlines)).join rfl hfeed
  have hend : Silent Anything blockEnd := .punctuation rfl
  exact (hjoined.append hend fun _ _ => lineEnd_cons _).congr (by simp)

/-! ## Blocks -/

/-- The fragment comes with those names of the class library that its text refers to. -/
def IsExact (fragment : Fragment) : Prop :=
  ∀ i : Import, i ∈ fragment.imports ↔ i.text ∈ Text.references fragment.text

theorem isExact_of_uses {fragment : Fragment}
    (h : Uses Anything fragment.text (· ∈ fragment.imports)) : fragment.IsExact :=
  fun i => (h.mentions trivial i).symm

theorem isExact_empty {fragment : Fragment} (htext : fragment.text = "")
    (himports : fragment.imports = []) : fragment.IsExact := by
  intro i
  have hnothing := Text.not_mentions_nil i
  rw [himports, Text.references, htext]
  exact iff_of_false (by simp) hnothing

/-- A class of exact fields is exact. -/
theorem isExact_ofFields {name : String} (hname : isIdentifier name)
    (htaken : Import.isTaken name = false) (base : Import) (description : String)
    {fields : List Assignment}
    (hfields : ∀ a ∈ Assignment.unique fields, isIdentifier a.name ∧ a.IsExact) :
    (ofFields name base description fields).IsExact := by
  have hbody : UsesEach LineEnd ((Assignment.unique fields).map Assignment.render)
      fun i => ∃ a ∈ Assignment.unique fields, i ∈ a.imports := by
    apply UsesEach.map lineEnd_nil
    intro a hmem
    obtain ⟨hbound, hcall⟩ := hfields a hmem
    exact .bound hbound (.inr rfl) (hcall.mono fun _ _ => trivial)
  apply isExact_of_uses
  refine (uses_classBlock hname htaken base description hbody).congr fun i => ?_
  simp [ofFields, or_comm]

/-- The members of a union are referred to, but they are no names of the library. -/
theorem silent_unionBody {members : List String}
    (h : ∀ member ∈ members, isIdentifier member ∧ Import.isTaken member = false) :
    ∀ line ∈ unionBody members, Silent LineEnd line := by
  have hmember : ∀ member ∈ members, Silent Delimited ("lambda: " ++ member : String) := by
    intro member hmem
    rw [Text.ofString_append]
    exact (Text.silent_word (h member hmem).1 (h member hmem).2).deferred
  have hmeta : Silent LineEnd "class Meta:" := by
    have hcolon : Silent LineEnd ":" := (Uses.punctuation rfl).mono fun _ _ => trivial
    have hbody : Silent LineEnd ("Meta" ++ ":") :=
      hcolon.afterWord rfl rfl fun _ _ => (delimited_cons rfl _).unbound
    have hline : Silent LineEnd ("class" ++ " " ++ ("Meta" ++ ":")) :=
      hbody.afterBlank rfl rfl fun _ _ => rfl
    exact hline
  have htypes {body : Text} (hbody : Silent Delimited body) :
      Silent LineEnd (indent ("types" ++ " = " ++ ("(" ++ body ++ ")"))) := by
    have hline : Silent Anything ("types" ++ " = " ++ ("(" ++ body ++ ")")) :=
      .bound rfl (.inr rfl) (hbody.bracketed .round)
    have hblanks : Silent Anything "    " := .punctuation rfl
    exact ((hblanks.append hline fun _ _ => trivial).congr (by simp)).mono fun _ _ => trivial
  -- A single member has a comma after it, since the brackets alone would not make a tuple.
  unfold unionBody
  split
  · simp
  · next member =>
    have hcomma : Silent Anything "," := .punctuation rfl
    have hbody : Silent Delimited (Text.ofString ("lambda: " ++ member) ++ ",") :=
      (((hmember member List.mem_cons_self).append hcomma fun _ _ => delimited_cons rfl _).congr
        (by simp)).mono fun _ _ => trivial
    have hsplit : Text.ofString ("types = (lambda: " ++ member ++ ",)") =
        "types" ++ " = " ++ ("(" ++ (Text.ofString ("lambda: " ++ member) ++ ",") ++ ")") := by
      ext1
      simp
    rw [hsplit]
    exact List.forall_mem_cons.mpr ⟨hmeta, List.forall_mem_singleton.mpr (htypes hbody)⟩
  · have hbody : Silent Delimited
        (Text.join ", " ((members.map ("lambda: " ++ ·)).map Text.ofString)) := by
      rw [List.map_map]
      exact (UsesEach.silent delimited_nil (List.forall_mem_map.mpr hmember)).commas
    have hsplit :
        Text.ofString ("types = (" ++ Text.joinWith ", " (members.map ("lambda: " ++ ·)) ++ ")") =
          "types" ++ " = "
            ++ ("(" ++ Text.join ", " ((members.map ("lambda: " ++ ·)).map Text.ofString)
              ++ ")") := by
      rw [← Text.ofString_joinWith]
      ext1
      simp
    rw [hsplit]
    exact List.forall_mem_cons.mpr ⟨hmeta, List.forall_mem_singleton.mpr (htypes hbody)⟩

theorem silent_serialize : Silent Anything "serialize = lambda x: str(x)" := by
  have hx : Silent Delimited "x" := Text.silent_word rfl rfl
  have hstr : Silent Anything ("str" ++ ("(" ++ "x" ++ ")")) :=
    (hx.bracketed .round).afterWord rfl rfl fun _ _ => (delimited_cons rfl _).unbound
  have hcolon : Silent Anything ": " := .punctuation rfl
  have hbody : Silent Anything ("x" ++ (": " ++ ("str" ++ ("(" ++ "x" ++ ")")))) :=
    ((hcolon.append hstr fun _ _ => trivial).congr (by simp)).afterWord rfl rfl
      fun _ _ => (delimited_cons rfl _).unbound
  have hlambda : Silent Anything
      ("lambda" ++ " " ++ ("x" ++ (": " ++ ("str" ++ ("(" ++ "x" ++ ")"))))) :=
    hbody.afterBlank rfl rfl fun _ _ => rfl
  have hserialize : isIdentifier "serialize" := rfl
  have hsplit : Text.ofString "serialize = lambda x: str(x)" = "serialize" ++ " = "
      ++ ("lambda" ++ " " ++ ("x" ++ (": " ++ ("str" ++ ("(" ++ "x" ++ ")"))))) := by
    ext1
    simp
  rw [hsplit]
  exact .bound hserialize (.inr rfl) hlambda

/-- An enumeration refers to its class. -/
theorem uses_enumBlock {name : String} (hname : isIdentifier name) (description : String)
    (values : List String) :
    Uses Anything (enumBlock name description values) fun i => i = .enum := by
  have hlist :
      Silent Delimited ("[" ++ Text.joinWith ", " (values.map Text.quote) ++ "]" : String) := by
    have hvalues : ∀ value ∈ values.map Text.quote, Silent Delimited value :=
      List.forall_mem_map.mpr fun value _ => .quote value
    rw [Text.ofString_append, Text.ofString_append, Text.ofString_joinWith]
    exact (Text.silent_list (List.forall_mem_map.mpr hvalues)).mono fun _ _ => trivial
  have hargs : UsesEach Delimited
      [Text.ofString (Text.quote name),
        Text.ofString ("[" ++ Text.joinWith ", " (values.map Text.quote) ++ "]")] fun _ => False :=
    .silent delimited_nil
      (List.forall_mem_cons.mpr ⟨.quote name, List.forall_mem_singleton.mpr hlist⟩)
  have hkeywords := SilentKeyword.usesEach (Field.silent_descriptionKeyword (some description))
  have hcall : Uses Anything (enumCall name description values).render fun i => i = .enum := by
    rw [enumCall_eq]
    have hcallee : (Call.extend ⟨"Enum", [.source (Text.quote name),
      .source ↑("[" ++ Text.joinWith ", " (values.map Text.quote) ++ "]" : String)], []⟩
        (Field.descriptionKeyword (some description))).callee = Import.enum.text := rfl
    exact (Call.uses_render hcallee hargs hkeywords).congr (by simp)
  have hend : Silent Anything blockEnd := .punctuation rfl
  exact ((Uses.bound hname (.inr rfl) hcall).append hend fun _ _ => trivial).congr (by simp)

end Fragment

/-! ## Documents -/

namespace TypeBody

theorem avoidsLibrary_fields {body : TypeBody} (h : body.avoidsLibrary) :
    (∀ d ∈ body.outputFields, d.avoidsLibrary) ∧ ∀ d ∈ body.inputFields, d.avoidsLibrary := by
  cases body with
  | scalar | union | enum => simp [outputFields, inputFields]
  | object | interface | inputObject =>
    simpa [avoidsLibrary, outputFields, inputFields] using h

/-- The fields of a type are bound to names, and each refers to the names that come with it. -/
theorem isExact_fields {config : Config} {body : TypeBody} {emitted : EmittedBody}
    (hfields : body.hasFields) (hnames : body.wellNamed) (havoids : body.avoidsLibrary)
    (h : body.emit config = .ok emitted) :
    ∃ base inherits assignments, emitted = .fields base inherits assignments ∧
      ∀ a ∈ Assignment.unique assignments, isIdentifier a.name ∧ a.IsExact := by
  obtain ⟨base, inherits, assignments, rfl, hall⟩ := emit_fields hfields h
  have htraceable : Field.Traceable config body.fieldNames
      ((Assignment.unique assignments).map fun a => (a.name, a.call)) :=
    Field.traceable_unique (fun _ => rfl) (isIdentifier_of_mem_fieldNames hnames)
      (forall₂_stands hall)
  obtain ⟨houtputNames, hinputNames⟩ := wellNamed_fields hnames
  obtain ⟨houtput, hinput⟩ := avoidsLibrary_fields havoids
  refine ⟨base, inherits, assignments, rfl, fun a hmem => ⟨?_, ?_⟩⟩
  · refine (htraceable.usable a.name ?_).1
    simp only [keys, List.map_map, List.mem_map, Function.comp_apply]
    exact ⟨a, hmem, rfl⟩
  · rcases hall with ⟨-, hall⟩ | ⟨-, hall⟩
    · exact Field.isExact_fields houtputNames houtput hall a hmem
    · exact Field.isExact_inputs hinputNames hinput hall a hmem

/-- What a type becomes comes with the names that it refers to, whatever its kind. -/
theorem isExact_fragment {config : Config} {body : TypeBody} {emitted : EmittedBody}
    {name : String} (hname : isIdentifier name) (htaken : Import.isTaken name = false)
    (description : String) (hnames : body.wellNamed) (havoids : body.avoidsLibrary)
    (h : body.emit config = .ok emitted) : (emitted.fragment name description).IsExact := by
  -- Objects, interfaces and input types become classes in the same way.
  have hclass (hfields : body.hasFields) : (emitted.fragment name description).IsExact := by
    obtain ⟨base, inherits, assignments, rfl, hexact⟩ := isExact_fields hfields hnames havoids h
    exact Fragment.isExact_ofFields hname htaken base description hexact
  cases body with
  | object => exact hclass rfl
  | interface => exact hclass rfl
  | inputObject => exact hclass rfl
  | scalar =>
    cases h
    apply Fragment.isExact_of_uses
    have hbody : UsesEach LineEnd ["serialize = lambda x: str(x)"] fun _ => False :=
      .singleton lineEnd_nil (Fragment.silent_serialize.mono fun _ _ => trivial)
    exact (Fragment.uses_classBlock hname htaken .scalar description hbody).congr
      (by simp [EmittedBody.fragment])
  | union members =>
    cases h
    apply Fragment.isExact_of_uses
    have hmembers : ∀ member ∈ members, isIdentifier member ∧ Import.isTaken member = false := by
      intro member hmem
      exact ⟨List.all_eq_true.mp hnames member hmem,
        by simpa using List.all_eq_true.mp havoids member hmem⟩
    have hbody := UsesEach.silent lineEnd_nil (Fragment.silent_unionBody hmembers)
    exact (Fragment.uses_classBlock hname htaken .union description hbody).congr
      (by simp [EmittedBody.fragment])
  | enum values =>
    cases h
    apply Fragment.isExact_of_uses
    exact (Fragment.uses_enumBlock hname description _).congr (by simp [EmittedBody.fragment])

end TypeBody

/-- A definition comes with just the names that its code refers to. -/
theorem Definition.isExact {config : Config} {definition : Definition} {fragment : Fragment}
    (hnames : definition.wellNamed) (havoids : definition.avoidsLibrary)
    (h : definition.emit config = .ok fragment) : fragment.IsExact := by
  cases becomes_of_emit h with
  | schema | directive | ignored => exact Fragment.isExact_empty rfl rfl
  | kept _ hbody =>
    simp only [wellNamed, TypeDef.wellNamed, Bool.and_eq_true] at hnames
    simp only [avoidsLibrary, TypeDef.avoidsLibrary, Bool.and_eq_true, Bool.not_eq_true'] at havoids
    exact TypeBody.isExact_fragment hnames.1 havoids.1 _ hnames.2 havoids.2 hbody

/-- A name of the class library is collected for a document if and only if the code of the document
    refers to it, unless a type of the document is called like it. A document has only identifiers
    for names if it is read from a text (`wellNamed_of_parse`), and so has its canonical form
    (`wellNamed_of_ofText`). -/
theorem Document.emit_imports {config : Config} {document : Document}
    (hnames : document.wellNamed) (havoids : document.avoidsLibrary) {texts : List Text}
    {after : Record} (h : Document.emit config {} document = (.ok texts, after)) (i : Import) :
    i ∈ after.imports ↔ ∃ text ∈ texts, text ≠ "" ∧ i.text ∈ Text.references text := by
  obtain ⟨fragments, hall, rfl, rfl⟩ := emit_eq_ok h
  have hexact : ∀ fragment ∈ fragments, fragment.IsExact :=
    Success.forall_of_forall₂ hall fun definition hmem fragment hemit =>
      definition.isExact (List.all_eq_true.mp hnames definition hmem)
        (List.all_eq_true.mp havoids definition hmem) hemit
  change i ∈ [] ++ fragments.flatMap Fragment.imports ↔ _
  simp only [List.nil_append, List.mem_flatMap, List.mem_map, exists_exists_and_eq_and]
  refine exists_congr fun fragment => and_congr_right fun hmem => ?_
  rw [hexact fragment hmem i]
  -- Nothing is referred to where there is no text.
  refine (and_iff_right_of_imp fun hmentions => ?_).symm
  rintro hempty
  rw [hempty] at hmentions
  exact Text.not_mentions_nil i hmentions

/-- A document whose strings, bound names and hidden parts are called like names of the library. -/
def namesakes : Document :=
  [.directive ⟨none, "auth", [⟨none, "level", .list (.named "Float"), none, []⟩], false,
      ["OBJECT"]⟩,
    .type ⟨some "\"Enum\" of Float", "Query", [], .object [] [⟨none, "List",
      [⟨none, "name", .nonNull (.named "Boolean"), some (.enum "Int"), []⟩], .named "Query", []⟩]⟩,
    .type ⟨none, "Hidden", [], .enum [⟨none, "RED", []⟩]⟩,
    .type ⟨none, "Any", [], .union ["Query"]⟩]

/-- The settings that hide a type of that document and leave its names as they are. -/
def namesakesConfig : Config :=
  { ignoreTypes := some (.array [.string "Hidden"]), convertFieldNames := .bool false }

/-- Strings, bound names and hidden parts that are called like names of the library. -/
theorem Document.emit_imports_namesakes :
    ∃ texts after, Document.emit namesakesConfig {} namesakes = (.ok texts, after) ∧
      after.imports = [.field, .argument, .field, .nonNull, .boolean, .objectType, .union] ∧
      ∀ i, i ∈ after.imports ↔ ∃ text ∈ texts, text ≠ "" ∧ i.text ∈ Text.references text := by
  have hok : (Document.emit namesakesConfig {} namesakes).1.isOk := by decide +kernel
  have himports : (Document.emit namesakesConfig {} namesakes).2.imports =
      [.field, .argument, .field, .nonNull, .boolean, .objectType, .union] := by decide +kernel
  cases h : Document.emit namesakesConfig {} namesakes with
  | mk result after =>
    rw [h] at hok himports
    cases result with
    | error e => simp [Except.isOk, Except.toBool] at hok
    | ok texts => exact ⟨texts, after, rfl, himports, emit_imports (by decide) (by decide) h⟩

end SchemaClasses
