import SchemaClasses.Proofs.ClosedLines
import SchemaClasses.Proofs.References

/-!
# References of fields

What the calls of fields refer to in the class library: the class of the call, the wrappers of types
and the built-in scalars at their bottom. Literals, printed values and keywords refer to nothing. A
field comes with a list of names that is put together apart from its call, and both say the same.
-/

namespace SchemaClasses

open Keyed (keys)
open Text (Anything Delimited Mentions Silent Unbinding Unbound Uses UsesEach delimited_cons
  delimited_nil isIdentifier)

/-! ## Names of the class library -/

namespace Import

/-- Whether some name of the class library is written like this. -/
def isTaken (name : String) : Bool :=
  all.any (·.text = name)

theorem text_injective {first second : Import} (h : first.text = second.text) : first = second := by
  have hfind (i : Import) : all.find? (·.text = i.text) = some i := by
    cases i <;> rfl
  have hfirst := hfind first
  rw [h, hfind second, Option.some.injEq] at hfirst
  exact hfirst.symm

theorem text_inj {first second : Import} : first.text = second.text ↔ first = second :=
  ⟨text_injective, congrArg text⟩

/-- The name of a class refers to that class. -/
theorem uses_text (i : Import) : Uses Unbound i.text fun j => j = i := by
  have hname : isIdentifier i.text := by
    cases i <;> rfl
  exact (Uses.name hname).congr fun j => text_inj

theorem isTaken_eq_false {name : String} :
    isTaken name = false ↔ ∀ i : Import, i.text ≠ name := by
  simp [isTaken, mem_all]

theorem text_of_ofScalar? {name : String} {i : Import} (h : ofScalar? name = some i) :
    i.text = name := by
  simpa using List.find?_some h

/-- Only a built-in scalar has the name of a type that avoids all other names. -/
theorem text_eq_iff {name : String} (h : (!isTaken name || (ofScalar? name).isSome) = true)
    (i : Import) : i.text = name ↔ ofScalar? name = some i := by
  constructor
  · intro htext
    cases hscalar : ofScalar? name with
    | none =>
      have htaken : isTaken name = false := by simpa [hscalar] using h
      exact absurd htext (isTaken_eq_false.mp htaken i)
    | some j =>
      rw [text_injective (htext.trans (text_of_ofScalar? hscalar).symm)]
  · exact text_of_ofScalar?

end Import

/-! ## Documents that keep to their own names -/

/-- Whether the type at the bottom is not called like a class of the library, but for the built-in
    scalars. -/
def TypeRef.avoidsLibrary (t : TypeRef) : Bool :=
  !Import.isTaken t.baseName || (Import.ofScalar? t.baseName).isSome

def InputValueDef.avoidsLibrary (d : InputValueDef) : Bool :=
  d.type.avoidsLibrary

def FieldDef.avoidsLibrary (d : FieldDef) : Bool :=
  d.type.avoidsLibrary && d.arguments.all (·.avoidsLibrary)

def TypeBody.avoidsLibrary : TypeBody → Bool
  | .object _ fields | .interface _ fields => fields.all (·.avoidsLibrary)
  | .union members => members.all (!Import.isTaken ·)
  | .inputObject fields => fields.all (·.avoidsLibrary)
  | .scalar | .enum _ => true

def TypeDef.avoidsLibrary (d : TypeDef) : Bool :=
  !Import.isTaken d.name && d.body.avoidsLibrary

def Definition.avoidsLibrary : Definition → Bool
  | .type d => d.avoidsLibrary
  | _ => true

/-- Whether no type and no member of a union is called like a name of the class library, and no type
    of a field or an argument but for the built-in scalars. -/
def Document.avoidsLibrary (document : Document) : Bool :=
  document.all (·.avoidsLibrary)

/-! ## Literals and printed values -/

/-- A name that the library does not have refers to nothing in it. -/
theorem Text.silent_identifier {name : String} (hname : isIdentifier name)
    (htaken : Import.isTaken name = false) : Silent Unbound name :=
  (Uses.name hname).congr fun i => iff_false_intro (Import.isTaken_eq_false.mp htaken i)

namespace Decimal

theorem silent_of_numeralChars {text : String} (h : ∀ c ∈ text.toList, isNumeralChar c) :
    Silent Unbound text := by
  refine Uses.ofChars rfl (fun i => ?_) h
  cases i <;> rfl

theorem Numeral.silent_text (n : Numeral) : Silent Unbound n.text :=
  silent_of_numeralChars n.isNumeralChar_text

/-- A double refers to nothing if the names of infinity and of no number do not. -/
theorem Binary64.silent_textWith {names : String × String} (hinfinity : Silent Unbound names.1)
    (hnan : Silent Unbound names.2) (x : Binary64) : Silent Unbound (x.textWith names) := by
  cases x with
  | finite negative significand shift =>
    simp only [textWith]
    split
    · next n _ =>
      apply silent_of_numeralChars
      rw [String.toList_append, List.forall_mem_append]
      exact ⟨(Numeral.int n).isNumeralChar_text, List.all_eq_true.mp rfl⟩
    · next n _ => exact (Numeral.float n).silent_text
  | infinity negative =>
    have hsign : Silent Anything (if negative then "-" else "" : String) := by
      cases negative <;> exact .punctuation rfl
    rw [textWith, Text.ofString_append]
    exact (hsign.append hinfinity fun _ _ => trivial).congr (by simp)
  | nan => exact hnan

end Decimal

namespace Text

/-- A word of the generated language that no class of the library is called. -/
theorem silent_word {word : String} (hword : isIdentifier word)
    (htaken : Import.isTaken word = false) : Silent Delimited word :=
  (silent_identifier hword htaken).mono fun _ => Delimited.unbound

theorem silent_list {texts : List Text} (h : ∀ text ∈ texts, Silent Delimited text) :
    Silent Anything ("[" ++ Text.join ", " texts ++ "]") :=
  (UsesEach.silent delimited_nil h).commas.bracketed .square

theorem silent_braces {texts : List Text} (h : ∀ text ∈ texts, Silent Delimited text) :
    Silent Anything ("\x7b" ++ Text.join ", " texts ++ "\x7d") :=
  (UsesEach.silent delimited_nil h).commas.bracketed .curly

/-- Keys are strings, so a dictionary refers to what its values refer to. -/
theorem silent_dict (entries : List (Text × Text))
    (h : ∀ entry ∈ entries, Silent Delimited entry.2) :
    Silent Anything ("\x7b" ++ Text.join ", "
      (entries.map fun entry => entry.1.quoted ++ ": " ++ entry.2) ++ "\x7d") := by
  refine silent_braces (List.forall_mem_map.mpr ?_)
  intro entry hmem
  exact (h entry hmem).entry entry.1

end Text

/-- Literals refer to nothing. -/
theorem Value.silent_emit {v : Value} {text : String} (h : v.emit = .ok text) :
    Silent Delimited text := by
  refine emit_induction (P := fun text => Silent Delimited text) (fun n => ?_) Uses.quote ?_ ?_ ?_ h
  · exact n.silent_text.mono fun _ => Delimited.unbound
  · simp only [List.forall_mem_cons, List.not_mem_nil, false_implies, implies_true, and_true]
    exact ⟨Text.silent_word rfl rfl, Text.silent_word rfl rfl, Text.silent_word rfl rfl⟩
  · intro texts htexts
    have hlist := Text.silent_list (List.forall_mem_map.mpr htexts)
    rw [Text.ofString_append, Text.ofString_append, Text.ofString_joinWith]
    exact hlist.mono fun _ _ => trivial
  · intro entries hentries
    have hentry : ∀ entry ∈ entries, Silent Delimited (fieldText entry.1 entry.2) := by
      intro entry hmem
      unfold fieldText
      rw [Text.ofString_append, Text.ofString_append, ← Text.quoted_ofString]
      exact (hentries entry hmem).entry entry.1
    rw [Text.ofString_append, Text.ofString_append, Text.ofString_joinWith, List.map_map]
    have hdict := Text.silent_braces (List.forall_mem_map.mpr hentry)
    exact hdict.mono fun _ _ => trivial

namespace Json

/-- Printed values refer to nothing. -/
theorem silent_print (j : Json Text) : Silent Delimited j.print := by
  induction j using Json.induction with
  | null => exact Text.silent_word rfl rfl
  | bool b => cases b <;> exact Text.silent_word rfl rfl
  | int n =>
    rw [print, Decimal.toString_eq_text]
    exact (Decimal.Numeral.silent_text (.int _)).mono fun _ => Delimited.unbound
  | float x =>
    refine (x.silent_textWith ?_ ?_).mono fun _ => Delimited.unbound
    · exact Text.silent_identifier rfl rfl
    · exact Text.silent_identifier rfl rfl
  | string text => exact Uses.quoted text
  | array items ih =>
    rw [print, printItems_eq]
    exact (Text.silent_list (List.forall_mem_map.mpr ih)).mono fun _ _ => trivial
  | object members ih =>
    rw [print, printMembers_eq]
    have hentries := Text.silent_dict (members.map fun entry => (entry.1, entry.2.print))
      (List.forall_mem_map.mpr ih)
    rw [List.map_map] at hentries
    exact hentries.mono fun _ _ => trivial

end Json

/-! ## Calls -/

namespace Text.Uses

variable {before : List Char → Prop} {word : String} {text : Text} {uses : Import → Prop}
  (hword : isIdentifier word) (htaken : Import.isTaken word = false) (h : Uses before text uses)

include hword htaken h

/-- A word right before a text that ends it. -/
theorem afterWord (hunbound : ∀ rest, before rest → Unbound (text.chars ++ rest)) :
    Uses before (word ++ text) uses :=
  ((silent_identifier hword htaken).append h hunbound).congr (by simp)

/-- A word and a blank before a text. -/
theorem afterBlank (hunbinding : ∀ rest, before rest → Unbinding (text.chars ++ rest)) :
    Uses before (word ++ " " ++ text) uses := by
  refine (spaced hword h hunbinding).congr fun i => ?_
  exact or_iff_right (Import.isTaken_eq_false.mp htaken i)

omit hword htaken

/-- A text behind a lambda without parameters. -/
theorem deferred : Uses before ("lambda: " ++ text) uses := by
  have hcolon : Silent Anything ": " := .punctuation rfl
  have hlambda : Silent Anything ("lambda" ++ ": ") :=
    hcolon.afterWord rfl rfl fun _ _ => (delimited_cons rfl _).unbound
  exact (hlambda.append h fun _ _ => trivial).congr (by simp)

end Text.Uses

/-- A keyword as it is written in a call. -/
def Expr.keywordText (keyword : String × Expr) : Text :=
  keyword.1 ++ "=" ++ keyword.2.render

/-- A call refers to its callee and to what its parts refer to. -/
theorem Call.uses_render {call : Call} {callee : Import} (hcallee : call.callee = callee.text)
    {uses others : Import → Prop} (hargs : UsesEach Delimited (call.args.map Expr.render) uses)
    (hkeywords : UsesEach Delimited (call.keywords.map Expr.keywordText) others) :
    Uses Anything call.render fun i => i = callee ∨ uses i ∨ others i := by
  have hinner : Uses Delimited call.inner fun i => uses i ∨ others i := by
    rw [inner, Expr.renderArgs_eq, Expr.renderKeywords_eq]
    exact (hargs.append hkeywords).commas
  have hsplit : call.render = callee.text ++ ("(" ++ call.inner ++ ")") := by
    simp only [render_eq, hcallee, Text.append_assoc]
  rw [hsplit]
  refine callee.uses_text.append (hinner.bracketed .round) fun rest _ => ?_
  rw [Text.append_assoc, Text.chars_append, List.append_assoc]
  exact (delimited_cons rfl _).unbound

/-! ## Types -/

namespace TypeRef

/-- The type needs this name of the class library: some wrapper is called so, or the type at the
    bottom is the built-in scalar of this name. -/
def Needs (t : TypeRef) (i : Import) : Prop :=
  i ∈ t.wrappers.map Wrapper.toImport ∨ Import.ofScalar? t.baseName = some i

/-- The names recorded with a field are those that it needs. -/
theorem mem_imports {t : TypeRef} {i : Import} : i ∈ t.imports ↔ i = .field ∨ t.Needs i := by
  simp [imports, Needs]

/-- A wrapped expression refers to the wrapper as well. -/
theorem Wrapper.uses_wrap (w : Wrapper) {inner : String} {uses : Import → Prop}
    (h : Uses Delimited inner uses) :
    Uses Anything (w.wrap inner) fun i => i = w.toImport ∨ uses i := by
  have hsplit : w.wrap inner = w.toImport.text ++ ("(" ++ inner ++ ")" : Text) := by
    simp [wrap, Text.append_assoc]
  rw [hsplit]
  exact w.toImport.uses_text.append (h.bracketed .round) fun rest _ => (delimited_cons rfl _).unbound

/-- A type refers to its wrappers and to what is at the bottom, if that is a built-in scalar. -/
theorem uses_emit {t : TypeRef} {text : String} (hname : t.wellNamed) (havoids : t.avoidsLibrary)
    (h : t.emit = .ok text) : Uses Delimited text t.Needs := by
  -- Each wrapper adds its own import to those of the type inside.
  induction t generalizing text with
  | named name =>
    simp only [emit, Except.ok.injEq] at h
    subst h
    refine ((Uses.name hname).mono fun _ => Delimited.unbound).congr fun i => ?_
    simp only [Needs, wrappers, baseName, List.map_nil, List.not_mem_nil, false_or]
    exact Import.text_eq_iff havoids i
  | list item ih =>
    simp only [emit, Success.map_eq_ok] at h
    obtain ⟨inner, hinner, rfl⟩ := h
    have hwrap := Wrapper.list.uses_wrap (ih hname havoids hinner)
    exact (hwrap.mono fun _ _ => trivial).congr (by simp [Needs, wrappers, baseName, or_assoc])
  | nonNull item ih =>
    simp only [emit, Success.map_eq_ok] at h
    obtain ⟨inner, hinner, rfl⟩ := h
    have hwrap := Wrapper.nonNull.uses_wrap (ih hname havoids hinner)
    exact (hwrap.mono fun _ _ => trivial).congr (by simp [Needs, wrappers, baseName, or_assoc])
  | foreign kind => simp [emit] at h

end TypeRef

/-- The field needs this name of the class library: it is the class of fields, or the type or some
    argument of the field needs it. -/
def FieldDef.Needs (d : FieldDef) (i : Import) : Prop :=
  i = .field ∨ d.type.Needs i ∨ ∃ argument ∈ d.arguments, i = .argument ∨ argument.type.Needs i

/-! ## Input values -/

/-- The keyword is written with a name that can be bound, and refers to nothing. -/
def SilentKeyword (keyword : String × Expr) : Prop :=
  isIdentifier keyword.1 ∧ Silent Delimited keyword.2.render

theorem SilentKeyword.usesEach {keywords : List (String × Expr)}
    (h : ∀ keyword ∈ keywords, SilentKeyword keyword) :
    UsesEach Delimited (keywords.map Expr.keywordText) fun _ => False := by
  apply UsesEach.silent delimited_nil
  rw [List.forall_mem_map]
  intro keyword hmem
  exact .bound (h keyword hmem).1 (.inl rfl) (h keyword hmem).2

namespace Field

theorem silent_descriptionKeyword (description : Option String) :
    ∀ keyword ∈ descriptionKeyword description, SilentKeyword keyword := by
  have hkey : isIdentifier "description" := rfl
  unfold descriptionKeyword
  split
  case isTrue => simp
  case isFalse => exact List.forall_mem_singleton.mpr ⟨hkey, .quote _⟩

theorem silent_textKeyword {key : String} (hkey : isIdentifier key) {text : Option Text}
    (htext : ∀ t, text = some t → Silent Delimited t) :
    ∀ keyword ∈ textKeyword key text, SilentKeyword keyword := by
  cases text with
  | none => simp [textKeyword]
  | some t => exact List.forall_mem_singleton.mpr ⟨hkey, htext t rfl⟩

theorem silent_nameKeyword (schemaName converted name : String) :
    ∀ keyword ∈ Assignment.nameKeyword schemaName converted name, SilentKeyword keyword := by
  have hkey : isIdentifier "name" := rfl
  unfold Assignment.nameKeyword
  split
  case isTrue => simp
  case isFalse => exact List.forall_mem_singleton.mpr ⟨hkey, .quote _⟩

/-- The call for a type refers to its callee, to the type, and to what its keywords refer to. -/
theorem uses_typeCall (callee : Import) {type : String} {keywords : List (String × Expr)}
    {uses others : Import → Prop} (htype : Uses Delimited type uses)
    (hkeywords : UsesEach Delimited (keywords.map Expr.keywordText) others) :
    Uses Anything ((typeCall callee.text type).extend keywords).render
      fun i => i = callee ∨ uses i ∨ others i := by
  have hcallee : ((typeCall callee.text type).extend keywords).callee = callee.text := rfl
  exact Call.uses_render hcallee (.singleton delimited_nil htype.deferred) hkeywords

/-- An input value refers to its callee and to its type. -/
theorem IsInputCall.uses {config : Config} (callee : Import) {d : InputValueDef} {name : String}
    {call : Call} (h : IsInputCall config callee.text d name call) (hname : d.wellNamed)
    (havoids : d.avoidsLibrary) :
    Uses Anything call.render fun i => i = callee ∨ d.type.Needs i := by
  obtain ⟨type, default, htype, hdefault, rfl⟩ := h
  simp only [InputValueDef.wellNamed, Bool.and_eq_true] at hname
  have hvalue : ∀ t, default.map Text.ofString = some t → Silent Delimited t := by
    intro t ht
    obtain ⟨text, rfl, rfl⟩ := Option.map_eq_some_iff.mp ht
    obtain ⟨value, -, hvalue⟩ := Success.option_mapM_eq_ok.mp hdefault
    exact Value.silent_emit hvalue
  have hkeywords : ∀ keyword ∈ descriptionKeyword d.description
      ++ textKeyword "default_value" (default.map Text.ofString)
      ++ Assignment.nameKeyword d.name (convertedName config d.name) name,
      SilentKeyword keyword := by
    simp only [List.forall_mem_append]
    exact ⟨⟨silent_descriptionKeyword _, silent_textKeyword rfl hvalue⟩, silent_nameKeyword _ _ _⟩
  have htype := TypeRef.uses_emit hname.2 havoids htype
  exact (uses_typeCall callee htype (SilentKeyword.usesEach hkeywords)).congr (by simp)

/-! ## Fields -/

section Arguments

variable {arguments : List (String × Call)} {used : String × Call → Import → Prop}
  (h : ∀ argument ∈ arguments,
    isIdentifier argument.1 ∧ Uses Anything argument.2.render (used argument))

include h

/-- Arguments that are passed as keywords are referred to in their calls. -/
theorem uses_plainKeywords :
    UsesEach Delimited ((plainKeywords arguments).map Expr.keywordText)
      fun i => ∃ argument ∈ arguments.filter (fun argument => !isReserved argument.1),
        used argument i := by
  rw [plainKeywords, List.map_map]
  apply UsesEach.map delimited_nil
  intro argument hmem
  obtain ⟨hname, hcall⟩ := h argument (List.mem_of_mem_filter hmem)
  exact .bound hname (.inl rfl) (hcall.mono fun _ _ => trivial)

omit h in
/-- A dictionary refers to what the calls in it refer to. -/
theorem uses_argumentDict
    (h : ∀ argument ∈ arguments, Uses Anything argument.2.render (used argument)) :
    Uses Anything (argumentDict arguments) fun i => ∃ argument ∈ arguments, used argument i := by
  have hentries : UsesEach Delimited
      (arguments.map fun argument => Text.quote argument.1 ++ ": " ++ argument.2.render : List Text)
      fun i => ∃ argument ∈ arguments, used argument i := by
    apply UsesEach.map delimited_nil
    intro argument hmem
    rw [← Text.quoted_ofString]
    exact ((h argument hmem).mono fun _ _ => trivial).entry argument.1
  exact hentries.commas.bracketed .curly

/-- Arguments in the dictionary are referred to in their calls as well. -/
theorem uses_dictKeyword :
    UsesEach Delimited ((dictKeyword arguments).map Expr.keywordText)
      fun i => ∃ argument ∈ arguments.filter (fun argument => isReserved argument.1),
        used argument i := by
  simp only [dictKeyword]
  split
  case isTrue hnil =>
    rw [List.isEmpty_iff] at hnil
    rw [hnil]
    exact (UsesEach.silent delimited_nil (by simp)).congr (by simp)
  case isFalse =>
    have hkey : isIdentifier "args" := rfl
    have hcalls : ∀ argument ∈ arguments.filter fun argument => isReserved argument.1,
        Uses Anything argument.2.render (used argument) :=
      fun argument hmem => (h argument (List.mem_of_mem_filter hmem)).2
    refine .singleton delimited_nil (.bound hkey (.inl rfl) ?_)
    exact (uses_argumentDict hcalls).mono fun _ _ => trivial

/-- Whichever way an argument is passed, the call refers to what it refers to. -/
theorem uses_arguments :
    UsesEach Delimited ((plainKeywords arguments ++ dictKeyword arguments).map Expr.keywordText)
      fun i => ∃ argument ∈ arguments, used argument i := by
  rw [List.map_append]
  refine ((uses_plainKeywords h).append (uses_dictKeyword h)).congr fun i => ?_
  simp only [List.mem_filter, Bool.not_eq_true', ← exists_or]
  refine exists_congr fun argument => ?_
  cases isReserved argument.1 <;> simp

end Arguments

/-- Reasons are texts, so they refer to nothing. -/
theorem silent_reasonText {config : Config} {d : Directive} {text : Text}
    (h : reasonText config d = .ok text) : Silent Delimited text := by
  unfold reasonText at h
  split at h
  · obtain ⟨source, hsource, rfl⟩ := Success.map_eq_ok.mp h
    exact Value.silent_emit (Success.mapError_eq_ok.mp hsource)
  · rw [Except.ok.injEq] at h
    exact h ▸ Json.silent_print _

theorem uses_passed {config : Config} {defs : List InputValueDef}
    {arguments : List (String × Call)} (hnames : ∀ argument ∈ defs, argument.wellNamed)
    (havoids : ∀ argument ∈ defs, argument.avoidsLibrary)
    (h : List.Forall₂ (fun d argument => IsInputCall config "Argument" d argument.1 argument.2) defs
      arguments) :
    (∀ argument ∈ arguments,
        Uses Anything argument.2.render (Mentions argument.2.render.chars)) ∧
      ∀ i, (∃ argument ∈ arguments, Mentions argument.2.render.chars i) ↔
        ∃ argument ∈ defs, i = .argument ∨ argument.type.Needs i := by
  have huses : ∀ d ∈ defs, ∀ argument : String × Call,
      IsInputCall config "Argument" d argument.1 argument.2 →
        Uses Anything argument.2.render fun i => i = .argument ∨ d.type.Needs i :=
    fun d hmem _ hcall => IsInputCall.uses .argument hcall (hnames d hmem) (havoids d hmem)
  constructor
  · refine Success.forall_of_forall₂ h fun d hmem argument hcall => ?_
    have hone := huses d hmem argument hcall
    exact hone.congr fun i => (hone.mentions trivial i).symm
  · intro i
    refine (Success.exists_iff_of_forall₂ h fun d hmem argument hcall => ?_).symm
    exact ((huses d hmem argument hcall).mentions trivial i).symm

/-- A field refers to its class, to its type and to its arguments and their types. -/
theorem IsFieldCall.uses {config : Config} {d : FieldDef} {arguments : List (String × Call)}
    {name : String} {call : Call} (h : IsFieldCall config d arguments name call)
    (hnames : d.wellNamed) (havoids : d.avoidsLibrary) : Uses Anything call.render d.Needs := by
  obtain ⟨type, reason, htype, hkeys, hall, hreason, rfl⟩ := h
  simp only [FieldDef.wellNamed, Bool.and_eq_true, List.all_eq_true] at hnames
  simp only [FieldDef.avoidsLibrary, Bool.and_eq_true, List.all_eq_true] at havoids
  have htext : ∀ t, reason = some t → Silent Delimited t := by
    rintro t rfl
    obtain ⟨directive, -, hdirective⟩ := Success.option_mapM_eq_ok.mp hreason
    exact silent_reasonText hdirective
  obtain ⟨heach, hmentions⟩ := uses_passed hnames.2 havoids.2 hall
  have hpassed : ∀ argument ∈ arguments, isIdentifier argument.1 ∧
      Uses Anything argument.2.render (Mentions argument.2.render.chars) := by
    intro argument hmem
    have hname := isIdentifier_of_mem_keys hnames.2 hkeys argument.1 (List.mem_map_of_mem hmem)
    exact ⟨hname, heach argument hmem⟩
  have hkeyword : ∀ keyword ∈ textKeyword "deprecation_reason" reason, SilentKeyword keyword :=
    silent_textKeyword rfl htext
  -- Only the type and the arguments refer to something, whatever the order of the keywords.
  have hfront := SilentKeyword.usesEach (silent_descriptionKeyword d.description)
  have hback := (SilentKeyword.usesEach hkeyword).append (SilentKeyword.usesEach
    (silent_nameKeyword d.name (convertedName config d.name) name))
  have hkeywords := (hfront.append (uses_arguments hpassed)).append hback
  simp only [← List.map_append, ← List.append_assoc] at hkeywords
  refine (uses_typeCall .field (TypeRef.uses_emit hnames.1.2 havoids.1 htype) hkeywords).congr
    fun i => ?_
  simp only [FieldDef.Needs, hmentions i, false_or, or_false]

/-! ## Assignments -/

theorem assign_imports (config : Config) (schemaName : String) (call : Call)
    (imports : List Import) : (assign config schemaName call imports).imports = imports := by
  rw [assign_eq]
  split <;> rfl

theorem ofInputValue_imports {config : Config} {d : InputValueDef} {a : Assignment}
    (h : ofInputValue config d = .ok a) : a.imports = d.type.imports := by
  obtain ⟨_, _, -, -, rfl⟩ := ofInputValue_eq_ok h
  exact assign_imports ..

/-- A field comes with the names of its type and with those of its arguments. -/
theorem mem_importsOf {type : TypeRef} {arguments : List Assignment} {i : Import} :
    i ∈ importsOf type arguments ↔
      (i = .field ∨ type.Needs i) ∨ ∃ a ∈ arguments, i = .argument ∨ i ∈ a.imports := by
  rw [importsOf, List.mem_append, TypeRef.mem_imports]
  apply or_congr_right
  cases arguments with
  | nil => simp
  | cons a rest =>
    rw [if_neg (by simp), List.mem_cons, List.mem_flatMap]
    constructor
    · rintro (rfl | ⟨b, hmem, hi⟩)
      · exact ⟨a, List.mem_cons_self, .inl rfl⟩
      · exact ⟨b, hmem, .inr hi⟩
    · rintro ⟨b, hmem, rfl | hi⟩
      · exact .inl rfl
      · exact .inr ⟨b, hmem, hi⟩

/-- A field comes with the names that it needs. -/
theorem mem_imports_of_ofField {config : Config} {d : FieldDef} {a : Assignment}
    (h : ofField config d = .ok a) (i : Import) : i ∈ a.imports ↔ d.Needs i := by
  simp only [ofField, Success.bind_eq_ok, Success.pure_eq_ok] at h
  obtain ⟨arguments, harguments, _, -, _, -, rfl⟩ := h
  have hall : (∃ argument ∈ d.arguments, i = .argument ∨ i = .field ∨ argument.type.Needs i) ↔
      ∃ a ∈ arguments, i = .argument ∨ i ∈ a.imports := by
    apply Success.exists_iff_of_forall₂ (Success.mapM_eq_ok.mp harguments)
    intro argument _ a ha
    rw [ofInputValue_imports ha, TypeRef.mem_imports]
  rw [assign_imports, mem_importsOf, ← hall, FieldDef.Needs]
  -- What arguments need of their own, the field needs anyway.
  by_cases hfield : i = .field
  · simp [hfield]
  · simp [hfield]

end Field

end SchemaClasses
