import SchemaClasses.Proofs.Brackets
import SchemaClasses.Proofs.ClassNames
import SchemaClasses.Proofs.Literals.Values
import SchemaClasses.Proofs.Runs
import SchemaClasses.Proofs.WellNamed

/-!
# Closed lines

Each line with a call is one closed line: text of the schema occurs in strings only, so it opens and
closes nothing. The calls are taken apart here just as they are put together: literals, types,
arguments, fields, and the lines of classes at last.
-/

namespace SchemaClasses

open Keyed (keys)
open Scan (Closed ClosedLine isPlainText)

/-! ## Names and numbers -/

theorem Text.isPlainText_of_isIdentifier {name : String} (h : Text.isIdentifier name) :
    isPlainText name := by
  refine List.all_eq_true.mpr fun c hc => ?_
  exact Scan.isPlain_of_class (Text.isIdentifierChars.nameChars h c hc) (by decide)

namespace Decimal

def isNumeralChar (c : Char) : Bool :=
  c.isDigit || ['-', '+', '.', 'e', 'E'].contains c

theorem isNumeralChar_of_isDigit {c : Char} (h : c.isDigit) : isNumeralChar c := by
  rw [isNumeralChar, h, Bool.true_or]

theorem ExponentPart.isNumeralChar_chars (e : ExponentPart) : ∀ c ∈ e.chars, isNumeralChar c := by
  rw [ExponentPart.chars_eq]
  simp only [List.forall_mem_cons, List.forall_mem_append, List.forall_mem_map]
  refine ⟨?_, ?_, fun d _ => isNumeralChar_of_isDigit (isDigit_char d)⟩
  · cases e.capital <;> decide
  · rcases e.sign with _ | _ | _ <;> exact List.all_eq_true.mp rfl

theorem FloatNumeral.isNumeralChar_chars (n : FloatNumeral) : ∀ c ∈ n.chars, isNumeralChar c := by
  rw [FloatNumeral.chars_eq]
  simp only [List.forall_mem_append]
  refine ⟨⟨⟨?_, fun c hc => ?_⟩, ?_⟩, ?_⟩
  · cases n.negative <;> exact List.all_eq_true.mp rfl
  · exact isNumeralChar_of_isDigit ((isDigits_toDigits n.whole).2 c hc)
  · unfold fractionChars
    split
    case isTrue => simp
    case isFalse =>
      simp only [List.forall_mem_cons, List.forall_mem_map]
      exact ⟨by decide, fun d _ => isNumeralChar_of_isDigit (isDigit_char d)⟩
  · cases n.exponent with
    | none => simp [exponentChars]
    | some e => exact e.isNumeralChar_chars

theorem Numeral.isNumeralChar_text (n : Numeral) : ∀ c ∈ n.text.toList, isNumeralChar c := by
  rw [text_eq_parts, FloatNumeral.text, String.toList_ofList]
  exact n.parts.isNumeralChar_chars

/-- Numbers have no brackets and no quotes. -/
theorem Numeral.closed_text (n : Numeral) : Closed n.text := by
  refine .plain (List.all_eq_true.mpr fun c hc => ?_)
  exact Scan.isPlain_of_class (n.isNumeralChar_text c hc) (by decide)

/-- A double is closed if the names of infinity and of no number are. -/
theorem Binary64.closed_textWith {names : String × String} (hinfinity : Closed names.1)
    (hnan : Closed names.2) (x : Binary64) : Closed (x.textWith names) := by
  cases x with
  | finite negative significand shift =>
    simp only [textWith]
    split
    · next n _ => exact (Numeral.int n).closed_text.ofString_append (.plain rfl)
    · next n _ => exact (Numeral.float n).closed_text
  | infinity negative =>
    have hsign : Closed (if negative then "-" else "" : String) := by
      cases negative <;> exact .plain rfl
    exact hsign.ofString_append hinfinity
  | nan => exact hnan

end Decimal

/-! ## Literals and printed values -/

theorem Text.closed_list {texts : List Text} (h : ∀ text ∈ texts, Closed text) :
    Closed ("[" ++ Text.join ", " texts ++ "]") :=
  (Closed.join (.plain rfl) h).bracketed .square

theorem Text.closed_dict (entries : List (Text × Text)) (h : ∀ entry ∈ entries, Closed entry.2) :
    Closed ("\x7b" ++ Text.join ", "
      (entries.map fun entry => entry.1.quoted ++ ": " ++ entry.2) ++ "\x7d") := by
  refine (Closed.join (.plain rfl) ?_).bracketed .curly
  rw [List.forall_mem_map]
  intro entry hmem
  exact ((Closed.quoted entry.1).append (.plain rfl)).append (h entry hmem)

/-- The source text of a literal is closed, whatever its strings hold. -/
theorem Value.closed_emit {v : Value} {text : String} (h : v.emit = .ok text) : Closed text := by
  refine emit_induction (P := fun text => Closed text) Decimal.Numeral.closed_text Closed.quote
    ?_ ?_ ?_ h
  · simp only [List.forall_mem_cons, List.not_mem_nil, false_implies, implies_true, and_true]
    exact ⟨.plain rfl, .plain rfl, .plain rfl⟩
  · intro texts htexts
    rw [Text.ofString_append, Text.ofString_append]
    exact (Closed.joinWith (.plain rfl) htexts).bracketed .square
  · intro entries hentries
    rw [Text.ofString_append, Text.ofString_append]
    refine (Closed.joinWith (.plain rfl) (List.forall_mem_map.mpr ?_)).bracketed .curly
    intro entry hmem
    exact ((Closed.quote _).ofString_append (.plain rfl)).ofString_append (hentries entry hmem)

/-- A JSON value as text is closed, whatever its strings hold. -/
theorem Json.closed_print (j : Json Text) : Closed j.print := by
  induction j using Json.induction with
  | null => exact .plain rfl
  | bool b => cases b <;> exact .plain rfl
  | int n =>
    rw [print, Decimal.toString_eq_text]
    exact (Decimal.Numeral.int _).closed_text
  | float x => exact x.closed_textWith (.plain rfl) (.plain rfl)
  | string text => exact .quoted text
  | array items ih =>
    rw [print, printItems_eq]
    exact Text.closed_list (List.forall_mem_map.mpr ih)
  | object members ih =>
    rw [print, printMembers_eq]
    have hentries := Text.closed_dict (members.map fun entry => (entry.1, entry.2.print))
      (List.forall_mem_map.mpr ih)
    rwa [List.map_map] at hentries

/-! ## Calls -/

namespace Expr

theorem renderArgs_eq (args : List Expr) : renderArgs args = args.map render := by
  induction args with
  | nil => rfl
  | cons arg rest ih => rw [renderArgs, ih, List.map_cons]

theorem renderKeywords_eq (keywords : List (String × Expr)) :
    renderKeywords keywords = keywords.map fun (key, value) => key ++ "=" ++ value.render := by
  induction keywords with
  | nil => rfl
  | cons keyword rest ih => rw [renderKeywords, ih, List.map_cons]

end Expr

/-- The keyword can be written with nothing left open. -/
def ClosedKeyword (keyword : String × Expr) : Prop :=
  isPlainText keyword.1 ∧ Closed keyword.2.render

/-- All parts of the call are closed. -/
structure Call.PartsClosed (call : Call) : Prop where
  callee : isPlainText call.callee
  args : ∀ arg ∈ call.args, Closed arg.render
  keywords : ∀ keyword ∈ call.keywords, ClosedKeyword keyword

namespace Call

/-- What a call has between its parentheses. -/
def inner (call : Call) : Text :=
  Text.join ", " (Expr.renderArgs call.args ++ Expr.renderKeywords call.keywords)

theorem render_eq (call : Call) : call.render = call.callee ++ "(" ++ call.inner ++ ")" := rfl

/-- What stands between the parentheses of a call is closed if its parts are. -/
theorem PartsClosed.inner {call : Call} (h : call.PartsClosed) : Closed call.inner := by
  refine .join (.plain (by decide)) ?_
  rw [Expr.renderArgs_eq, Expr.renderKeywords_eq]
  simp only [List.forall_mem_append, List.forall_mem_map]
  refine ⟨h.args, fun keyword hmem => ?_⟩
  obtain ⟨hkey, hvalue⟩ := h.keywords keyword hmem
  exact ((Closed.plain hkey).append (.plain (by decide))).append hvalue

theorem PartsClosed.render {call : Call} (h : call.PartsClosed) : Closed call.render :=
  (ClosedLine.paren_of_closed h.callee h.inner).closed

/-- A call stays closed when closed keywords are added. -/
theorem PartsClosed.extend {call : Call} (h : call.PartsClosed) {keywords : List (String × Expr)}
    (hkeywords : ∀ keyword ∈ keywords, ClosedKeyword keyword) :
    (call.extend keywords).PartsClosed :=
  ⟨h.callee, h.args, List.forall_mem_append.mpr ⟨h.keywords, hkeywords⟩⟩

end Call

/-- A call that ends a line closes with its last parenthesis only. -/
theorem Call.PartsClosed.closedLine {call : Call} (h : call.PartsClosed) {front : String}
    (hfront : isPlainText front) : ClosedLine (front ++ call.render) := by
  have hsplit : front ++ call.render =
      Text.ofString (front ++ call.callee) ++ "(" ++ call.inner ++ ")" := by
    simp [Call.render_eq, Text.append_assoc]
  rw [hsplit]
  exact .paren_of_closed (by simp [hfront, h.callee]) h.inner

theorem TypeRef.Wrapper.closed_wrap (w : Wrapper) {inner : String} (h : Closed inner) :
    Closed (w.wrap inner) := by
  have hcallee : isPlainText w.toImport.text := by
    cases w <;> decide +kernel
  simpa [wrap] using (ClosedLine.paren_of_closed hcallee h).closed

/-- Wrappers around a name close one after the other. -/
theorem TypeRef.closed_emit {type : TypeRef} {text : String} (hname : type.wellNamed)
    (h : type.emit = .ok text) : Closed text := by
  induction type generalizing text with
  | named name =>
    simp only [emit, Except.ok.injEq] at h
    exact h ▸ .plain (Text.isPlainText_of_isIdentifier hname)
  | list item ih =>
    simp only [emit, Success.map_eq_ok] at h
    obtain ⟨inner, hinner, rfl⟩ := h
    exact Wrapper.list.closed_wrap (ih hname hinner)
  | nonNull item ih =>
    simp only [emit, Success.map_eq_ok] at h
    obtain ⟨inner, hinner, rfl⟩ := h
    exact Wrapper.nonNull.closed_wrap (ih hname hinner)
  | foreign kind => simp [emit] at h

/-! ## Fields -/

namespace Field

theorem closed_typeCall {callee type : String} (hcallee : isPlainText callee)
    (htype : Closed type) : (typeCall callee type).PartsClosed := by
  refine ⟨hcallee, ?_, by simp [typeCall]⟩
  simpa [typeCall, Expr.render] using (Closed.plain (by decide)).append htype

theorem closed_descriptionKeyword (description : Option String) :
    ∀ keyword ∈ descriptionKeyword description, ClosedKeyword keyword := by
  unfold descriptionKeyword
  split
  case isTrue => simp
  case isFalse => simpa [ClosedKeyword, Expr.render] using ⟨by decide, .quote _⟩

theorem closed_textKeyword {key : String} (hkey : isPlainText key) {text : Option Text}
    (htext : ∀ t, text = some t → Closed t) :
    ∀ keyword ∈ textKeyword key text, ClosedKeyword keyword := by
  cases text with
  | none => simp [textKeyword]
  | some t => simpa [textKeyword, ClosedKeyword, Expr.render] using ⟨hkey, htext t rfl⟩

theorem closed_nameKeyword (schemaName converted name : String) :
    ∀ keyword ∈ Assignment.nameKeyword schemaName converted name, ClosedKeyword keyword := by
  unfold Assignment.nameKeyword
  split
  case isTrue => simp
  case isFalse => simpa [ClosedKeyword, Expr.render] using ⟨by decide, .quote _⟩

/-- Descriptions and defaults open nothing in the call of an input value. -/
theorem IsInputCall.partsClosed {config : Config} {callee : String} {d : InputValueDef}
    {name : String} {call : Call} (h : IsInputCall config callee d name call)
    (hcallee : isPlainText callee) (hname : d.wellNamed) : call.PartsClosed := by
  obtain ⟨type, default, htype, hdefault, rfl⟩ := h
  simp only [InputValueDef.wellNamed, Bool.and_eq_true] at hname
  have hvalue : ∀ t, default.map Text.ofString = some t → Closed t := by
    intro t ht
    obtain ⟨text, rfl, rfl⟩ := Option.map_eq_some_iff.mp ht
    obtain ⟨value, -, hvalue⟩ := Success.option_mapM_eq_ok.mp hdefault
    exact Value.closed_emit hvalue
  refine (closed_typeCall hcallee (TypeRef.closed_emit hname.2 htype)).extend ?_
  simp only [List.forall_mem_append]
  exact ⟨⟨closed_descriptionKeyword _, closed_textKeyword (by decide) hvalue⟩,
    closed_nameKeyword _ _ _⟩

theorem closed_argumentDict {arguments : List (String × Call)}
    (h : ∀ argument ∈ arguments, argument.2.PartsClosed) : Closed (argumentDict arguments) := by
  have hentries := Text.closed_dict
    (arguments.map fun argument => (↑argument.1, argument.2.render))
    (List.forall_mem_map.mpr fun argument hmem => (h argument hmem).render)
  simp only [List.map_map, Function.comp_def, Text.quoted_ofString] at hentries
  exact hentries

/-- The arguments of a field are closed, those in the dictionary too. -/
theorem closed_arguments {arguments : List (String × Call)}
    (hnames : ∀ name ∈ keys arguments, isPlainText name)
    (h : ∀ argument ∈ arguments, argument.2.PartsClosed) :
    ∀ keyword ∈ plainKeywords arguments ++ dictKeyword arguments, ClosedKeyword keyword := by
  rw [List.forall_mem_append]
  constructor
  · simp only [plainKeywords, List.forall_mem_map]
    intro argument hmem
    have hmem := List.mem_of_mem_filter hmem
    exact ⟨hnames _ (List.mem_map_of_mem hmem), (h argument hmem).render⟩
  · simp only [dictKeyword]
    split
    case isTrue => simp
    case isFalse =>
      have hdict : Closed (argumentDict (arguments.filter fun argument => isReserved argument.1)) :=
        closed_argumentDict fun argument hmem => h argument (List.mem_of_mem_filter hmem)
      simpa [ClosedKeyword, Expr.render] using ⟨by decide, hdict⟩

/-- The reason of a deprecation is closed if the configured one is. -/
theorem closed_reasonText {config : Config} (hreason : Closed config.reasonText) {d : Directive}
    {text : Text} (h : reasonText config d = .ok text) : Closed text := by
  unfold reasonText at h
  split at h
  · obtain ⟨source, hsource, rfl⟩ := Success.map_eq_ok.mp h
    exact Value.closed_emit (Success.mapError_eq_ok.mp hsource)
  · cases h
    exact hreason

/-- The names that arguments are passed under are identifiers if those of the schema are. -/
theorem isIdentifier_of_mem_keys {config : Config} {defs : List InputValueDef}
    {arguments : List (String × Call)} (hdefs : ∀ argument ∈ defs, argument.wellNamed)
    (hkeys : keys arguments =
      Assignment.freshNames (defs.map fun argument => codeName config argument.name)) :
    ∀ name ∈ keys arguments, Text.isIdentifier name := by
  rw [hkeys]
  intro name hmem
  refine (Text.freshNamesFrom_usable ?_ [] name hmem).1
  simp only [List.forall_mem_map]
  intro argument hargument
  have hargument := hdefs argument hargument
  simp only [InputValueDef.wellNamed, Bool.and_eq_true] at hargument
  exact Text.identifier_usable hargument.1 _

theorem partsClosed_of_forall₂ {config : Config} {defs : List InputValueDef}
    {arguments : List (String × Call)} (hdefs : ∀ argument ∈ defs, argument.wellNamed)
    (h : List.Forall₂ (fun d argument => IsInputCall config "Argument" d argument.1 argument.2) defs
      arguments) : ∀ argument ∈ arguments, argument.2.PartsClosed := by
  induction h with
  | nil => simp
  | cons hhead _ ih =>
    rw [List.forall_mem_cons] at hdefs ⊢
    exact ⟨hhead.partsClosed (by decide) hdefs.1, ih hdefs.2⟩

/-- The call of a field has closed parts only, as its arguments have. -/
theorem IsFieldCall.partsClosed {config : Config} (hreason : Closed config.reasonText) {d : FieldDef}
    {arguments : List (String × Call)} {name : String} {call : Call}
    (h : IsFieldCall config d arguments name call) (hnames : d.wellNamed) : call.PartsClosed := by
  obtain ⟨type, text, htype, hkeys, hall, htext, rfl⟩ := h
  simp only [FieldDef.wellNamed, Bool.and_eq_true] at hnames
  obtain ⟨⟨-, htypeName⟩, hargs⟩ := hnames
  have hdefs : ∀ argument ∈ d.arguments, argument.wellNamed := List.all_eq_true.mp hargs
  have hdeprecation : ∀ t, text = some t → Closed t := by
    rintro t rfl
    obtain ⟨directive, -, hdirective⟩ := Success.option_mapM_eq_ok.mp htext
    exact closed_reasonText hreason hdirective
  have harguments : ∀ keyword ∈ plainKeywords arguments ++ dictKeyword arguments,
      ClosedKeyword keyword := by
    refine closed_arguments (fun name hmem => ?_) (partsClosed_of_forall₂ hdefs hall)
    exact Text.isPlainText_of_isIdentifier (isIdentifier_of_mem_keys hdefs hkeys name hmem)
  refine (closed_typeCall (by decide) (TypeRef.closed_emit htypeName htype)).extend ?_
  -- One case for each keyword, in the order in which they are written.
  rw [keywordsOf, List.append_assoc (descriptionKeyword _)]
  simp only [List.forall_mem_append]
  exact ⟨⟨⟨closed_descriptionKeyword _, List.forall_mem_append.mp harguments⟩,
    closed_textKeyword (by decide) hdeprecation⟩, closed_nameKeyword _ _ _⟩

end Field

/-! ## Lines of blocks -/

namespace Fragment

theorem closedLine_field {a : Assignment} (hname : isPlainText a.name) (h : a.call.PartsClosed) :
    ClosedLine (indent a.render) := by
  have hsplit : indent a.render = Text.ofString ("    " ++ a.name ++ " = ") ++ a.call.render := by
    simp [indent, Assignment.render, Text.append_assoc]
  have hblanks : isPlainText "    " ∧ isPlainText " = " := by decide
  rw [hsplit]
  exact h.closedLine (by simp [hblanks, hname])

theorem closedLine_types {body : Text} (h : Closed body) :
    ClosedLine (indent (indent ("types = (" ++ body ++ ")"))) := by
  have hsplit : indent (indent ("types = (" ++ body ++ ")")) =
      "        types = " ++ "(" ++ body ++ ")" := by
    ext1
    simp [indent]
  rw [hsplit]
  exact .paren_of_closed (by decide) h

theorem closedLine_unionBody {members : List String}
    (h : ∀ member ∈ members, Text.isIdentifier member) :
    ∀ line ∈ (unionBody members).tail, ClosedLine (indent line) := by
  -- The first line opens the inner class; it is the lines after it that are indented again.
  have hmember : ∀ member ∈ members, Closed (Text.ofString ("lambda: " ++ member)) :=
    fun member hmem => (Closed.plain (by decide)).ofString_append
      (.plain (Text.isPlainText_of_isIdentifier (h member hmem)))
  unfold unionBody
  split
  · simp
  · next member =>
    have hsplit : Text.ofString ("types = (lambda: " ++ member ++ ",)") =
        "types = (" ++ Text.ofString ("lambda: " ++ member ++ ",") ++ ")" := by
      ext1
      simp
    rw [hsplit]
    simp only [List.tail_cons, List.forall_mem_cons, List.not_mem_nil, false_implies, implies_true,
      and_true]
    exact closedLine_types
      ((hmember member List.mem_cons_self).ofString_append (.plain (by decide)))
  · simp only [List.tail_cons, List.forall_mem_cons, List.not_mem_nil, false_implies, implies_true,
      and_true]
    rw [Text.ofString_append, Text.ofString_append]
    refine closedLine_types (.joinWith (.plain (by decide)) ?_)
    simpa only [List.forall_mem_map] using hmember

/-- An enumeration is a call with a name, a list, and a description unless that is empty. -/
theorem enumCall_eq (name description : String) (values : List String) :
    enumCall name description values = (Call.mk "Enum" [.source (Text.quote name),
      .source ("[" ++ Text.joinWith ", " (values.map Text.quote) ++ "]" : String)] []).extend
        (Field.descriptionKeyword (some description)) := by
  simp only [enumCall, Field.descriptionKeyword, Option.getD_some]
  split
  case isTrue => rw [Call.extend_nil]
  case isFalse => exact Call.merge_single (Assignment.quote_isEmpty _) (by simp)

theorem closedLine_enum {name : String} (hname : Text.isIdentifier name) (description : String)
    (values : List String) :
    ClosedLine (name ++ " = " ++ (enumCall name description values).render) := by
  have hlist : Closed ("[" ++ Text.joinWith ", " (values.map Text.quote) ++ "]" : String) := by
    rw [Text.ofString_append, Text.ofString_append]
    refine (Closed.joinWith (.plain (by decide)) ?_).bracketed .square
    simp only [List.forall_mem_map]
    exact fun value _ => .quote value
  have hcall : (Call.mk "Enum" [.source (Text.quote name),
      .source ("[" ++ Text.joinWith ", " (values.map Text.quote) ++ "]" : String)]
      []).PartsClosed := by
    have hcallee : isPlainText "Enum" := by decide
    refine ⟨hcallee, List.forall_mem_cons.mpr ⟨.quote name, ?_⟩, by simp⟩
    exact List.forall_mem_singleton.mpr hlist
  have hfront : isPlainText (name ++ " = ") := by
    have hblanks : isPlainText " = " := by decide
    simp [hblanks, Text.isPlainText_of_isIdentifier hname]
  rw [enumCall_eq, ← Text.ofString_append]
  exact (hcall.extend (Field.closed_descriptionKeyword _)).closedLine hfront

end Fragment

/-! ## Documents -/

/-- `text` is what a type becomes, and the lines with calls in it are closed: those of fields, the
    list of the members of a union, and an enumeration. -/
def TypeDef.HasClosedLines (config : Config) (d : TypeDef) (text : Text) : Prop :=
  (config.ignores d.name = .ok true ∧ text = "") ∨
  match d.body with
  | .object .. | .interface .. | .inputObject _ => ∃ (base : Import) (bound : List Assignment),
    text = Fragment.classBlock d.name base (d.description.getD "") (bound.map Assignment.render) ∧
    ∀ a ∈ bound, a.call.callee = "Field" ∧ ClosedLine (Fragment.indent a.render)
  | .union members =>
    text = Fragment.classBlock d.name .union (d.description.getD "") (Fragment.unionBody members) ∧
    ∀ line ∈ (Fragment.unionBody members).tail, ClosedLine (Fragment.indent line)
  | .enum values =>
    let line := d.name ++ " = " ++
      (Fragment.enumCall d.name (d.description.getD "") (values.map (·.name))).render
    text = line ++ Fragment.blockEnd ∧ ClosedLine line
  | .scalar =>
    text = Fragment.classBlock d.name .scalar (d.description.getD "") ["serialize = lambda x: str(x)"]

/-- `text` is what a definition becomes; only types become something. -/
def Definition.HasClosedLines (config : Config) : Definition → Text → Prop
  | .type d, text => d.HasClosedLines config text
  | _, text => text = ""

namespace Field

/-- The call makes a field, and all of its parts are closed. -/
def IsClosedField (call : Call) : Prop :=
  call.callee = "Field" ∧ call.PartsClosed

theorem closedFields_of_inputs {config : Config} {defs : List InputValueDef}
    {assignments : List Assignment} (hnames : ∀ d ∈ defs, d.wellNamed)
    (h : defs.mapM (ofInputValue config) = .ok assignments) :
    ∀ a ∈ Assignment.unique assignments, IsClosedField a.call := by
  refine Success.forall_of_forall₂ (inputCalls_unique h) fun d hmem a ha => ⟨?_, ?_⟩
  · obtain ⟨_, _, -, -, hcall⟩ := ha
    rw [hcall]
    rfl
  · exact ha.partsClosed (by decide) (hnames d hmem)

/-- Giving way to other names leaves the calls of fields closed. -/
theorem closedFields_of_fields {config : Config} (hreason : Closed config.reasonText)
    {defs : List FieldDef} {assignments : List Assignment} (hnames : ∀ d ∈ defs, d.wellNamed)
    (h : defs.mapM (ofField config) = .ok assignments) :
    ∀ a ∈ Assignment.unique assignments, IsClosedField a.call := by
  refine Success.forall_of_forall₂ (fieldCalls_unique h) fun d hmem a ⟨_, _, ha⟩ => ⟨?_, ?_⟩
  · obtain ⟨_, _, -, -, -, -, hcall⟩ := ha
    rw [hcall]
    rfl
  · exact ha.partsClosed hreason (hnames d hmem)

end Field

namespace TypeBody

theorem wellNamed_fields {body : TypeBody} (h : body.wellNamed) :
    (∀ d ∈ body.outputFields, d.wellNamed) ∧ ∀ d ∈ body.inputFields, d.wellNamed := by
  cases body with
  | scalar | union | enum => simp [outputFields, inputFields]
  | object | interface | inputObject =>
    simpa [wellNamed, outputFields, inputFields] using h

theorem isIdentifier_of_mem_fieldNames {body : TypeBody} (h : body.wellNamed) :
    ∀ name ∈ body.fieldNames, Text.isIdentifier name := by
  obtain ⟨houtput, hinput⟩ := wellNamed_fields h
  simp only [fieldNames, List.forall_mem_append, List.forall_mem_map]
  refine ⟨fun d hmem => ?_, fun d hmem => ?_⟩
  · have hd := houtput d hmem
    simp only [FieldDef.wellNamed, Bool.and_eq_true] at hd
    exact hd.1.1
  · have hd := hinput d hmem
    simp only [InputValueDef.wellNamed, Bool.and_eq_true] at hd
    exact hd.1

/-- The fields of a type are bound by closed lines. -/
theorem closedLines_of_emit {config : Config} (hreason : Closed config.reasonText) {body : TypeBody}
    {emitted : EmittedBody} (hfields : body.hasFields) (hnames : body.wellNamed)
    (h : body.emit config = .ok emitted) :
    ∃ base inherits assignments, emitted = .fields base inherits assignments ∧
      ∀ a ∈ Assignment.unique assignments,
        a.call.callee = "Field" ∧ ClosedLine (Fragment.indent a.render) := by
  obtain ⟨base, inherits, assignments, rfl, hall⟩ := emit_fields hfields h
  -- The names are identifiers even after all have given way to each other.
  have htraceable : Field.Traceable config body.fieldNames
      ((Assignment.unique assignments).map fun a => (a.name, a.call)) :=
    Field.traceable_unique (fun _ => rfl) (isIdentifier_of_mem_fieldNames hnames)
      (forall₂_stands hall)
  refine ⟨base, inherits, assignments, rfl, fun a hmem => ?_⟩
  have hname : isPlainText a.name := by
    refine Text.isPlainText_of_isIdentifier (htraceable.usable a.name ?_).1
    simp only [keys, List.map_map, List.mem_map, Function.comp_apply]
    exact ⟨a, hmem, rfl⟩
  have hcall : Field.IsClosedField a.call := by
    obtain ⟨houtput, hinput⟩ := wellNamed_fields hnames
    rcases hall with ⟨-, hall⟩ | ⟨-, hall⟩
    · exact Field.closedFields_of_fields hreason houtput hall a hmem
    · exact Field.closedFields_of_inputs hinput hall a hmem
  exact ⟨hcall.1, Fragment.closedLine_field hname hcall.2⟩

end TypeBody

/-- A type becomes a text whose lines with calls are closed. -/
theorem TypeDef.hasClosedLines {config : Config} (hreason : Closed config.reasonText) {d : TypeDef}
    {emitted : EmittedBody} (hnames : d.wellNamed) (h : d.body.emit config = .ok emitted) :
    d.HasClosedLines config (emitted.fragment d.name (d.description.getD "")).text := by
  obtain ⟨description, name, directives, body⟩ := d
  simp only [wellNamed, Bool.and_eq_true] at hnames
  obtain ⟨hname, hbodyNames⟩ := hnames
  refine .inr ?_
  -- Objects, interfaces and input types become classes in the same way.
  have hclass : body.hasFields → ∃ (base : Import) (bound : List Assignment),
      (emitted.fragment name (description.getD "")).text =
        Fragment.classBlock name base (description.getD "") (bound.map Assignment.render) ∧
      ∀ a ∈ bound, a.call.callee = "Field" ∧ ClosedLine (Fragment.indent a.render) := by
    intro hfields
    obtain ⟨base, inherits, assignments, rfl, hlines⟩ :=
      TypeBody.closedLines_of_emit hreason hfields hbodyNames h
    exact ⟨base, Assignment.unique assignments, rfl, hlines⟩
  cases body with
  | scalar =>
    cases h
    rfl
  | object => exact hclass rfl
  | interface => exact hclass rfl
  | inputObject => exact hclass rfl
  | union members =>
    cases h
    have hmembers : ∀ member ∈ members, Text.isIdentifier member :=
      List.all_eq_true.mp hbodyNames
    exact ⟨rfl, Fragment.closedLine_unionBody hmembers⟩
  | enum values =>
    cases h
    exact ⟨rfl, Fragment.closedLine_enum hname _ _⟩

/-- In what a definition becomes, every line with a call is closed. -/
theorem Definition.hasClosedLines {config : Config} (hreason : Closed config.reasonText)
    {definition : Definition} {fragment : Fragment} (hnames : definition.wellNamed)
    (h : definition.emit config = .ok fragment) :
    definition.HasClosedLines config fragment.text := by
  cases becomes_of_emit h with
  | schema | directive => rfl
  | ignored hignored => exact .inl ⟨hignored, rfl⟩
  | kept _ hbody => exact TypeDef.hasClosedLines hreason hnames hbody

/-- Every line with a call that a document becomes is closed, if the reason of deprecations that
    give none is a string. A document has only identifiers for names if it is read from a text
    (`wellNamed_of_parse`), and so has its canonical form (`wellNamed_of_ofText`). -/
theorem Document.emit_closedLines {config : Config} {reason : Text}
    (hreason : config.defaultDeprecationReason = .string reason) {document : Document}
    (hnames : document.wellNamed) {record after : Record} {texts : List Text}
    (h : Document.emit config record document = (.ok texts, after)) :
    List.Forall₂ (Definition.HasClosedLines config) document texts := by
  have hnames : ∀ definition ∈ document, definition.wellNamed := List.all_eq_true.mp hnames
  have hreason : Closed config.reasonText := by
    rw [Config.reasonText, hreason, Json.print]
    exact .quoted reason
  obtain ⟨fragments, hall, rfl, -⟩ := emit_eq_ok h
  rw [List.forall₂_map_right_iff]
  refine ((List.forall₂_and_left _ _).mpr ⟨hnames, hall⟩).imp fun definition fragment hemit => ?_
  exact definition.hasClosedLines hreason hemit.1 hemit.2

/-- A document whose texts hold quotes, brackets and line ends, in descriptions, reasons and
    defaults. -/
def hostileDocument : Document :=
  [.type ⟨some "\"]\x7d)", "Query", [], .object [] [⟨some "a\")\nb", "from",
      [⟨some "(\"", "name", .list (.named "In"), some (.object [("k", .string "]\x7d\r" false)]), []⟩],
      .nonNull (.named "Color"), [⟨"deprecated", [], 0⟩]⟩]⟩,
    .type ⟨some "(\"\n", "Color", [], .enum [⟨none, "RED", []⟩, ⟨none, "GREEN", []⟩]⟩,
    .type ⟨none, "Any", [], .union ["Query", "Other"]⟩]

/-- A document whose descriptions, reasons and defaults hold brackets, quotes and line ends. -/
theorem Document.emit_closedLines_hostileDocument :
    ∃ texts after, Document.emit {} {} hostileDocument = (.ok texts, after) ∧
      List.Forall₂ (Definition.HasClosedLines {}) hostileDocument texts := by
  have hok : (Document.emit {} {} hostileDocument).1.isOk := by decide +kernel
  cases h : Document.emit {} {} hostileDocument with
  | mk result after =>
    cases result with
    | error e => simp [h, Except.isOk, Except.toBool] at hok
    | ok texts => exact ⟨texts, after, rfl, emit_closedLines rfl (by decide +kernel) h⟩

end SchemaClasses
