import SchemaClasses.Proofs.Printing.BlockStrings
import SchemaClasses.Proofs.Printing.Scanning
import SchemaClasses.Proofs.Printing.Writable

/-!
# The units of a printed document

What a document of definitions is made of, as the kinds of its tokens, and that the text of a
document that can be written is scanned as just these.
-/

namespace SchemaClasses

open Token (Anything Apart Scans Separates marks)

/-! ## Units -/

/-- Lists of units with a punctuator between neighbours. -/
def separated (p : Punctuator) (names : List String) : List TokenKind :=
  [.punctuator p].intercalate (names.map fun name => [.name name])

/-- Units between two punctuators, if there are any. -/
def enclosed (opening close : Punctuator) (units : List (List TokenKind)) : List TokenKind :=
  if units.isEmpty then [] else .punctuator opening :: (units.flatten ++ [.punctuator close])

mutual

def Value.units : Value → List TokenKind
  | .variable name => [.punctuator .dollar, .name name]
  | .int n => [.int n]
  | .float n => [.float n]
  | .string content block => [if block then .blockString content else .string content]
  | .boolean b => [.name (if b then "true" else "false")]
  | .null => [.name "null"]
  | .enum name => [.name name]
  | .list items =>
    .punctuator .bracketLeft :: ((Value.unitsOfItems items).flatten ++ [.punctuator .bracketRight])
  | .object fields =>
    .punctuator .braceLeft :: ((Value.unitsOfFields fields).flatten ++ [.punctuator .braceRight])

def Value.unitsOfItems : List Value → List (List TokenKind)
  | [] => []
  | item :: rest => item.units :: Value.unitsOfItems rest

def Value.unitsOfFields : List (String × Value) → List (List TokenKind)
  | [] => []
  | (name, value) :: rest =>
    (.name name :: .punctuator .colon :: value.units) :: Value.unitsOfFields rest

end

def TypeRef.units : TypeRef → List TokenKind
  | .named name => [.name name]
  | .list item => .punctuator .bracketLeft :: (item.units ++ [.punctuator .bracketRight])
  | .nonNull item => item.units ++ [.punctuator .bang]
  | .foreign _ => []

def Argument.units (a : Argument) : List TokenKind :=
  .name a.name :: .punctuator .colon :: a.value.units

def Directive.units (d : Directive) : List TokenKind :=
  .punctuator .at :: .name d.name ::
    enclosed .parenLeft .parenRight (d.arguments.map Argument.units)

def directiveUnits (ds : List Directive) : List TokenKind :=
  ds.flatMap Directive.units

def descriptionUnits : Option String → List TokenKind
  | none => []
  | some text => [if isBlockText text.toList then .blockString text else .string text]

def defaultUnits : Option Value → List TokenKind
  | none => []
  | some v => .punctuator .equals :: v.units

def InputValueDef.units (d : InputValueDef) : List TokenKind :=
  descriptionUnits d.description ++ .name d.name :: .punctuator .colon ::
    (d.type.units ++ (defaultUnits d.defaultValue ++ directiveUnits d.directives))

def argumentUnits (ds : List InputValueDef) : List TokenKind :=
  enclosed .parenLeft .parenRight (ds.map InputValueDef.units)

def FieldDef.units (d : FieldDef) : List TokenKind :=
  descriptionUnits d.description ++ .name d.name :: (argumentUnits d.arguments ++
    .punctuator .colon :: (d.type.units ++ directiveUnits d.directives))

def EnumValueDef.units (d : EnumValueDef) : List TokenKind :=
  descriptionUnits d.description ++ .name d.name :: directiveUnits d.directives

def parentUnits (parents : List String) : List TokenKind :=
  if parents.isEmpty then [] else .name "implements" :: separated .ampersand parents

def memberUnits (members : List String) : List TokenKind :=
  if members.isEmpty then [] else .punctuator .equals :: separated .pipe members

/-- The word that starts the definition of a type. -/
def TypeBody.keyword : TypeBody → String
  | .scalar => "scalar"
  | .object .. => "type"
  | .interface .. => "interface"
  | .union .. => "union"
  | .enum .. => "enum"
  | .inputObject .. => "input"

/-- What stands behind the name of a type with these directives. -/
def TypeBody.units (directives : List Directive) : TypeBody → List TokenKind
  | .scalar => directiveUnits directives
  | .object parents fields | .interface parents fields =>
    parentUnits parents ++ (directiveUnits directives ++
      enclosed .braceLeft .braceRight (fields.map FieldDef.units))
  | .union members => directiveUnits directives ++ memberUnits members
  | .enum values =>
    directiveUnits directives ++ enclosed .braceLeft .braceRight (values.map EnumValueDef.units)
  | .inputObject fields =>
    directiveUnits directives ++ enclosed .braceLeft .braceRight (fields.map InputValueDef.units)

def TypeDef.units (d : TypeDef) : List TokenKind :=
  descriptionUnits d.description ++ .name d.body.keyword :: .name d.name ::
    d.body.units d.directives

def DirectiveDef.units (d : DirectiveDef) : List TokenKind :=
  descriptionUnits d.description ++ .name "directive" :: .punctuator .at :: .name d.name ::
    (argumentUnits d.arguments ++ ((if d.repeatable then [.name "repeatable"] else []) ++
      .name "on" :: separated .pipe d.locations))

def operationUnits (operation : OperationKind × String) : List TokenKind :=
  [.name operation.1.label, .punctuator .colon, .name operation.2]

def SchemaDef.units (d : SchemaDef) : List TokenKind :=
  descriptionUnits d.description ++ .name "schema" :: (directiveUnits d.directives ++
    enclosed .braceLeft .braceRight (d.operations.map operationUnits))

def Definition.units : Definition → List TokenKind
  | .schema d => d.units
  | .type d => d.units
  | .directive d => d.units
  | .schemaExtension _ | .typeExtension _ | .operation _ | .fragment _ => []

/-! ## Punctuation -/

namespace Token

variable {text more : String} {units others : List TokenKind}

theorem scans_blank : Scans Anything " " [] := scans_marks rfl rfl
theorem scans_feed : Scans Anything "\n" [] := scans_marks rfl rfl
theorem scans_comma : Scans Anything ", " [] := scans_marks rfl rfl
theorem scans_colon : Scans Anything ": " [.punctuator .colon] := scans_marks rfl rfl

/-- A word of the language, with a blank behind it. -/
theorem Scans.blank (h : Scans Apart text units) : Scans Anything (text ++ " ") units := by
  have hseal := h.seal rfl scans_blank
  rwa [List.append_nil] at hseal

/-- Texts with a separator between them. -/
theorem Scans.joinWith {separator : String} {between : List TokenKind}
    (hsep : Scans Anything separator between) (hs : opensApart separator)
    {texts : List String} {units : List (List TokenKind)}
    (h : List.Forall₂ (Scans Apart) texts units) :
    Scans Apart (Text.joinWith separator texts) (between.intercalate units) := by
  induction h with
  | nil => exact scans_empty
  | @cons text first texts units hfirst hrest ih =>
    cases hrest with
    | nil => simpa [List.intercalate] using hfirst
    | @cons second others more rest hsecond hmore =>
      rw [Text.joinWith_cons_cons]
      have hjoin : between.intercalate (first :: others :: rest) =
          (first ++ between) ++ between.intercalate (others :: rest) := by
        simp [List.intercalate]
      rw [hjoin]
      exact (hfirst.seal hs hsep).then ih

theorem intercalate_nil (units : List (List TokenKind)) :
    ([] : List TokenKind).intercalate units = units.flatten := by
  induction units with
  | nil => rfl
  | cons first rest ih =>
    cases rest with
    | nil => simp [List.intercalate]
    | cons second more =>
      simp only [List.intercalate, List.intersperse_cons_cons, List.flatten_cons,
        List.nil_append] at ih ⊢
      rw [ih]

/-- Each text has its own units. -/
theorem forall₂_map {α : Type} {items : List α} {text : α → String} {units : α → List TokenKind}
    (h : ∀ a ∈ items, Scans Apart (text a) (units a)) :
    List.Forall₂ (Scans Apart) (items.map text) (items.map units) := by
  rw [List.forall₂_map_left_iff, List.forall₂_map_right_iff, List.forall₂_same]
  exact h

/-- Texts with commas between them. -/
theorem scans_list {α : Type} {items : List α} {text : α → String} {units : α → List TokenKind}
    (h : ∀ a ∈ items, Scans Apart (text a) (units a)) :
    Scans Apart (Text.joinWith ", " (items.map text)) (items.map units).flatten := by
  rw [← intercalate_nil]
  exact scans_comma.joinWith rfl (forall₂_map h)

/-- Names with a separator between them. -/
theorem scans_separated {separator : String} {p : Punctuator}
    (hsep : Scans Anything separator [.punctuator p]) (hs : opensApart separator)
    {names : List String} (h : ∀ name ∈ names, Text.isIdentifier name) :
    Scans Apart (Text.joinWith separator names) (separated p names) := by
  have hall : List.Forall₂ (Scans Apart) (names.map id) (names.map fun name => [.name name]) :=
    forall₂_map fun name hmem => scans_name (h name hmem)
  rw [List.map_id] at hall
  exact hsep.joinWith hs hall

/-- What is closed by a punctuator of its own. -/
theorem Scans.enclose {opening close : String} {front back : List TokenKind}
    (hopening : Scans Anything opening front) (h : Scans Apart text units)
    (hs : opensApart close) (hclose : Scans Anything close back) :
    Scans Anything (opening ++ text ++ close) (front ++ (units ++ back)) := by
  rw [← List.append_assoc]
  exact (hopening.then h).seal hs hclose

end Token

open Token (scans_blank scans_colon scans_marks scans_name)

/-! ## Literals and types -/

namespace Value

theorem printItems_eq (items : List Value) : printItems items = items.map print := by
  induction items with
  | nil => rfl
  | cons item rest ih => rw [printItems, ih, List.map_cons]

theorem unitsOfItems_eq (items : List Value) : unitsOfItems items = items.map units := by
  induction items with
  | nil => rfl
  | cons item rest ih => rw [unitsOfItems, ih, List.map_cons]

theorem printFields_eq (fields : List (String × Value)) :
    printFields fields = fields.map fun field => field.1 ++ ": " ++ field.2.print := by
  induction fields with
  | nil => rfl
  | cons field rest ih => rw [printFields, ih, List.map_cons]

theorem unitsOfFields_eq (fields : List (String × Value)) :
    unitsOfFields fields =
      fields.map fun field => .name field.1 :: .punctuator .colon :: field.2.units := by
  induction fields with
  | nil => rfl
  | cons field rest ih => rw [unitsOfFields, ih, List.map_cons]

end Value

/-- A name, a colon and what belongs to the name. -/
theorem scans_named {name text : String} {units : List TokenKind} (hname : Text.isIdentifier name)
    (h : Scans Apart text units) :
    Scans Apart (name ++ ": " ++ text) (.name name :: .punctuator .colon :: units) :=
  ((scans_name hname).seal rfl scans_colon).then h

/-- A constant is read as its units, those of its parts in order. -/
theorem Value.IsWritable.scans {v : Value} (h : v.IsWritable) : Scans Apart v.print v.units := by
  induction h with
  | int n => exact Token.scans_number (n := .int n) trivial
  | @float n h => exact Token.scans_number (n := .float n) h
  | string content => exact Token.scans_printString content
  | boolean b => cases b <;> exact scans_name (by decide)
  | null => exact scans_name (by decide)
  | enum h => exact scans_name h
  | list _ ih =>
    rw [print, units, printItems_eq, unitsOfItems_eq]
    exact (Token.Scans.enclose (scans_marks rfl rfl) (Token.scans_list ih) rfl
      (scans_marks rfl rfl)).free
  | object hnames _ ih =>
    rw [print, units, printFields_eq, unitsOfFields_eq]
    exact (Token.Scans.enclose (scans_marks rfl rfl)
      (Token.scans_list fun field hmem => scans_named (hnames field hmem) (ih field hmem))
      rfl (scans_marks rfl rfl)).free

/-- A type is read as its units, from the outermost brackets to its name. -/
theorem TypeRef.IsSpelled.scans {depth : Nat} {type : TypeRef} (h : type.IsSpelled depth) :
    Scans Apart type.print type.units := by
  induction h with
  | named h => exact scans_name h
  | list _ ih =>
    exact (Token.Scans.enclose (scans_marks rfl rfl) ih rfl
      (scans_marks rfl rfl)).free
  | nonNull _ _ ih =>
    exact (ih.seal rfl (scans_marks rfl rfl)).free

/-! ## Directives -/

/-- Arguments between parentheses, if there are any. -/
theorem scans_parentheses {α : Type} {items : List α} {text : α → String}
    {units : α → List TokenKind} (h : ∀ a ∈ items, Scans Apart (text a) (units a)) :
    Scans Anything (if (items.map text).isEmpty then "" else
      "(" ++ Text.joinWith ", " (items.map text) ++ ")")
      (enclosed .parenLeft .parenRight (items.map units)) := by
  rw [enclosed, List.isEmpty_map, List.isEmpty_map]
  split
  · exact Token.scans_empty
  · exact Token.Scans.enclose (scans_marks rfl rfl) (Token.scans_list h) rfl (scans_marks rfl rfl)

theorem separates_parentheses (texts : List String) :
    Separates (if texts.isEmpty then "" else "(" ++ Text.joinWith ", " texts ++ ")") := by
  split
  · exact Token.separates_empty
  · refine Token.separates_of_opensApart ?_
    simp [Token.opensApart]
    rfl

/-- A directive without arguments has no parentheses. -/
theorem Directive.IsWritable.scans {d : Directive} (h : d.IsWritable) :
    Scans Apart (Layout.directive d) d.units := by
  have harguments := scans_parentheses fun a ha =>
    scans_named (h.arguments a ha).name (h.arguments a ha).value.scans
  have hat : Scans Anything "@" [.punctuator .at] := scans_marks rfl rfl
  exact (hat.then (scans_name h.name)).append (separates_parentheses _) harguments.free

theorem separates_directives (ds : List Directive) : Separates (Layout.directives ds) := by
  cases ds with
  | nil => exact Token.separates_empty
  | cons d rest =>
    refine Token.separates_of_opensApart ?_
    simp [Token.opensApart, Layout.directives]
    rfl

theorem scans_directives {ds : List Directive} (h : ∀ d ∈ ds, d.IsWritable) :
    Scans Apart (Layout.directives ds) (directiveUnits ds) := by
  induction ds with
  | nil => exact Token.scans_empty
  | cons d rest ih =>
    rw [List.forall_mem_cons] at h
    exact (scans_blank.then h.1.scans).append (separates_directives rest) (ih h.2)

/-! ## Descriptions -/

theorem toList_indentLines (indent text : String) :
    (Layout.indentLines indent text).toList = BlockString.indented indent.toList text.toList := by
  simp [Layout.indentLines, BlockString.indented]

/-- Blanks before a text are passed over. -/
theorem scans_indent {indent : String} (h : ∀ c ∈ indent.toList, BlockString.isIndent c) :
    Scans Anything indent [] := by
  have hblank : ∀ c ∈ indent.toList, Token.isIgnored c ∧ Token.punctuator? c = none := by
    intro c hc
    have : c = ' ' ∨ c = '\t' := by simpa [BlockString.isIndent] using h c hc
    rcases this with rfl | rfl <;> exact ⟨rfl, rfl⟩
  refine scans_marks (List.all_eq_true.mpr fun c hc => ?_) ?_
  · simp [(hblank c hc).1]
  · exact List.filterMap_eq_nil_iff.mpr fun c hc => by simp [(hblank c hc).2]

/-- A block string is one token, however its lines are indented. -/
theorem scans_blockString {indent : String} (hindent : ∀ c ∈ indent.toList, BlockString.isIndent c)
    {text : String} (h : isBlockText text.toList) :
    Scans Anything (Layout.indentLines indent (printBlockString text)) [.blockString text] := by
  intro rest _
  obtain ⟨body, hprinted, hreturn, hclose, hcontent⟩ := BlockString.exists_printed h hindent
  have hread := BlockString.readBlockString_escapeBlock hreturn hclose 3 [] [] rest
  rw [List.reverse_nil, List.nil_append, hcontent] at hread
  have htoken : Token.readToken '"'
      ('"' :: '"' :: (escapeBlock body ++ '"' :: '"' :: '"' :: rest)) =
        .ok (.blockString text, 3 + (escapeBlock body).length + 3) := hread
  have hdrop : ('"' :: '"' :: (escapeBlock body ++ '"' :: '"' :: '"' :: rest)).drop
      (3 + (escapeBlock body).length + 3 - 1) = rest := by
    have hsize : 3 + (escapeBlock body).length + 3 - 1 = (escapeBlock body).length + 3 + 2 := by
      omega
    rw [hsize, List.drop_succ_cons, List.drop_succ_cons, List.drop_length_add_append]
    rfl
  rw [toList_indentLines, hprinted, List.cons_append, List.cons_append, List.cons_append,
    List.append_assoc]
  exact (Token.kinds_token rfl (by decide) htoken).trans (by rw [hdrop]; rfl)

/-- A quoted string is on one line. -/
theorem notMem_printString (text : String) : '\n' ∉ (printString text).toList := by
  have hhex : ∀ n < 0xa0, '\n' ∉ (upperHex n).toList := by decide +kernel
  have hchar (c : Char) : '\n' ∉ escapeStringChar c := by
    unfold escapeStringChar
    split_ifs with _ _ _ _ hfeed _ _ hcontrol
    iterate 7 decide
    · have hsmall : c.toNat < 0xa0 := by
        simp only [Bool.or_eq_true, Bool.and_eq_true, decide_eq_true_eq] at hcontrol
        omega
      simpa using hhex _ hsmall
    · simpa using Ne.symm hfeed
  simp [printString, hchar]

/-- A quoted string has no line feeds that could be indented. -/
theorem scans_quoted (indent text : String) :
    Scans Apart (Layout.indentLines indent (printString text)) [.string text] := by
  have hline : Layout.indentLines indent (printString text) = printString text := by
    rw [← String.toList_inj, toList_indentLines,
      BlockString.indented_of_notMem (notMem_printString text)]
  rw [hline]
  exact Token.scans_printString text

/-- A description is one token, between quotes of either sort. -/
theorem scans_description {indent : String}
    (hindent : ∀ c ∈ indent.toList, BlockString.isIndent c) (description : Option String) :
    Scans Anything (Layout.description indent description) (descriptionUnits description) := by
  cases description with
  | none => exact Token.scans_empty
  | some text =>
    have hbefore := scans_indent hindent
    have hprint : (Value.string text (isBlockText text.toList)).print =
        if isBlockText text.toList then printBlockString text else printString text := rfl
    rw [Layout.description, descriptionUnits]
    simp only [hprint]
    split
    next h =>
      exact (hbefore.then (scans_blockString hindent h)).then Token.scans_feed
    next =>
      exact (hbefore.then (scans_quoted indent text)).seal rfl Token.scans_feed

/-! ## Parts on lines of their own -/

section Parts

variable {α : Type} {items : List α} {part : α → Layout.Part} {units : α → List TokenKind}
  {indent : String} (hindent : ∀ c ∈ indent.toList, BlockString.isIndent c)
  (h : ∀ a ∈ items, Scans Apart (part a).2 (units a))

include hindent in
/-- A part is read as its description and its own units. -/
theorem scans_part {p : Layout.Part} {units : List TokenKind} (h : Scans Apart p.2 units) :
    Scans Apart (Layout.part indent p) (descriptionUnits p.1 ++ units) := by
  have hbefore := (scans_description hindent p.1).then (scans_indent hindent)
  rw [List.append_nil] at hbefore
  exact hbefore.then h

include hindent h in
theorem scans_parts :
    Scans Apart (Text.joinWith "\n" (Layout.parts indent (items.map part)))
      (items.map fun a => descriptionUnits (part a).1 ++ units a).flatten := by
  rw [← Token.intercalate_nil]
  refine Token.scans_feed.joinWith rfl ?_
  cases items with
  | nil => exact .nil
  | cons first rest =>
    rw [List.forall_mem_cons] at h
    refine .cons (scans_part hindent h.1) ?_
    rw [List.map_map]
    refine Token.forall₂_map fun a ha => ?_
    have hpart := scans_part hindent (h.2 a ha)
    have hgap : Scans Anything (if (part a).1.isSome then "\n" else "") [] := by
      split
      · exact Token.scans_feed
      · exact Token.scans_empty
    exact hgap.then hpart

omit hindent in
include h in
/-- Parts between braces are read in order. Without parts there are no braces. -/
theorem scans_block :
    Scans Anything (Layout.block (items.map part))
      (enclosed .braceLeft .braceRight
        (items.map fun a => descriptionUnits (part a).1 ++ units a)) := by
  rw [Layout.block, enclosed, List.isEmpty_map, List.isEmpty_map]
  split
  · exact Token.scans_empty
  · exact Token.Scans.enclose (scans_marks rfl rfl)
      (scans_parts (by simp [BlockString.isIndent]) h) rfl (scans_marks rfl rfl)

end Parts

theorem separates_block (ps : List Layout.Part) : Separates (Layout.block ps) := by
  rw [Layout.block]
  split
  · exact Token.separates_empty
  · refine Token.separates_of_opensApart ?_
    simp [Token.opensApart]
    rfl

/-! ## Arguments and fields -/

def printedDefault : Option Value → String
  | none => ""
  | some value => " = " ++ value.print

theorem scans_default {default : Option Value} (h : ∀ v ∈ default, v.IsWritable) :
    Scans Apart (printedDefault default) (defaultUnits default) := by
  have hequals : Scans Anything " = " [.punctuator .equals] := scans_marks rfl rfl
  cases default with
  | none => exact Token.scans_empty
  | some v => exact hequals.then (h v rfl).scans

theorem separates_default (default : Option Value) : Separates (printedDefault default) := by
  cases default with
  | none => exact Token.separates_empty
  | some v =>
    refine Token.separates_of_opensApart ?_
    simp [Token.opensApart, printedDefault]
    rfl

/-- An argument or an input field, without its description. -/
theorem InputValueDef.IsWritable.scans {d : InputValueDef} (h : d.IsWritable) :
    Scans Apart (Layout.inputValue d).2 (.name d.name :: .punctuator .colon ::
      (d.type.units ++ (defaultUnits d.defaultValue ++ directiveUnits d.directives))) := by
  have htext : (Layout.inputValue d).2 =
      d.name ++ ": " ++ d.type.print ++ printedDefault d.defaultValue ++
        Layout.directives d.directives := rfl
  have hdefault := (scans_named h.name h.type.scans).append (separates_default d.defaultValue)
    (scans_default h.defaultValue)
  have hall := hdefault.append (separates_directives _) (scans_directives h.directives)
  rw [htext]
  simpa using hall

/-- Arguments are read alike on one line and on lines of their own. -/
theorem scans_arguments {indent : String} (hindent : ∀ c ∈ indent.toList, BlockString.isIndent c)
    {ds : List InputValueDef} (h : ∀ d ∈ ds, d.IsWritable) :
    Scans Anything (Layout.arguments indent ds) (argumentUnits ds) := by
  have hscans := fun d hd => (h d hd).scans
  unfold Layout.arguments argumentUnits
  dsimp only
  split_ifs with hempty hplain
  · have hnil : ds = [] := by simpa using hempty
    rw [hnil]
    exact Token.scans_empty
  · -- None of the arguments is described, so they stand on one line.
    have hunits : ds.map InputValueDef.units = ds.map fun d => .name d.name :: .punctuator .colon ::
        (d.type.units ++ (defaultUnits d.defaultValue ++ directiveUnits d.directives)) := by
      refine List.map_congr_left fun d hd => ?_
      have hnone : d.description = none := by
        have := List.all_eq_true.mp hplain _ (List.mem_map_of_mem hd)
        simpa [Layout.inputValue] using this
      rw [InputValueDef.units, hnone]
      rfl
    rw [List.map_map, hunits, enclosed, if_neg (by simpa using hempty)]
    exact Token.Scans.enclose (scans_marks rfl rfl) (Token.scans_list hscans) rfl
      (scans_marks rfl rfl)
  · have hinner : ∀ c ∈ ("  " ++ indent).toList, BlockString.isIndent c := by
      simpa [BlockString.isIndent] using hindent
    have hopening : Scans Anything "(\n" [.punctuator .parenLeft] := scans_marks rfl rfl
    have hclosing : Scans Anything ")" [.punctuator .parenRight] := scans_marks rfl rfl
    have hlines := (hopening.then (scans_parts hinner hscans)).seal rfl Token.scans_feed
    have hall := (hlines.then (scans_indent hindent)).then hclosing
    have hunits : ds.map InputValueDef.units = ds.map fun d =>
        descriptionUnits (Layout.inputValue d).1 ++ .name d.name :: .punctuator .colon ::
          (d.type.units ++ (defaultUnits d.defaultValue ++ directiveUnits d.directives)) := rfl
    rw [enclosed, if_neg (by simpa using hempty), hunits]
    simpa using hall

theorem separates_arguments (indent : String) (ds : List InputValueDef) :
    Separates (Layout.arguments indent ds) := by
  unfold Layout.arguments
  dsimp only
  split_ifs
  · exact Token.separates_empty
  all_goals
    refine Token.separates_of_opensApart ?_
    simp [Token.opensApart]
    rfl

/-- A field, without its description. -/
theorem FieldDef.IsWritable.scans {d : FieldDef} (h : d.IsWritable) :
    Scans Apart (Layout.field d).2 (.name d.name :: (argumentUnits d.arguments ++
      .punctuator .colon :: (d.type.units ++ directiveUnits d.directives))) := by
  have htext : (Layout.field d).2 =
      d.name ++ Layout.arguments "  " d.arguments ++ ": " ++ d.type.print ++
        Layout.directives d.directives := rfl
  have hindent : ∀ c ∈ "  ".toList, BlockString.isIndent c := by simp [BlockString.isIndent]
  have harguments := (scans_name h.name).append (separates_arguments "  " d.arguments)
    (scans_arguments hindent h.arguments).free
  have htype := (harguments.seal rfl scans_colon).then h.type.scans
  have hall := htype.append (separates_directives _) (scans_directives h.directives)
  rw [htext]
  simpa using hall

theorem EnumValueDef.IsWritable.scans {d : EnumValueDef} (h : d.IsWritable) :
    Scans Apart (Layout.enumValue d).2 (.name d.name :: directiveUnits d.directives) :=
  (scans_name h.name).append (separates_directives _) (scans_directives h.directives)

/-! ## Definitions -/

theorem scans_fields {fields : List FieldDef} (h : ∀ d ∈ fields, d.IsWritable) :
    Scans Anything (Layout.block (fields.map Layout.field))
      (enclosed .braceLeft .braceRight (fields.map FieldDef.units)) :=
  scans_block fun d hd => (h d hd).scans

theorem scans_parents {parents : List String} (h : ∀ parent ∈ parents, Text.isIdentifier parent) :
    Scans Apart (Layout.names " implements " " & " parents) (parentUnits parents) := by
  rw [Layout.names, parentUnits]
  split
  · exact Token.scans_empty
  · have hword : Scans Anything (" " ++ "implements" ++ " ") [.name "implements"] :=
      (scans_blank.then (scans_name (by decide))).blank
    exact hword.then (Token.scans_separated (scans_marks rfl rfl) rfl h)

theorem separates_names {mark : String} (h : Token.opensApart mark) (separator : String)
    (names : List String) : Separates (Layout.names mark separator names) := by
  rw [Layout.names]
  split
  · exact Token.separates_empty
  · intro rest _
    rw [String.toList_append, List.append_assoc]
    exact Token.apart_of_opensApart h _

theorem scans_members {members : List String} (h : ∀ member ∈ members, Text.isIdentifier member) :
    Scans Apart (Layout.names " = " " | " members) (memberUnits members) := by
  rw [Layout.names, memberUnits]
  split
  · exact Token.scans_empty
  · have hequals : Scans Anything " = " [.punctuator .equals] := scans_marks rfl rfl
    exact hequals.then (Token.scans_separated (scans_marks rfl rfl) rfl h)

theorem scans_word {word name : String} (hword : Text.isIdentifier word)
    (hname : Text.isIdentifier name) :
    Scans Apart (word ++ " " ++ name) [.name word, .name name] :=
  (scans_name hword).blank.then (scans_name hname)

/-- What stands behind the name of an object or interface type. -/
theorem scans_parts_of_type {parents : List String} {directives : List Directive}
    {fields : List FieldDef} {start : String} {units : List TokenKind}
    (hstart : Scans Apart start units)
    (hparents : ∀ parent ∈ parents, Text.isIdentifier parent)
    (hdirectives : ∀ d ∈ directives, d.IsWritable) (hfields : ∀ d ∈ fields, d.IsWritable) :
    Scans Apart (start ++ Layout.names " implements " " & " parents ++ Layout.directives directives
        ++ Layout.block (fields.map Layout.field))
      (units ++ (parentUnits parents ++ (directiveUnits directives ++
        enclosed .braceLeft .braceRight (fields.map FieldDef.units)))) := by
  have hnames := hstart.append (separates_names rfl _ _) (scans_parents hparents)
  have happlied := hnames.append (separates_directives _) (scans_directives hdirectives)
  have hall := happlied.append (separates_block _) (scans_fields hfields).free
  simpa using hall

/-- A type of any kind, without its description. -/
theorem TypeDef.IsWritable.scans {d : TypeDef} (h : d.IsWritable) :
    Scans Apart (Layout.type d) (.name d.body.keyword :: .name d.name ::
      d.body.units d.directives) := by
  obtain ⟨description, name, directives, body⟩ := d
  obtain ⟨hname, hdirectives, hbody⟩ := h
  have happlied := scans_directives hdirectives
  have hseparates := separates_directives directives
  -- A word, the name and the directives come first for every kind; what follows differs.
  cases body with
  | scalar =>
    have hstart := scans_word (show Text.isIdentifier "scalar" by decide) hname
    exact hstart.append hseparates happlied
  | object parents fields =>
    have hstart := scans_word (show Text.isIdentifier "type" by decide) hname
    exact scans_parts_of_type hstart hbody.1 hdirectives hbody.2
  | interface parents fields =>
    have hstart := scans_word (show Text.isIdentifier "interface" by decide) hname
    exact scans_parts_of_type hstart hbody.1 hdirectives hbody.2
  | union members =>
    have hstart := scans_word (show Text.isIdentifier "union" by decide) hname
    exact (hstart.append hseparates happlied).append (separates_names rfl _ _) (scans_members hbody)
  | enum values =>
    have hstart := scans_word (show Text.isIdentifier "enum" by decide) hname
    have hvalues : Scans Anything _ (enclosed _ _ (values.map EnumValueDef.units)) :=
      scans_block fun d hd => (hbody d hd).scans
    exact (hstart.append hseparates happlied).append (separates_block _) hvalues.free
  | inputObject fields =>
    have hstart := scans_word (show Text.isIdentifier "input" by decide) hname
    have hfields : Scans Anything _ (enclosed _ _ (fields.map InputValueDef.units)) :=
      scans_block fun d hd => (hbody d hd).scans
    exact (hstart.append hseparates happlied).append (separates_block _) hfields.free

/-- A directive has at least one place, so the word before them is always there. -/
theorem DirectiveDef.IsWritable.scans {d : DirectiveDef} (h : d.IsWritable) :
    Scans Apart (Layout.directiveDef d) (.name "directive" :: .punctuator .at :: .name d.name ::
      (argumentUnits d.arguments ++ ((if d.repeatable then [.name "repeatable"] else []) ++
        .name "on" :: separated .pipe d.locations))) := by
  -- A location is one of a fixed list of words.
  have hplaces : ∀ place ∈ d.locations, Text.isIdentifier place := by
    have hall : ∀ place ∈ BuiltIn.directiveLocations, Text.isIdentifier place := by decide
    exact fun place hmem => hall place (h.locations.2 place hmem)
  have hrepeatable : Scans Apart (if d.repeatable then " repeatable" else "")
      (if d.repeatable then [.name "repeatable"] else []) := by
    split
    · exact scans_blank.then (scans_name (show Text.isIdentifier "repeatable" by decide))
    · exact Token.scans_empty
  have hseparates : Separates (if d.repeatable then " repeatable" else "") := by
    split
    · exact Token.separates_of_opensApart rfl
    · exact Token.separates_empty
  have hon : Scans Anything (" " ++ "on" ++ " ") [.name "on"] :=
    (scans_blank.then (scans_name (by decide))).blank
  have hlocations : Scans Apart (Layout.names " on " " | " d.locations)
      (.name "on" :: separated .pipe d.locations) := by
    rw [Layout.names, if_neg (by simpa using h.locations.1)]
    exact hon.then (Token.scans_separated (scans_marks rfl rfl) rfl hplaces)
  have hmark : Scans Anything "@" [.punctuator .at] := scans_marks rfl rfl
  have hstart : Scans Apart ("directive" ++ " " ++ "@" ++ d.name)
      [.name "directive", .punctuator .at, .name d.name] :=
    ((scans_name (by decide)).blank.then hmark).then (scans_name h.name)
  have harguments := hstart.append (separates_arguments "" d.arguments)
    (scans_arguments (by simp) h.arguments).free
  have hall := (harguments.append hseparates hrepeatable).append (separates_names rfl _ _)
    hlocations
  rw [Layout.directiveDef]
  simpa using hall

/-- The schema, without its description. -/
theorem SchemaDef.IsWritable.scans {d : SchemaDef} (h : d.IsWritable) :
    Scans Apart (Layout.schema d) (.name "schema" :: (directiveUnits d.directives ++
      enclosed .braceLeft .braceRight (d.operations.map operationUnits))) := by
  have hlabel (kind : OperationKind) : Text.isIdentifier kind.label := by
    cases kind <;> decide
  have hoperations : Scans Anything (Layout.block (d.operations.map fun operation =>
      (none, operation.1.label ++ ": " ++ operation.2)))
      (enclosed .braceLeft .braceRight (d.operations.map operationUnits)) :=
    scans_block fun operation hmem =>
      scans_named (hlabel operation.1) (scans_name (h.operations.2 operation hmem))
  have hstart := (scans_name (show Text.isIdentifier "schema" by decide)).append
    (separates_directives _) (scans_directives h.directives)
  exact hstart.append (separates_block _) hoperations.free

/-- Every definition that can be written has a text, which is read as its units. -/
theorem Definition.IsWritable.scans {d : Definition} (h : d.IsWritable) :
    ∃ text, Layout.definition? d = some text ∧ Scans Apart text d.units := by
  have hdescribed {text : String} {units : List TokenKind} (description : Option String)
      (htext : Scans Apart text units) :
      Scans Apart (Layout.description "" description ++ text)
        (descriptionUnits description ++ units) :=
    (scans_description (by simp) description).then htext
  cases d with
  | schema d => exact ⟨_, rfl, hdescribed d.description (SchemaDef.IsWritable.scans h)⟩
  | type d => exact ⟨_, rfl, hdescribed d.description (TypeDef.IsWritable.scans h)⟩
  | directive d => exact ⟨_, rfl, hdescribed d.description (DirectiveDef.IsWritable.scans h)⟩
  | schemaExtension d | typeExtension d | operation d | fragment d => exact h.elim

/-! ## Documents -/

/-- A printed document is read as its units. -/
theorem Document.kinds_print {document : Document} (h : ∀ d ∈ document, d.IsWritable) :
    Token.kinds document.print.toList = document.flatMap Definition.units ++ [.endOfText] := by
  have hall : List.Forall₂ (Scans Apart) (document.filterMap Layout.definition?)
      (document.map Definition.units) := by
    induction document with
    | nil => exact .nil
    | cons d rest ih =>
      rw [List.forall_mem_cons] at h
      obtain ⟨text, htext, hscans⟩ := h.1.scans
      rw [List.filterMap_cons, htext]
      exact .cons hscans (ih h.2)
  have hgap : Scans Anything "\n\n" [] := scans_marks rfl rfl
  have hprint := hgap.joinWith rfl hall [] (fun c hc => by simp at hc)
  rw [List.append_nil, Token.intercalate_nil, Token.kinds_nil, ← List.flatMap_def] at hprint
  exact hprint

end SchemaClasses
