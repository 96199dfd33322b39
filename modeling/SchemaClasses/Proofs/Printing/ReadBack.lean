import SchemaClasses.Proofs.Printing.Reads

/-!
# Printed documents are read back

The units of a definition are read as the definition that they are those of, but for the places in
it, unless a default nests too deeply; then they are not read at all. So a document that can be
written is read back from its text exactly if it has definitions and none of its defaults nests too
deeply.
-/

namespace SchemaClasses

/-! ## Places -/

def Argument.withoutOffset (a : Argument) : Argument :=
  { a with valueOffset := 0 }

def Directive.withoutOffsets (d : Directive) : Directive :=
  { d with arguments := d.arguments.map Argument.withoutOffset, offset := 0 }

def InputValueDef.withoutOffsets (d : InputValueDef) : InputValueDef :=
  { d with directives := d.directives.map Directive.withoutOffsets }

def FieldDef.withoutOffsets (d : FieldDef) : FieldDef :=
  { d with arguments := d.arguments.map InputValueDef.withoutOffsets
           directives := d.directives.map Directive.withoutOffsets }

def EnumValueDef.withoutOffsets (d : EnumValueDef) : EnumValueDef :=
  { d with directives := d.directives.map Directive.withoutOffsets }

def TypeBody.withoutOffsets : TypeBody → TypeBody
  | .scalar => .scalar
  | .object parents fields => .object parents (fields.map FieldDef.withoutOffsets)
  | .interface parents fields => .interface parents (fields.map FieldDef.withoutOffsets)
  | .union members => .union members
  | .enum values => .enum (values.map EnumValueDef.withoutOffsets)
  | .inputObject fields => .inputObject (fields.map InputValueDef.withoutOffsets)

def TypeDef.withoutOffsets (d : TypeDef) : TypeDef :=
  { d with directives := d.directives.map Directive.withoutOffsets, body := d.body.withoutOffsets }

def DirectiveDef.withoutOffsets (d : DirectiveDef) : DirectiveDef :=
  { d with arguments := d.arguments.map InputValueDef.withoutOffsets }

def SchemaDef.withoutOffsets (d : SchemaDef) : SchemaDef :=
  { d with directives := d.directives.map Directive.withoutOffsets }

/-- A definition of the type system without the places in it. Executable definitions are left as
    they are, since none of them is printed. -/
def Definition.withoutOffsets : Definition → Definition
  | .schema d => .schema d.withoutOffsets
  | .schemaExtension d => .schemaExtension d.withoutOffsets
  | .type d => .type d.withoutOffsets
  | .typeExtension d => .typeExtension d.withoutOffsets
  | .directive d => .directive d.withoutOffsets
  | .operation d => .operation d
  | .fragment d => .fragment d

def Document.withoutOffsets (document : Document) : Document :=
  document.map Definition.withoutOffsets

/-! ## Depth -/

theorem Value.itemsDepth_le {items : List Value} {depth : Nat} :
    itemsDepth items ≤ depth ↔ ∀ item ∈ items, item.depth ≤ depth := by
  induction items with
  | nil => simp [itemsDepth]
  | cons item rest ih => rw [itemsDepth, Nat.max_le, ih, List.forall_mem_cons]

theorem Value.fieldsDepth_le {fields : List (String × Value)} {depth : Nat} :
    fieldsDepth fields ≤ depth ↔ ∀ field ∈ fields, field.2.depth ≤ depth := by
  induction fields with
  | nil => simp [fieldsDepth]
  | cons field rest ih => rw [fieldsDepth, Nat.max_le, ih, List.forall_mem_cons]

/-- The default nests no deeper than a text can write it. -/
def InputValueDef.IsShallow (d : InputValueDef) : Prop :=
  ∀ v ∈ d.defaultValue, v.depth ≤ Parser.maxDepth

def FieldDef.IsShallow (d : FieldDef) : Prop :=
  ∀ argument ∈ d.arguments, argument.IsShallow

def TypeBody.IsShallow : TypeBody → Prop
  | .object _ fields | .interface _ fields => ∀ d ∈ fields, d.IsShallow
  | .inputObject fields => ∀ d ∈ fields, d.IsShallow
  | .scalar | .union _ | .enum _ => True

def DirectiveDef.IsShallow (d : DirectiveDef) : Prop :=
  ∀ argument ∈ d.arguments, argument.IsShallow

def Definition.IsShallow : Definition → Prop
  | .type d => d.body.IsShallow
  | .directive d => d.IsShallow
  | .schema _ | .schemaExtension _ | .typeExtension _ | .operation _ | .fragment _ => True

/-- The defaults of a definition are those of its arguments and input fields. -/
theorem Definition.isShallow_iff {d : Definition} :
    d.IsShallow ↔ ∀ input ∈ d.inputValues, input.IsShallow := by
  cases d with
  | type d =>
    obtain ⟨text, name, directives, body⟩ := d
    cases body <;> simp [IsShallow, inputValues, TypeBody.IsShallow, FieldDef.IsShallow]
    · exact ⟨fun h input field hfield hinput => h field hfield input hinput,
        fun h field hfield input hinput => h input field hfield hinput⟩
    · exact ⟨fun h input field hfield hinput => h field hfield input hinput,
        fun h field hfield input hinput => h input field hfield hinput⟩
  | directive d => rfl
  | schema d | schemaExtension d | typeExtension d | operation d | fragment d =>
    simp [IsShallow, inputValues]

/-- No default is too deep if none of any definition is. -/
theorem Document.isTooDeep_eq_false {document : Document} :
    document.isTooDeep = false ↔ ∀ d ∈ document, d.IsShallow := by
  simp only [Definition.isShallow_iff, isTooDeep, List.any_eq_false, Bool.not_eq_true,
    InputValueDef.IsShallow]
  simp only [Bool.eq_false_iff, ne_eq, Option.any_eq_true, decide_eq_true_eq, not_exists, not_and,
    Nat.not_lt, Option.mem_def]

namespace Parser

variable {F : TokenKind → Prop} {kind : TokenKind} {units others : List TokenKind}

/-! ## What comes next -/

/-- A token of this kind does not go on with what stands before it. -/
def Ends (kind : TokenKind) : Prop :=
  ∀ p ∈ [Punctuator.bang, .equals, .at, .parenLeft, .braceLeft, .ampersand, .pipe],
    kind ≠ .punctuator p

/-- A token of this kind does not go on with applied directives. -/
def EndsDirectives (kind : TokenKind) : Prop :=
  kind ≠ .punctuator .at ∧ kind ≠ .punctuator .parenLeft

/-- A token of this kind does not go on with the interfaces of a type. -/
def EndsParents (kind : TokenKind) : Prop :=
  kind ≠ .punctuator .ampersand ∧ kind ≠ .name "implements"

/-- A token of this kind does not go on with a definition. -/
def EndsDefinition (kind : TokenKind) : Prop :=
  Ends kind ∧ kind ≠ .name "implements"

theorem Ends.directives (h : Ends kind) : EndsDirectives kind :=
  ⟨h .at (by simp), h .parenLeft (by simp)⟩

theorem EndsDefinition.parents (h : EndsDefinition kind) : EndsParents kind :=
  ⟨h.1 .ampersand (by simp), h.2⟩

theorem ends_parenRight : Ends (.punctuator .parenRight) := by
  unfold Ends
  decide

theorem ends_braceRight : Ends (.punctuator .braceRight) := by
  unfold Ends
  decide

/-- What comes first in two rows of units. -/
theorem headD_append : (units ++ others).headD kind = units.headD (others.headD kind) := by
  cases units <;> rfl

/-- Parts between punctuators start with the first of these, or with what follows. -/
theorem headD_enclosed {opening close : Punctuator} {parts : List (List TokenKind)} (h : F kind)
    (hopening : F (.punctuator opening)) : F ((enclosed opening close parts).headD kind) := by
  rw [enclosed]
  split
  · exact h
  · exact hopening

theorem headD_directiveUnits {ds : List Directive} (h : F kind) (hat : F (.punctuator .at)) :
    F ((directiveUnits ds).headD kind) := by
  cases ds with
  | nil => exact h
  | cons d rest => exact hat

theorem headD_defaultUnits {default : Option Value} (h : F kind)
    (hequals : F (.punctuator .equals)) : F ((defaultUnits default).headD kind) := by
  cases default with
  | none => exact h
  | some v => exact hequals

theorem headD_memberUnits {members : List String} (h : F kind) (hequals : F (.punctuator .equals)) :
    F ((memberUnits members).headD kind) := by
  rw [memberUnits]
  split
  · exact h
  · exact hequals

/-! ## Literals -/

/-- The literal that a token is on its own. -/
def plain? : TokenKind → Option Value
  | .int n => some (.int n)
  | .float n => some (.float n)
  | .string content => some (.string content false)
  | .blockString content => some (.string content true)
  | .name text => some (namedValue text)
  | .punctuator _ | .endOfText | .fault _ => none

theorem plainValue_reads {v : Value} (h : plain? kind = some v) :
    Reads (plainValue true) [kind] Any (· = v) := by
  refine .current fun token htoken => ?_
  cases kind <;> cases h <;>
    · simp only [htoken]
      exact (reads_advance _).one fun _ _ => .pure rfl

/-- A literal of one token is read at every depth. -/
theorem value_reads_plain {v : Value} (h : plain? kind = some v) (depth : Nat) :
    Reads (value true depth) [kind] Any (· = v) := by
  cases depth <;>
    · refine .current fun token htoken => ?_
      rw [← htoken] at h
      split
      next heq => rw [heq] at h; cases h
      next heq => rw [heq] at h; cases h
      next => exact htoken ▸ plainValue_reads h

/-- A name that is none of the three words is an enumeration value. -/
theorem namedValue_of_notMem {name : String} (h : name ∉ ["true", "false", "null"]) :
    namedValue name = .enum name := by
  unfold namedValue
  split <;> simp_all

/-- No literal starts like the end of a list. -/
theorem exists_start {v : Value} (h : v.IsWritable) :
    ∃ kind more, v.units = kind :: more ∧ kind ≠ .punctuator .bracketRight := by
  cases h <;> exact ⟨_, _, rfl, by simp⟩

/-- A constant is read exactly if it nests no deeper than the depth left. -/
theorem value_decides {v : Value} (h : v.IsWritable) (depth : Nat) :
    Decides (value true depth) v.units Any (v.depth ≤ depth) (· = v) := by
  -- The induction is on the constant, for every number of levels that may still be opened.
  induction h generalizing depth with
  | int | float | string | null => exact (value_reads_plain rfl depth).iff (by simp [Value.depth])
  | boolean b => cases b <;> exact (value_reads_plain rfl depth).iff (by simp [Value.depth])
  | @enum name _ hword =>
    have hplain : plain? (.name name) = some (.enum name) :=
      congrArg some (namedValue_of_notMem hword)
    exact (value_reads_plain hplain depth).iff (by simp [Value.depth])
  | @list items hitems ih =>
    rw [Value.units, Value.unitsOfItems_eq]
    cases depth with
    | zero =>
      -- No level is left, so the bracket is the fault.
      refine .current fun token htoken => ?_
      simp only [htoken]
      exact failAt_decides (by simp [Value.depth])
    | succ depth =>
      have hparts :
          Items (value true depth) .bracketRight Any (·.depth ≤ depth) id Value.units items :=
        ⟨fun item hmem => ih item hmem depth, fun item hmem => by
          obtain ⟨kind, more, hunits, hclose⟩ := exists_start (hitems item hmem)
          exact ⟨kind, more, hunits, trivial, hclose⟩, trivial⟩
      refine .current fun token htoken => ?_
      simp only [htoken]
      refine Decides.iff ((anyBetween_decides hparts).last fun read hread => ?_)
        (Nat.succ_le_succ_iff.trans Value.itemsDepth_le)
      rw [List.map_id, List.map_id] at hread
      rw [hread]
  | @object fields _ hfields ih =>
    rw [Value.units, Value.unitsOfFields_eq]
    cases depth with
    | zero =>
      refine .current fun token htoken => ?_
      simp only [htoken]
      exact failAt_decides (by simp [Value.depth])
    | succ depth =>
      -- A field is its name, a colon and a constant one level further down.
      have hparts : Items (do
          let key ← name
          expect .colon
          return (key, ← value true depth)) .braceRight Any (·.2.depth ≤ depth) id
          (fun field => .name field.1 :: .punctuator .colon :: field.2.units) fields := by
        refine ⟨fun field hmem => ?_, fun field _ => ⟨_, _, rfl, trivial, by simp⟩, trivial⟩
        refine (reads_name field.1).one fun key hkey => (reads_expect .colon).one fun _ _ => ?_
        exact (ih field hmem depth).last fun v hv => by rw [hkey, hv]
      refine .current fun token htoken => ?_
      simp only [htoken]
      refine Decides.iff ((anyBetween_decides hparts).last fun read hread => ?_)
        (Nat.succ_le_succ_iff.trans Value.fieldsDepth_le)
      rw [List.map_id, List.map_id] at hread
      rw [hread]

/-! ## Type references -/

/-- A type before which no exclamation mark has been read yet. -/
def marked (base : TypeRef) : Parser TypeRef := do
  if ← accept .bang then return .nonNull base else return base

theorem marked_reads (base : TypeRef) :
    Reads (marked base) [] (· ≠ .punctuator .bang) (· = base) := by
  refine (reads_accept_not .bang).look (fun _ hkind => hkind) fun _ hnot => ?_
  rw [if_neg (by simp [hnot])]
  exact .pure rfl

theorem marked_reads_bang (base : TypeRef) :
    Reads (marked base) [.punctuator .bang] Any (· = .nonNull base) := by
  refine (reads_accept .bang).one fun _ haccept => ?_
  rw [if_pos haccept]
  exact .pure rfl

variable {depth : Nat}

theorem typeRef_reads_name {name : String} {Q : TypeRef → Prop}
    (h : Reads (marked (.named name)) units F Q) :
    Reads (typeRef depth) (.name name :: units) F Q := by
  cases depth <;>
    · refine (reads_accept_not .bracketLeft).look (fun _ _ => by simp) fun _ hnot => ?_
      rw [if_neg (by simp [hnot])]
      refine (reads_name name).one fun text htext => ?_
      rw [htext]
      exact h

/-- A list type takes one level from what is within it. -/
theorem typeRef_reads_list {item : TypeRef} {Q : TypeRef → Prop}
    (hitem : Reads (typeRef depth) item.units (· ≠ .punctuator .bang) (· = item))
    (h : Reads (marked (.list item)) units F Q) :
    Reads (typeRef (depth + 1))
      (.punctuator .bracketLeft :: (item.units ++ .punctuator .bracketRight :: units)) F Q := by
  refine (reads_accept .bracketLeft).one fun _ haccept => ?_
  rw [if_pos haccept]
  refine hitem.bind (fun _ _ => by simp) fun read hread => (reads_expect _).one fun _ _ => ?_
  rw [hread]
  exact h

/-- A type that excludes no null is read with and without the mark that does. -/
theorem typeRef_reads {type : TypeRef} (h : type.IsSpelled depth) :
    Reads (typeRef depth) type.units (· ≠ .punctuator .bang) (· = type) := by
  suffices hboth : Reads (typeRef depth) type.units (· ≠ .punctuator .bang) (· = type) ∧
      (type.isNonNull = false →
        Reads (typeRef depth) (type.units ++ [.punctuator .bang]) Any (· = .nonNull type)) from
    hboth.1
  induction h with
  | named h =>
    exact ⟨typeRef_reads_name (marked_reads _), fun _ => typeRef_reads_name (marked_reads_bang _)⟩
  | list h ih =>
    refine ⟨typeRef_reads_list ih.1 (marked_reads _), fun _ => ?_⟩
    rw [TypeRef.units, List.cons_append, List.append_assoc]
    exact typeRef_reads_list ih.1 (marked_reads_bang _)
  | nonNull h hmark ih =>
    exact ⟨(ih.2 hmark).before fun _ _ => trivial, nofun⟩

/-! ## Arguments and directives -/

/-- An argument is read but for the place of its value. -/
theorem argument_reads {a : Argument} (h : a.IsWritable) :
    Reads (argument true maxDepth) a.units Any (·.withoutOffset = a.withoutOffset) := by
  refine (reads_name a.name).one fun key hkey => (reads_expect .colon).one fun _ _ => ?_
  refine (reads_current (F := Any)).look (fun _ _ => trivial) fun start _ => ?_
  have hvalue := (value_decides h.value maxDepth).iff (iff_of_true trivial h.depth)
  exact hvalue.last fun v hv => by simp [Argument.withoutOffset, hkey, hv]

theorem arguments_reads {args : List Argument} (h : ∀ a ∈ args, a.IsWritable) :
    Reads (arguments true maxDepth) (enclosed .parenLeft .parenRight (args.map Argument.units))
      (· ≠ .punctuator .parenLeft)
      (·.map Argument.withoutOffset = args.map Argument.withoutOffset) := by
  have hparts : Items (argument true maxDepth) .parenRight Any (fun _ => True)
      Argument.withoutOffset Argument.units args :=
    ⟨fun a ha => argument_reads (h a ha), fun _ _ => ⟨_, _, rfl, trivial, by simp⟩, trivial⟩
  exact (optionalBetween_decides hparts).iff (by simp)

/-- Directives are read one by one. A token for each of them is fuel enough. -/
theorem directivesWith_reads {ds : List Directive} (h : ∀ d ∈ ds, d.IsWritable) {fuel : Nat}
    (hfuel : ds.length ≤ fuel) :
    Reads (directivesWith true maxDepth fuel) (directiveUnits ds) EndsDirectives
      (·.map Directive.withoutOffsets = ds.map Directive.withoutOffsets) := by
  induction ds generalizing fuel with
  | nil =>
    cases fuel with
    | zero => exact .pure rfl
    | succ fuel =>
      refine (reads_current (F := Any)).look (fun _ _ => trivial) fun start _ => ?_
      refine (reads_accept_not .at).look (fun _ hkind => hkind.1) fun _ hnot => ?_
      rw [if_neg (by simp [hnot])]
      exact .pure rfl
  | cons d rest ih =>
    obtain ⟨fuel, rfl⟩ := Nat.exists_eq_succ_of_ne_zero (Nat.ne_zero_of_lt hfuel)
    rw [List.forall_mem_cons] at h
    refine .current fun start _ => (reads_accept .at).one fun _ haccept => ?_
    rw [if_pos haccept]
    refine (reads_name d.name).one fun key hkey => ?_
    refine (arguments_reads h.1.arguments).bind (fun kind hkind => ?_) fun args hargs => ?_
    · exact headD_directiveUnits (F := (· ≠ .punctuator .parenLeft)) hkind.2 (by simp)
    refine (ih h.2 (Nat.le_of_succ_le_succ hfuel)).last fun ds hds => ?_
    rw [List.map_cons, List.map_cons, hds]
    simp [Directive.withoutOffsets, hkey, hargs]

theorem length_le_directiveUnits (ds : List Directive) :
    ds.length ≤ (directiveUnits ds).length := by
  induction ds with
  | nil => exact Nat.le_refl _
  | cons d rest ih =>
    rw [directiveUnits, List.flatMap_cons, List.length_append, List.length_cons]
    have hmark : 1 ≤ d.units.length := by simp [Directive.units]
    rw [directiveUnits] at ih
    omega

/-- The directives of a definition are read up to something that cannot belong to them. -/
theorem constDirectives_reads {ds : List Directive} (h : ∀ d ∈ ds, d.IsWritable) :
    Reads constDirectives (directiveUnits ds) EndsDirectives
      (·.map Directive.withoutOffsets = ds.map Directive.withoutOffsets) := by
  refine Decides.get (Q := fun tokens => ds.length ≤ tokens.length + 1) (fun tokens hle => ?_)
    fun tokens hfuel => directivesWith_reads h hfuel
  have := length_le_directiveUnits ds
  omega

/-! ## Descriptions -/

/-- A description is read, also if there is none. -/
theorem description_reads (text : Option String) :
    Reads description (descriptionUnits text) (isString · = false) (· = text) := by
  cases text with
  | none =>
    refine (reads_current (F := (isString · = false))).look (fun _ hkind => hkind) fun _ hnot => ?_
    rw [if_neg (by simp [hnot])]
    exact .pure rfl
  | some text =>
    refine .current fun token htoken => ?_
    rw [htoken, if_pos (by split <;> rfl)]
    refine (reads_advance _).one fun _ _ => .pure ?_
    split <;> rfl

/-! ## Inputs and fields -/

/-- A default is read exactly if it is not too deep, and with none there is nothing to read. -/
theorem defaultValue_decides {default : Option Value} (h : ∀ v ∈ default, v.IsWritable)
    {Q : InputValueDef → Prop} {f : Option Value → Parser InputValueDef}
    (hfollow : ∀ kind, F kind → others.headD kind ≠ .punctuator .equals)
    (hf : Reads (f default) others F Q) :
    Decides (do
        if ← accept .equals then (some <$> value true maxDepth) >>= f else pure none >>= f)
      (defaultUnits default ++ others) F (∀ v ∈ default, v.depth ≤ maxDepth) Q := by
  cases default with
  | none =>
    refine (reads_accept_not .equals).look hfollow fun _ hnot => ?_
    rw [if_neg (by simp [hnot])]
    exact Decides.iff hf (by simp)
  | some v =>
    refine (reads_accept .equals).one fun _ haccept => ?_
    rw [if_pos haccept]
    have hvalue := (value_decides (h v rfl) maxDepth).map (R := (· = some v)) fun w hw => by rw [hw]
    refine Decides.iff (hvalue.bind (fun _ _ => trivial) fun read hread => ?_) (by simp)
    rw [hread]
    exact hf

/-- An argument or an input field is read exactly if its default is. -/
theorem inputValueDef_decides {d : InputValueDef} (h : d.IsWritable) :
    Decides inputValueDef d.units Ends d.IsShallow (·.withoutOffsets = d.withoutOffsets) := by
  refine (description_reads d.description).bind (fun _ _ => rfl) fun text htext => ?_
  refine (reads_name d.name).one fun key hkey => (reads_expect .colon).one fun _ _ => ?_
  refine (typeRef_reads h.type).bind (fun kind hkind => ?_) fun type htype => ?_
  · rw [headD_append]
    refine headD_defaultUnits (F := (· ≠ .punctuator .bang)) ?_ (by simp)
    exact headD_directiveUnits (F := (· ≠ .punctuator .bang)) (hkind .bang (by simp)) (by simp)
  refine defaultValue_decides h.defaultValue (fun kind hkind => ?_) ?_
  · exact headD_directiveUnits (F := (· ≠ .punctuator .equals)) (hkind .equals (by simp)) (by simp)
  exact ((constDirectives_reads h.directives).before fun _ => Ends.directives).last fun ds hds => by
    simp [InputValueDef.withoutOffsets, htext, hkey, htype, hds]

/-- Parts that each start with a description or a name. -/
theorem described_items {α : Type} {item : Parser α} {close : Punctuator} {good : α → Prop}
    {erase : α → α} {unitsOf : α → List TokenKind} {parts : List α}
    (hstart : ∀ a, ∃ text name more, unitsOf a = descriptionUnits text ++ .name name :: more)
    (h : ∀ a ∈ parts, Decides item (unitsOf a) Ends (good a) (erase · = erase a))
    (hclose : Ends (.punctuator close)) : Items item close Ends good erase unitsOf parts := by
  refine ⟨h, fun a _ => ?_, hclose⟩
  obtain ⟨text, name, more, hunits⟩ := hstart a
  rw [hunits]
  cases text with
  | none => exact ⟨_, _, rfl, fun _ _ => by simp, by simp⟩
  | some text => exact ⟨_, _, rfl, fun _ _ => by split <;> simp, by split <;> simp⟩

/-- Arguments are read exactly if each of them is. -/
theorem argumentDefs_decides {ds : List InputValueDef} (h : ∀ d ∈ ds, d.IsWritable) :
    Decides argumentDefs (argumentUnits ds) (· ≠ .punctuator .parenLeft) (∀ d ∈ ds, d.IsShallow)
      (·.map InputValueDef.withoutOffsets = ds.map InputValueDef.withoutOffsets) :=
  optionalBetween_decides (described_items (fun _ => ⟨_, _, _, rfl⟩)
    (fun d hd => inputValueDef_decides (h d hd)) ends_parenRight)

theorem inputFieldDefs_decides {ds : List InputValueDef} (h : ∀ d ∈ ds, d.IsWritable) :
    Decides inputFieldDefs (enclosed .braceLeft .braceRight (ds.map InputValueDef.units))
      (· ≠ .punctuator .braceLeft) (∀ d ∈ ds, d.IsShallow)
      (·.map InputValueDef.withoutOffsets = ds.map InputValueDef.withoutOffsets) :=
  optionalBetween_decides (described_items (fun _ => ⟨_, _, _, rfl⟩)
    (fun d hd => inputValueDef_decides (h d hd)) ends_braceRight)

/-- A field is read exactly if its arguments are. -/
theorem fieldDef_decides {d : FieldDef} (h : d.IsWritable) :
    Decides fieldDef d.units Ends d.IsShallow (·.withoutOffsets = d.withoutOffsets) := by
  refine (description_reads d.description).bind (fun _ _ => rfl) fun text htext => ?_
  refine (reads_name d.name).one fun key hkey => ?_
  refine (argumentDefs_decides h.arguments).bind (fun _ _ => by simp) fun args hargs => ?_
  refine (reads_expect .colon).one fun _ _ => ?_
  refine (typeRef_reads h.type).bind (fun kind hkind => ?_) fun type htype => ?_
  · exact headD_directiveUnits (F := (· ≠ .punctuator .bang)) (hkind .bang (by simp)) (by simp)
  exact ((constDirectives_reads h.directives).before fun _ => Ends.directives).last fun ds hds => by
    simp [FieldDef.withoutOffsets, htext, hkey, hargs, htype, hds]

theorem fieldDefs_decides {ds : List FieldDef} (h : ∀ d ∈ ds, d.IsWritable) :
    Decides fieldDefs (enclosed .braceLeft .braceRight (ds.map FieldDef.units))
      (· ≠ .punctuator .braceLeft) (∀ d ∈ ds, d.IsShallow)
      (·.map FieldDef.withoutOffsets = ds.map FieldDef.withoutOffsets) :=
  optionalBetween_decides (described_items (fun _ => ⟨_, _, _, rfl⟩)
    (fun d hd => fieldDef_decides (h d hd)) ends_braceRight)

/-- A value of an enumeration has nothing that can be too deep. -/
theorem enumValueDef_reads {d : EnumValueDef} (h : d.IsWritable) :
    Reads enumValueDef d.units Ends (·.withoutOffsets = d.withoutOffsets) := by
  refine (description_reads d.description).bind (fun _ _ => rfl) fun text htext => ?_
  refine .current fun token htoken => ?_
  rw [if_neg (by simpa [htoken, TokenKind.content?] using h.word)]
  refine (reads_name d.name).one fun key hkey => ?_
  exact ((constDirectives_reads h.directives).before fun _ => Ends.directives).last fun ds hds => by
    simp [EnumValueDef.withoutOffsets, htext, hkey, hds]

theorem enumValueDefs_reads {ds : List EnumValueDef} (h : ∀ d ∈ ds, d.IsWritable) :
    Reads enumValueDefs (enclosed .braceLeft .braceRight (ds.map EnumValueDef.units))
      (· ≠ .punctuator .braceLeft)
      (·.map EnumValueDef.withoutOffsets = ds.map EnumValueDef.withoutOffsets) := by
  have hparts : Items enumValueDef .braceRight Ends (fun _ => True) EnumValueDef.withoutOffsets
      EnumValueDef.units ds :=
    described_items (fun _ => ⟨_, _, _, rfl⟩) (fun d hd => enumValueDef_reads (h d hd))
      ends_braceRight
  exact (optionalBetween_decides hparts).iff (by simp)

/-- Interfaces are read up to something that names no further one. -/
theorem interfaces_reads (parents : List String) :
    Reads interfaces (parentUnits parents) EndsParents (· = parents) := by
  rw [parentUnits]
  split
  next hnone =>
    refine (reads_acceptKeyword_not "implements").look (fun _ hkind => hkind.2) fun _ hnot => ?_
    rw [if_neg (by simp [hnot])]
    exact .pure (List.isEmpty_iff.mp hnone).symm
  next hsome =>
    refine (reads_acceptKeyword "implements").one fun _ haccept => ?_
    rw [if_pos haccept]
    refine (manySeparated_reads (fun _ _ => reads_name _) ?_).before fun _ hkind => hkind.1
    simpa using hsome

/-- Members are read up to something that names no further one. -/
theorem unionMembers_reads (members : List String) :
    Reads unionMembers (memberUnits members)
      (fun kind => kind ≠ .punctuator .pipe ∧ kind ≠ .punctuator .equals) (· = members) := by
  rw [memberUnits]
  split
  next hnone =>
    refine (reads_accept_not .equals).look (fun _ hkind => hkind.2) fun _ hnot => ?_
    rw [if_neg (by simp [hnot])]
    exact .pure (List.isEmpty_iff.mp hnone).symm
  next hsome =>
    refine (reads_accept .equals).one fun _ haccept => ?_
    rw [if_pos haccept]
    refine (manySeparated_reads (fun _ _ => reads_name _) ?_).before fun _ hkind => hkind.1
    simpa using hsome

/-! ## Definitions -/

section Types

variable {directives : List Directive} (hdirectives : ∀ d ∈ directives, d.IsWritable)

include hdirectives in
/-- The interfaces, directives and fields of a type. -/
theorem typeParts_of_fields_decides {parents : List String} {fields : List FieldDef}
    {Q : List Directive × TypeBody → Prop} {body : List String → List FieldDef → TypeBody}
    (hfields : ∀ d ∈ fields, d.IsWritable)
    (hQ : ∀ ds fs, ds.map Directive.withoutOffsets = directives.map Directive.withoutOffsets →
      fs.map FieldDef.withoutOffsets = fields.map FieldDef.withoutOffsets →
      Q (ds, body parents fs)) :
    Decides (do
        let parents ← interfaces
        let dirs ← constDirectives
        return (dirs, body parents (← fieldDefs)))
      (parentUnits parents ++ (directiveUnits directives ++
        enclosed .braceLeft .braceRight (fields.map FieldDef.units))) EndsDefinition
      (∀ d ∈ fields, d.IsShallow) Q := by
  refine (interfaces_reads parents).bind (fun kind hkind => ?_) fun read hread => ?_
  · rw [headD_append]
    exact headD_directiveUnits (headD_enclosed hkind.parents (by simp [EndsParents]))
      (by simp [EndsParents])
  refine (constDirectives_reads hdirectives).bind (fun kind hkind => ?_) fun ds hds => ?_
  · exact headD_enclosed hkind.1.directives (by simp [EndsDirectives])
  refine ((fieldDefs_decides hfields).before fun kind hkind => hkind.1 .braceLeft (by simp)).last
    fun fs hfs => ?_
  rw [hread]
  exact hQ ds fs hds hfs

include hdirectives in
/-- The kind of a type decides what follows its name. -/
theorem typeParts_decides {body : TypeBody} (h : body.IsWritable) :
    Decides (typeParts body.keyword) (body.units directives) EndsDefinition body.IsShallow
      fun parts => parts.1.map Directive.withoutOffsets = directives.map Directive.withoutOffsets ∧
        parts.2.withoutOffsets = body.withoutOffsets := by
  have happlied := constDirectives_reads hdirectives
  cases body with
  | scalar =>
    exact (happlied.before fun _ hkind => hkind.1.directives).last fun ds hds => ⟨hds, rfl⟩
  | object parents fields =>
    exact typeParts_of_fields_decides hdirectives h.2 fun ds fs hds hfs =>
      ⟨hds, by simp [TypeBody.withoutOffsets, hfs]⟩
  | interface parents fields =>
    exact typeParts_of_fields_decides hdirectives h.2 fun ds fs hds hfs =>
      ⟨hds, by simp [TypeBody.withoutOffsets, hfs]⟩
  | union members =>
    refine happlied.bind (fun kind hkind => ?_) fun ds hds => ?_
    · exact headD_memberUnits hkind.1.directives (by simp [EndsDirectives])
    refine ((unionMembers_reads members).before fun kind hkind => ?_).last fun read hread => ?_
    · exact ⟨hkind.1 .pipe (by simp), hkind.1 .equals (by simp)⟩
    · exact ⟨hds, by rw [hread]⟩
  | enum values =>
    refine happlied.bind (fun kind hkind => ?_) fun ds hds => ?_
    · exact headD_enclosed hkind.1.directives (by simp [EndsDirectives])
    refine ((enumValueDefs_reads h).before fun kind hkind => ?_).last fun read hread => ?_
    · exact hkind.1 .braceLeft (by simp)
    · exact ⟨hds, by simp [TypeBody.withoutOffsets, hread]⟩
  | inputObject fields =>
    refine happlied.bind (fun kind hkind => ?_) fun ds hds => ?_
    · exact headD_enclosed hkind.1.directives (by simp [EndsDirectives])
    refine ((inputFieldDefs_decides h).before fun kind hkind => ?_).last fun read hread => ?_
    · exact hkind.1 .braceLeft (by simp)
    · exact ⟨hds, by simp [TypeBody.withoutOffsets, hread]⟩

end Types

/-- A type is read exactly if its parts are. -/
theorem typeDef_decides {d : TypeDef} (h : d.IsWritable) :
    Decides (typeDef d.body.keyword) d.units EndsDefinition d.body.IsShallow
      (·.withoutOffsets = d.withoutOffsets) := by
  refine (description_reads d.description).bind (fun _ _ => rfl) fun text htext => ?_
  refine (reads_expectKeyword _).one fun _ _ => (reads_name d.name).one fun key hkey => ?_
  refine (typeParts_decides h.directives h.body).last fun parts hparts => ?_
  simp [TypeDef.withoutOffsets, htext, hkey, hparts]

theorem directiveLocation_reads {place : String} (h : place ∈ BuiltIn.directiveLocations) :
    Reads directiveLocation [.name place] Any (· = place) := by
  refine .current fun token _ => (reads_name place).one fun word hword => ?_
  rw [hword, if_pos (List.contains_iff_mem.mpr h)]
  exact .pure rfl

/-- A directive is read exactly if its arguments are. -/
theorem directiveDef_decides {d : DirectiveDef} (h : d.IsWritable) :
    Decides directiveDef d.units EndsDefinition d.IsShallow
      (·.withoutOffsets = d.withoutOffsets) := by
  refine (description_reads d.description).bind (fun _ _ => rfl) fun text htext => ?_
  refine (reads_expectKeyword _).one fun _ _ => (reads_expect .at).one fun _ _ => ?_
  refine (reads_name d.name).one fun key hkey => ?_
  refine (argumentDefs_decides h.arguments).bind (fun kind _ => ?_) fun args hargs => ?_
  · rw [headD_append]
    split <;> simp
  -- The word is optional; without it the keyword before the locations comes at once.
  have hrepeatable : Reads (acceptKeyword "repeatable")
      (if d.repeatable then [.name "repeatable"] else []) (· ≠ .name "repeatable")
      (· = d.repeatable) := by
    split
    next hyes => exact hyes ▸ (reads_acceptKeyword _).before fun _ _ => trivial
    next hno => simpa [hno] using reads_acceptKeyword_not "repeatable"
  refine hrepeatable.bind (fun _ _ => by simp) fun repeatable hr => ?_
  refine (reads_expectKeyword "on").one fun _ _ => ?_
  have hplaces : Reads (manySeparated .pipe directiveLocation) (separated .pipe d.locations)
      (· ≠ .punctuator .pipe) (· = d.locations) :=
    manySeparated_reads (fun place hmem => directiveLocation_reads (h.locations.2 place hmem))
      h.locations.1
  refine (hplaces.before fun kind hkind => hkind.1 .pipe (by simp)).last fun places hplaces => ?_
  simp [DirectiveDef.withoutOffsets, htext, hkey, hargs, hr, hplaces]

theorem rootOperation_reads (operation : OperationKind × String) :
    Reads rootOperation (operationUnits operation) Any (· = operation) := by
  have hkind : Reads operationKind [.name operation.1.label] Any (· = operation.1) := by
    refine .current fun token htoken => (reads_name _).one fun word hword => ?_
    have hof : OperationKind.ofName? word = some operation.1 := by
      rw [hword]
      cases operation.1 <;> rfl
    simp only [hof]
    exact .pure rfl
  refine hkind.one fun kind hk => (reads_expect .colon).one fun _ _ => ?_
  exact (reads_name operation.2).last fun name hname => by rw [hk, hname]

/-- The schema has nothing that can be too deep. -/
theorem schemaDef_reads {d : SchemaDef} (h : d.IsWritable) :
    Reads schemaDef d.units EndsDefinition (·.withoutOffsets = d.withoutOffsets) := by
  have hparts :
      Items rootOperation .braceRight Any (fun _ => True) id operationUnits d.operations :=
    ⟨fun operation _ => rootOperation_reads operation,
      fun _ _ => ⟨_, _, rfl, trivial, by simp⟩, trivial⟩
  refine (description_reads d.description).bind (fun _ _ => rfl) fun text htext => ?_
  refine (reads_expectKeyword _).one fun _ _ => ?_
  refine (constDirectives_reads h.directives).bind (fun kind hkind => ?_) fun ds hds => ?_
  · exact headD_enclosed hkind.1.directives (by simp [EndsDirectives])
  have hoperations : Reads (manyBetween .braceLeft .braceRight rootOperation)
      (enclosed .braceLeft .braceRight (d.operations.map operationUnits)) Any
      (·.map id = d.operations.map id) :=
    (manyBetween_decides hparts h.operations.1).iff (by simp)
  refine (hoperations.before fun _ _ => trivial).last fun read hread => ?_
  rw [List.map_id, List.map_id] at hread
  simp [SchemaDef.withoutOffsets, htext, hds, hread]

/-! ## Documents -/

theorem keyword_mem (body : TypeBody) : body.keyword ∈ typeKeywords := by
  cases body <;> simp [TypeBody.keyword, typeKeywords]

/-- The first word tells a definition, whether a description stands before it or not. -/
theorem starts_decides {α : Type} {p : Parser α} {f : Token → Token → Parser α}
    {text : Option String} {word : String} {more : List TokenKind} {good : Prop} {Q : α → Prop}
    (h : ∀ first key : Token, key.kind = .name word →
      Decides (f first key) (descriptionUnits text ++ .name word :: more) F good Q) :
    Decides (do
        let first ← current
        if first.kind = .punctuator .braceLeft then p
        else
          let described := isString first.kind
          let key ← if described then lookahead else pure first
          f first key)
      (descriptionUnits text ++ .name word :: more) F good Q := by
  -- With a description the first token is a string, and the keyword is looked up after it.
  cases text with
  | none =>
    refine .current fun first hfirst => ?_
    rw [if_neg (by simp [hfirst])]
    dsimp only
    rw [if_neg (by simp [hfirst, isString])]
    exact h first first hfirst
  | some text =>
    refine .current fun first hfirst => ?_
    rw [if_neg (by rw [hfirst]; split <;> simp)]
    dsimp only
    rw [if_pos (by rw [hfirst]; split <;> rfl)]
    exact .lookahead fun key hkey => h first key hkey

/-- A definition is read as one of its kind, by its first word. -/
theorem definition_decides {d : Definition} (h : d.IsWritable) :
    Decides definition d.units EndsDefinition d.IsShallow
      (·.withoutOffsets = d.withoutOffsets) := by
  cases d with
  | schema d =>
    refine starts_decides fun first key hkey => ?_
    simp only [hkey]
    exact (schemaDef_reads h).map fun read hread => congrArg Definition.schema hread
  | type d =>
    refine starts_decides fun first key hkey => ?_
    have hword := keyword_mem d.body
    split
    case h_5 word _ _ _ heq =>
      obtain rfl : d.body.keyword = word := TokenKind.name.inj (hkey.symm.trans heq)
      rw [if_pos (List.contains_iff_mem.mpr hword)]
      exact (typeDef_decides h).map fun read hread => congrArg Definition.type hread
    case h_6 hother => exact absurd hkey (hother _)
    case h_1 heq => cases hkey.symm.trans heq
    -- the other words start no definition of a type
    case h_2 heq | h_3 heq | h_4 heq =>
      rw [TokenKind.name.inj (hkey.symm.trans heq)] at hword
      exact absurd hword (by decide)
  | directive d =>
    refine starts_decides fun first key hkey => ?_
    simp only [hkey]
    exact (directiveDef_decides h).map fun read hread => congrArg Definition.directive hread
  | schemaExtension d | typeExtension d | operation d | fragment d => exact h.elim

/-- A definition starts with a description or with one of the words that start definitions. -/
theorem exists_start_definition {d : Definition} (h : d.IsWritable) :
    ∃ kind more, d.units = kind :: more ∧ EndsDefinition kind ∧ kind ≠ .endOfText := by
  have hstart (text : Option String) (word : String) (hword : word ≠ "implements")
      (more : List TokenKind) : ∃ kind more', descriptionUnits text ++ .name word :: more =
        kind :: more' ∧ EndsDefinition kind ∧ kind ≠ .endOfText := by
    cases text with
    | none => exact ⟨_, _, rfl, ⟨fun _ _ => by simp, by simpa using hword⟩, by simp⟩
    | some text =>
      refine ⟨_, _, rfl, ⟨fun _ _ => ?_, ?_⟩, ?_⟩
      all_goals split <;> simp
  cases d with
  | schema d => exact hstart _ _ (by decide) _
  | type d =>
    refine hstart _ _ (fun heq => ?_) _
    exact absurd (heq ▸ keyword_mem d.body) (by decide)
  | directive d => exact hstart _ _ (by decide) _
  | schemaExtension d | typeExtension d | operation d | fragment d => exact h.elim

/-- What follows a definition starts another one, or it is the end. -/
theorem follow_definitions {document : Document} (h : ∀ d ∈ document, d.IsWritable)
    (hkind : kind = .endOfText) :
    EndsDefinition ((document.flatMap Definition.units).headD kind) := by
  cases document with
  | nil => exact hkind ▸ ⟨fun _ _ => by simp, by simp⟩
  | cons d rest =>
    obtain ⟨first, more, hunits, hfirst, -⟩ := exists_start_definition (h d List.mem_cons_self)
    rw [List.flatMap_cons, hunits]
    exact hfirst

/-- Definitions are read one by one. A token for each of them is fuel enough. -/
theorem definitionsUntilEnd_decides {document : Document} (h : ∀ d ∈ document, d.IsWritable)
    {fuel : Nat} (hfuel : document.length < fuel) :
    Decides (definitionsUntilEnd fuel) (document.flatMap Definition.units) (· = .endOfText)
      (∀ d ∈ document, d.IsShallow) (Document.withoutOffsets · = document.withoutOffsets) := by
  induction document generalizing fuel with
  | nil =>
    obtain ⟨fuel, rfl⟩ := Nat.exists_eq_succ_of_ne_zero (Nat.ne_zero_of_lt hfuel)
    refine (reads_current (F := (· = .endOfText))).look (fun _ hkind => hkind) fun _ htoken => ?_
    rw [if_pos htoken]
    exact Decides.iff (.pure rfl) (by simp)
  | cons d rest ih =>
    obtain ⟨fuel, rfl⟩ := Nat.exists_eq_succ_of_ne_zero (Nat.ne_zero_of_lt hfuel)
    rw [List.forall_mem_cons] at h
    -- A definition does not start with the end of the text, so one more is read.
    obtain ⟨kind, more, hunits, -, hend⟩ := exists_start_definition h.1
    refine (reads_current (F := (· ≠ .endOfText))).look (fun _ _ => ?_) fun token htoken => ?_
    · rw [List.flatMap_cons, hunits]
      exact hend
    rw [if_neg htoken, List.flatMap_cons]
    refine Decides.iff ?_ List.forall_mem_cons
    refine (definition_decides h.1).both (fun _ => follow_definitions h.2) fun read hread => ?_
    exact (ih h.2 (Nat.lt_of_succ_lt_succ hfuel)).last fun ds hds => congrArg₂ List.cons hread hds

theorem length_le_units {document : Document} (h : ∀ d ∈ document, d.IsWritable) :
    document.length ≤ (document.flatMap Definition.units).length := by
  induction document with
  | nil => exact Nat.le_refl _
  | cons d rest ih =>
    rw [List.forall_mem_cons] at h
    obtain ⟨kind, more, hunits, -⟩ := exists_start_definition h.1
    have := ih h.2
    rw [List.flatMap_cons, hunits, List.length_append, List.length_cons, List.length_cons]
    omega

/-- A document is read exactly if all of its defaults can be. -/
theorem document_decides {document : Document} (h : ∀ d ∈ document, d.IsWritable)
    (hsome : document ≠ []) :
    Decides Parser.document (document.flatMap Definition.units) (· = .endOfText)
      (∀ d ∈ document, d.IsShallow) (Document.withoutOffsets · = document.withoutOffsets) := by
  obtain ⟨d, rest, rfl⟩ := List.exists_cons_of_ne_nil hsome
  rw [List.forall_mem_cons] at h
  rw [List.flatMap_cons]
  refine Decides.iff ?_ List.forall_mem_cons
  refine (definition_decides h.1).both (fun _ => follow_definitions h.2) fun read hread => ?_
  refine Decides.get (Q := fun tokens => rest.length < tokens.length + 1) (fun tokens hle => ?_)
    fun tokens hfuel => (definitionsUntilEnd_decides h.2 hfuel).last fun ds hds =>
      congrArg₂ List.cons hread hds
  have := length_le_units h.2
  omega

/-- There is no document without definitions. -/
theorem document_decides_nil :
    Decides Parser.document [] (· = .endOfText) False fun _ => False := by
  have hfirst : Decides definition [] (· = .endOfText) False fun _ => False := by
    refine (reads_current (F := (· = .endOfText))).look (fun _ hkind => hkind) fun _ hfirst => ?_
    rw [if_neg (by simp [hfirst])]
    dsimp only
    rw [if_neg (by simp [hfirst, isString])]
    rw [pure_bind]
    simp only [hfirst]
    exact failAt_decides id
  exact hfirst.bind (fun _ hkind => hkind) fun _ => False.elim

/-- On a text that is scanned as some units up to its end a parser does what it does on those. -/
theorem run_decides {α : Type} {p : Parser α} {text : String} {good : Prop} {Q : α → Prop}
    (h : Decides p units (· = .endOfText) good Q)
    (hkinds : Token.kinds text.toList = units ++ [.endOfText]) :
    (good → ∃ a, run p text = .ok a ∧ Q a) ∧ (¬ good → ∃ e, run p text = .error e) := by
  obtain ⟨front, last, hscan, hfront, hlast⟩ := List.map_eq_append_iff.mp hkinds
  obtain ⟨next, rfl, hnext⟩ := List.map_eq_singleton_iff.mp hlast
  -- A fault ends the scan, and what ends this one is the end of the text.
  have hreadable : Readable (front ++ [next]) := fun token hmem fault hfault => by
    have hend := Token.getLast?_scanFrom (hscan ▸ hmem) hfault
    rw [hscan, List.getLast?_append, List.getLast?_singleton, Option.some_or] at hend
    obtain rfl := Option.some.inj hend
    exact absurd (hfault.symm.trans hnext) (by simp)
  obtain ⟨first, more, htokens, -⟩ := exists_next hfront next []
  have hrun : run p text = (·.1) <$> p (front ++ [next]) := by
    have hstart : readable (Token.scan text) = .ok (front ++ [next]) := by
      rw [Token.scan, hscan, htokens]
      exact readable_eq (htokens ▸ hreadable)
    rw [run, hstart]
    cases hp : p (front ++ [next]) <;>
      simp [Bind.bind, Except.bind, StateT.run, hp, Functor.map, Except.map, pure, Except.pure]
  obtain ⟨hreads, hfails⟩ := h front next [] hfront hreadable hnext
  refine ⟨fun hgood => ?_, fun hbad => ?_⟩
  · obtain ⟨a, hok, ha⟩ := hreads hgood
    exact ⟨a, by rw [hrun, hok]; rfl, ha⟩
  · obtain ⟨e, herror⟩ := hfails hbad
    exact ⟨e, by rw [hrun, herror]; rfl⟩

end Parser

/-! ## Whole texts -/

/-- A document that can be written is read back from its text as itself, but for the places in it,
    unless one of its defaults nests too deeply. -/
theorem Document.parse_print {document : Document} (h : ∀ d ∈ document, d.IsWritable)
    (hsome : document ≠ []) (hshallow : document.isTooDeep = false) :
    ∃ read, Document.parse document.print = .ok read ∧
      Document.withoutOffsets read = document.withoutOffsets :=
  (Parser.run_decides (Parser.document_decides h hsome) (kinds_print h)).1
    (isTooDeep_eq_false.mp hshallow)

/-- Only two things can be in the way of reading a document back: that there are no definitions in
    it, and that a default nests too deeply. -/
theorem Document.parse_print_eq_error {document : Document} (h : ∀ d ∈ document, d.IsWritable)
    (hbad : document = [] ∨ document.isTooDeep = true) :
    ∃ e, Document.parse document.print = .error e := by
  by_cases hsome : document = []
  · subst hsome
    have hkinds : Token.kinds (Document.print []).toList = [] ++ [.endOfText] := Token.kinds_nil
    exact (Parser.run_decides Parser.document_decides_nil hkinds).2 id
  · have hdeep : ¬ ∀ d ∈ document, d.IsShallow := by
      rw [← isTooDeep_eq_false, hbad.resolve_left hsome]
      exact Bool.noConfusion
    exact (Parser.run_decides (Parser.document_decides h hsome) (kinds_print h)).2 hdeep

end SchemaClasses
