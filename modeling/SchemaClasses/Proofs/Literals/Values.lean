import SchemaClasses.Proofs.Literals.Numerals

/-!
# Values as literals

The literal of a value reads back as that value, and a value has one exactly if no variable occurs
in it.
-/

namespace SchemaClasses.Value

open Literal (Ends Reads readValue)

/-! ## Parts of a value -/

/-- Induction on values: a list and an object have what all of their parts have. -/
theorem induction {P : Value → Prop} («variable» : ∀ name, P (.variable name))
    (int : ∀ n, P (.int n)) (float : ∀ n, P (.float n))
    (string : ∀ content block, P (.string content block)) (boolean : ∀ b, P (.boolean b))
    (null : P .null) (enum : ∀ name, P (.enum name))
    (list : ∀ items, (∀ item ∈ items, P item) → P (.list items))
    (object : ∀ fields, (∀ field ∈ fields, P field.2) → P (.object fields)) (v : Value) : P v := by
  refine @Value.rec P (fun items => ∀ item ∈ items, P item)
    (fun fields => ∀ field ∈ fields, P field.2) (fun field => P field.2)
    «variable» int float string boolean null enum list object ?_ ?_ ?_ ?_ ?_ v
  · simp
  · exact fun head tail hhead htail => List.forall_mem_cons.mpr ⟨hhead, htail⟩
  · simp
  · exact fun head tail hhead htail => List.forall_mem_cons.mpr ⟨hhead, htail⟩
  · exact fun _ _ h => h

/-- `part` occurs in a value, at any depth. -/
inductive Part (part : Value) : Value → Prop
  | self : Part part part
  | item {items : List Value} {item : Value} (hmem : item ∈ items) (h : Part part item) :
    Part part (.list items)
  | field {fields : List (String × Value)} {field : String × Value} (hmem : field ∈ fields)
    (h : Part part field.2) : Part part (.object fields)

theorem part_list {part : Value} {items : List Value} :
    Part part (.list items) ↔ part = .list items ∨ ∃ item ∈ items, Part part item := by
  constructor
  · intro h
    cases h with
    | self => exact .inl rfl
    | item hmem h => exact .inr ⟨_, hmem, h⟩
  · rintro (rfl | ⟨item, hmem, h⟩)
    · exact .self
    · exact .item hmem h

theorem part_object {part : Value} {fields : List (String × Value)} :
    Part part (.object fields) ↔ part = .object fields ∨ ∃ field ∈ fields, Part part field.2 := by
  constructor
  · intro h
    cases h with
    | self => exact .inl rfl
    | field hmem h => exact .inr ⟨_, hmem, h⟩
  · rintro (rfl | ⟨field, hmem, h⟩)
    · exact .self
    · exact .field hmem h

/-- A variable occurs in the value. -/
def HasVariable (v : Value) : Prop :=
  ∃ name, Part (.variable name) v

/-- All numbers in the value are as a document can hold them. -/
def IsLexical (v : Value) : Prop :=
  ∀ n, Part (.float n) v → n.IsLexical

@[simp] theorem hasVariable_variable (name : String) : HasVariable (.variable name) :=
  ⟨name, .self⟩

/-- A list has the variables of its items. -/
@[simp] theorem hasVariable_list {items : List Value} :
    HasVariable (.list items) ↔ ∃ item ∈ items, HasVariable item := by
  simp only [HasVariable, part_list, reduceCtorEq, false_or]
  exact ⟨fun ⟨name, item, hmem, h⟩ => ⟨item, hmem, name, h⟩,
    fun ⟨item, hmem, name, h⟩ => ⟨name, item, hmem, h⟩⟩

@[simp] theorem hasVariable_object {fields : List (String × Value)} :
    HasVariable (.object fields) ↔ ∃ field ∈ fields, HasVariable field.2 := by
  simp only [HasVariable, part_object, reduceCtorEq, false_or]
  exact ⟨fun ⟨name, field, hmem, h⟩ => ⟨field, hmem, name, h⟩,
    fun ⟨field, hmem, name, h⟩ => ⟨name, field, hmem, h⟩⟩

theorem isLexical_float {n : Decimal.FloatNumeral} : IsLexical (.float n) ↔ n.IsLexical := by
  constructor
  · exact fun h => h n .self
  · intro h m hm
    cases hm with
    | self => exact h

theorem isLexical_list {items : List Value} :
    IsLexical (.list items) ↔ ∀ item ∈ items, IsLexical item := by
  simp only [IsLexical, part_list, reduceCtorEq, false_or, forall_exists_index, and_imp]
  exact ⟨fun h item hmem n hn => h n item hmem hn, fun h n item hmem hn => h item hmem n hn⟩

theorem isLexical_object {fields : List (String × Value)} :
    IsLexical (.object fields) ↔ ∀ field ∈ fields, IsLexical field.2 := by
  simp only [IsLexical, part_object, reduceCtorEq, false_or, forall_exists_index, and_imp]
  exact ⟨fun h field hmem n hn => h n field hmem hn, fun h n field hmem hn => h field hmem n hn⟩

/-! ## When there is a literal -/

def fieldText (name text : String) : String :=
  Text.quote name ++ ": " ++ text

/-- The fields of an object are emitted as their values are. -/
theorem emitFields_eq (fields : List (String × Value)) :
    emitFields fields = (emitItems (fields.map Prod.snd)).map
      fun texts => List.zipWith (fun field text => fieldText field.1 text) fields texts := by
  induction fields with
  | nil => rfl
  | cons field rest ih =>
    obtain ⟨name, v⟩ := field
    simp only [emitFields, ih, List.map_cons, emitItems]
    cases v.emit with
    | error e => rfl
    | ok text => cases emitItems (rest.map Prod.snd) <;> rfl

/-- Items fail because of a variable in one of them. -/
theorem emitItems_eq_error {items : List Value} {kind : NodeKind}
    (ih : ∀ item ∈ items, ∀ kind, item.emit = .error kind ↔ kind = .variable ∧ item.HasVariable) :
    emitItems items = .error kind ↔ kind = .variable ∧ ∃ item ∈ items, item.HasVariable := by
  induction items with
  | nil => simp [emitItems]
  | cons item rest ihrest =>
    rw [List.forall_mem_cons] at ih
    have hrest := ihrest ih.2
    cases hitem : item.emit with
    | error e =>
      obtain ⟨rfl, hvariable⟩ := (ih.1 e).mp hitem
      simp [emitItems, hitem, hvariable, bind, Except.bind, eq_comm]
    | ok text =>
      -- The first item has a literal, so the error is that of a later one.
      have hnone : ¬ item.HasVariable := by
        intro hvariable
        have := (ih.1 .variable).mpr ⟨rfl, hvariable⟩
        rw [hitem] at this
        cases this
      simp only [emitItems, hitem, List.exists_mem_cons_iff, hnone, false_or, ← hrest]
      cases emitItems rest <;> simp [bind, Except.bind, pure, Except.pure]

/-- Only a variable has no literal, wherever it occurs. -/
theorem emit_eq_error {v : Value} {kind : NodeKind} :
    v.emit = .error kind ↔ kind = .variable ∧ v.HasVariable := by
  induction v using Value.induction generalizing kind with
  | «variable» name => simp [emit, eq_comm]
  | int | float | string | boolean | null | enum =>
    simp only [emit, reduceCtorEq, false_iff, not_and]
    rintro - ⟨name, h⟩
    cases h
  | list items ih =>
    rw [hasVariable_list, ← emitItems_eq_error fun item hmem kind => ih item hmem, emit]
    cases emitItems items <;> simp [bind, Except.bind, pure, Except.pure]
  | object fields ih =>
    -- The names of the fields always have a literal, so only the values matter.
    have hvalues : ∀ v ∈ fields.map Prod.snd, ∀ kind,
        v.emit = .error kind ↔ kind = .variable ∧ v.HasVariable := by
      intro v hv kind
      obtain ⟨field, hmem, rfl⟩ := List.mem_map.mp hv
      exact ih field hmem
    have hexists : (∃ field ∈ fields, HasVariable field.2) ↔
        ∃ v ∈ fields.map Prod.snd, v.HasVariable := by
      simp only [List.mem_map, exists_exists_and_eq_and]
    rw [hasVariable_object, hexists, ← emitItems_eq_error hvalues, emit, emitFields_eq]
    cases emitItems (fields.map Prod.snd) <;> simp [bind, Except.bind, pure, Except.pure, Except.map]

/-- Every constant can be written. -/
theorem exists_emit {v : Value} (h : ¬ v.HasVariable) : ∃ text, v.emit = .ok text := by
  cases hemit : v.emit with
  | ok text => exact ⟨text, rfl⟩
  | error kind => exact absurd (emit_eq_error.mp hemit).2 h

theorem emitItems_eq_ok {items : List Value} {texts : List String} :
    emitItems items = .ok texts ↔
      List.Forall₂ (fun item text => item.emit = .ok text) items texts := by
  have hmapM : emitItems items = items.mapM emit := by
    induction items with
    | nil => rfl
    | cons item rest ih => rw [emitItems, ih, List.mapM_cons]
  rw [hmapM, Success.mapM_eq_ok]

/-- What numbers, strings and words have, and lists and objects if their parts have it, every
    literal has. -/
theorem emit_induction {P : String → Prop} (number : ∀ n : Decimal.Numeral, P n.text)
    (quote : ∀ content, P (Text.quote content)) (word : ∀ word ∈ ["True", "False", "None"], P word)
    (list : ∀ texts : List String, (∀ text ∈ texts, P text) →
      P ("[" ++ Text.joinWith ", " texts ++ "]"))
    (object : ∀ entries : List (String × String), (∀ entry ∈ entries, P entry.2) →
      P ("\x7b" ++ Text.joinWith ", " (entries.map fun entry => fieldText entry.1 entry.2)
        ++ "\x7d"))
    {v : Value} {text : String} (h : v.emit = .ok text) : P text := by
  -- The texts of parts have the property if the parts are known to hand it on.
  have hparts {items : List Value} (ih : ∀ item ∈ items, ∀ text, item.emit = .ok text → P text)
      {texts : List String} (h : emitItems items = .ok texts) : ∀ text ∈ texts, P text :=
    Success.forall_of_forall₂ (emitItems_eq_ok.mp h) ih
  induction v using Value.induction generalizing text with
  | «variable» name => simp [emit] at h
  | int n =>
    simp only [emit, Except.ok.injEq] at h
    exact h ▸ number (.int n)
  | float n =>
    simp only [emit, Except.ok.injEq] at h
    exact h ▸ number (.float n)
  | string content block =>
    simp only [emit, Except.ok.injEq] at h
    exact h ▸ quote content
  | boolean b =>
    simp only [emit, Except.ok.injEq] at h
    subst h
    cases b <;> exact word _ (by simp [boolText])
  | null =>
    simp only [emit, Except.ok.injEq] at h
    exact h ▸ word _ (by simp)
  | enum name =>
    simp only [emit, Except.ok.injEq] at h
    exact h ▸ quote name
  | list items ih =>
    simp only [emit, Success.bind_eq_ok, Success.pure_eq_ok] at h
    obtain ⟨texts, htexts, rfl⟩ := h
    exact list texts (hparts (fun item hmem text => ih item hmem) htexts)
  | object fields ih =>
    have hvalues : ∀ item ∈ fields.map Prod.snd, ∀ text, item.emit = .ok text → P text := by
      rw [List.forall_mem_map]
      exact fun field hmem text => ih field hmem
    simp only [emit, emitFields_eq, Success.bind_eq_ok, Success.pure_eq_ok] at h
    obtain ⟨_, hfields, rfl⟩ := h
    obtain ⟨texts, htexts, rfl⟩ := Success.map_eq_ok.mp hfields
    have hentries := object ((fields.map Prod.fst).zip texts) fun entry hmem =>
      hparts hvalues htexts entry.2 (List.of_mem_zip hmem).2
    rwa [List.map_zip_eq_zipWith, List.zipWith_map_left] at hentries

/-! ## What a value stands for -/

mutual

/-- The literal that a value without variables stands for. An enumeration value is a string, and so
    is a string however it is written. -/
def literal? : Value → Option Literal
  | .variable _ => none
  | .int n => some (.number n.text)
  | .float n => some (.number n.text)
  | .string content _ => some (.string content)
  | .boolean b => some (.bool b)
  | .null => some .null
  | .enum name => some (.string name)
  | .list items => (literals? items).map .list
  | .object fields => (entries? fields).map .dict

def literals? : List Value → Option (List Literal)
  | [] => some []
  | item :: rest => do
    let literal ← literal? item
    let literals ← literals? rest
    return literal :: literals

def entries? : List (String × Value) → Option (List (Literal × Literal))
  | [] => some []
  | (name, value) :: rest => do
    let literal ← literal? value
    let entries ← entries? rest
    return (.string name, literal) :: entries

end

mutual

/-- The value with enumeration values written as strings, and all strings written alike. -/
def plain : Value → Value
  | .string content _ => .string content false
  | .enum name => .string name false
  | .list items => .list (plainItems items)
  | .object fields => .object (plainFields fields)
  | .variable name => .variable name
  | .int n => .int n
  | .float n => .float n
  | .boolean b => .boolean b
  | .null => .null

def plainItems : List Value → List Value
  | [] => []
  | item :: rest => plain item :: plainItems rest

def plainFields : List (String × Value) → List (String × Value)
  | [] => []
  | (name, value) :: rest => (name, plain value) :: plainFields rest

end

/-! ## Reading back -/

/-- The literal of a value, if there is one, is read back from its text. As many levels of nesting
    as the text has characters are enough. -/
def ReadsBack (v : Value) : Prop :=
  ∀ text, v.emit = .ok text → ∃ literal, v.literal? = some literal ∧
    ∀ depth, text.toList.length ≤ depth → Reads (readValue depth) literal text

/-- A literal that is no display is read back at every level. -/
theorem readsBack_of_reads {v : Value} {text : String} {literal : Literal}
    (hemit : v.emit = .ok text) (hliteral : v.literal? = some literal)
    (h : ∀ depth, Reads (readValue (depth + 1)) literal text) : ReadsBack v := by
  intro other hother
  obtain rfl : text = other := by rwa [hemit, Except.ok.injEq] at hother
  refine ⟨literal, hliteral, fun depth hdepth => ?_⟩
  have hpos : 0 < text.toList.length := by
    simpa [List.length_pos_iff] using emit_ne_empty hemit
  obtain ⟨depth, rfl⟩ := Nat.exists_eq_add_one_of_ne_zero (Nat.ne_of_gt (by omega : 0 < depth))
  exact h depth

/-- Items are read back one by one. -/
theorem readsBack_items {items : List Value} (ih : ∀ item ∈ items, ReadsBack item)
    {texts : List String} (h : emitItems items = .ok texts) :
    ∃ literals, literals? items = some literals ∧
      ∀ depth, (∀ text ∈ texts, text.toList.length ≤ depth) →
        List.Forall₂ (Reads (readValue depth)) literals texts := by
  induction items generalizing texts with
  | nil =>
    simp only [emitItems, Except.ok.injEq] at h
    subst h
    exact ⟨[], rfl, fun _ _ => .nil⟩
  | cons item rest ihrest =>
    rw [List.forall_mem_cons] at ih
    simp only [emitItems, Success.bind_eq_ok, Success.pure_eq_ok] at h
    obtain ⟨text, htext, texts, htexts, rfl⟩ := h
    obtain ⟨literal, hliteral, hreads⟩ := ih.1 text htext
    obtain ⟨literals, hliterals, hall⟩ := ihrest ih.2 htexts
    refine ⟨literal :: literals, by simp [literals?, hliteral, hliterals], fun depth hdepth => ?_⟩
    rw [List.forall_mem_cons] at hdepth
    exact .cons (hreads depth hdepth.1) (hall depth hdepth.2)

/-- Fields are read back with their names as keys. -/
theorem readsBack_fields {fields : List (String × Value)}
    (ih : ∀ field ∈ fields, ReadsBack field.2) {texts : List String}
    (h : emitFields fields = .ok texts) :
    ∃ entries, entries? fields = some entries ∧
      ∀ depth, (∀ text ∈ texts, text.toList.length ≤ depth) →
        List.Forall₂ (Reads (Literal.readEntry (readValue depth))) entries texts := by
  induction fields generalizing texts with
  | nil =>
    simp only [emitFields, Except.ok.injEq] at h
    subst h
    exact ⟨[], rfl, fun _ _ => .nil⟩
  | cons field rest ihrest =>
    obtain ⟨name, v⟩ := field
    rw [List.forall_mem_cons] at ih
    simp only [emitFields, Success.bind_eq_ok, Success.pure_eq_ok] at h
    obtain ⟨text, htext, texts, htexts, rfl⟩ := h
    obtain ⟨literal, hliteral, hreads⟩ := ih.1 text htext
    obtain ⟨entries, hentries, hall⟩ := ihrest ih.2 htexts
    refine ⟨(.string name, literal) :: entries, by simp [entries?, hliteral, hentries],
      fun depth hdepth => ?_⟩
    rw [List.forall_mem_cons] at hdepth
    have hlength := hdepth.1
    simp only [String.toList_append, List.length_append] at hlength
    -- The colon alone makes the text longer than nothing.
    obtain ⟨room, rfl⟩ : ∃ room, depth = room + 1 :=
      Nat.exists_eq_add_one_of_ne_zero (by rintro rfl; simp at hlength)
    exact .cons (Reads.entry (Literal.reads_quote room name) (hreads _ (by omega)))
      (hall _ hdepth.2)

/-- A number is read back from its text. -/
theorem readsBack_number {n : Decimal.Numeral} (h : n.IsLexical) (depth : Nat) :
    Reads (readValue (depth + 1)) (.number n.text) n.text := by
  refine Literal.reads_number depth ?_ fun rest hrest => n.readNumber_text h hrest
  obtain ⟨c, more, heq⟩ := List.exists_cons_of_ne_nil (Nat.toDigits_ne_nil (n := n.parts.whole) (b := 10))
  rw [n.text_eq_parts, Decimal.FloatNumeral.text, String.toList_ofList,
    Decimal.FloatNumeral.chars_eq, heq]
  have hdigit : c.isDigit := (Decimal.isDigits_toDigits n.parts.whole).2 c (by simp [heq])
  cases n.parts.negative with
  | true => exact ⟨'-', _, rfl, rfl⟩
  | false => exact ⟨c, _, rfl, by rw [hdigit, Bool.true_or]⟩

/-- Every value that a document can hold is read back from its literal. -/
theorem readsBack {v : Value} (h : v.IsLexical) : ReadsBack v := by
  induction v using Value.induction with
  | «variable» name =>
    intro text htext
    simp [emit] at htext
  | int n => exact readsBack_of_reads rfl rfl (readsBack_number (n := .int n) trivial)
  | float n =>
    exact readsBack_of_reads rfl rfl (readsBack_number (n := .float n) (isLexical_float.mp h))
  | string content block =>
    exact readsBack_of_reads rfl rfl fun depth => Literal.reads_quote depth content
  | boolean b =>
    refine readsBack_of_reads rfl rfl fun depth => ?_
    cases b with
    | true => exact Literal.reads_word depth rfl ⟨'T', _, rfl, by decide⟩ (by decide)
    | false => exact Literal.reads_word depth rfl ⟨'F', _, rfl, by decide⟩ (by decide)
  | null =>
    exact readsBack_of_reads rfl rfl fun depth =>
      Literal.reads_word depth rfl ⟨'N', _, rfl, by decide⟩ (by decide)
  | enum name => exact readsBack_of_reads rfl rfl fun depth => Literal.reads_quote depth name
  | list items ih =>
    intro text htext
    simp only [emit, Success.bind_eq_ok, Success.pure_eq_ok] at htext
    obtain ⟨texts, htexts, rfl⟩ := htext
    have hitems := isLexical_list.mp h
    obtain ⟨literals, hliterals, hall⟩ :=
      readsBack_items (fun item hmem => ih item hmem (hitems item hmem)) htexts
    refine ⟨.list literals, by simp [literal?, hliterals], fun depth hdepth => ?_⟩
    simp only [String.toList_append, List.length_append] at hdepth
    obtain ⟨room, rfl⟩ : ∃ room, depth = room + 1 :=
      Nat.exists_eq_add_one_of_ne_zero (by rintro rfl; simp at hdepth)
    -- One level less is enough for the items, as the brackets are no part of them.
    refine Literal.reads_list (hall room fun text hmem => ?_)
    have hlength := Text.length_le_joinWith_of_mem ", " hmem
    have hopen : "[".toList.length = 1 := rfl
    omega
  | object fields ih =>
    intro text htext
    simp only [emit, Success.bind_eq_ok, Success.pure_eq_ok] at htext
    obtain ⟨texts, htexts, rfl⟩ := htext
    have hfields := isLexical_object.mp h
    obtain ⟨entries, hentries, hall⟩ :=
      readsBack_fields (fun field hmem => ih field hmem (hfields field hmem)) htexts
    refine ⟨.dict entries, by simp [literal?, hentries], fun depth hdepth => ?_⟩
    simp only [String.toList_append, List.length_append] at hdepth
    obtain ⟨room, rfl⟩ : ∃ room, depth = room + 1 :=
      Nat.exists_eq_add_one_of_ne_zero (by rintro rfl; simp at hdepth)
    refine Literal.reads_dict (hall room fun text hmem => ?_)
    have hlength := Text.length_le_joinWith_of_mem ", " hmem
    have hopen : "\x7b".toList.length = 1 := rfl
    omega

/-- The text of a value is read as its literal, with nothing left over. -/
theorem read_emit {v : Value} (h : v.IsLexical) {text : String} (hemit : v.emit = .ok text) :
    ∃ literal, v.literal? = some literal ∧ Literal.read text = some literal := by
  obtain ⟨literal, hliteral, hreads⟩ := readsBack h text hemit
  refine ⟨literal, hliteral, ?_⟩
  have hread := (hreads _ (Nat.le_refl _)).reads [] Literal.ends_nil
  rw [List.append_nil] at hread
  simp only [Literal.read, hread]

/-! ## Values with equal literals -/

def ofNumeral : Decimal.Numeral → Value
  | .int n => .int n
  | .float n => .float n

theorem isLexical_ofNumeral {n : Decimal.Numeral} (h : (ofNumeral n).IsLexical) : n.IsLexical := by
  cases n with
  | int n => trivial
  | float n => exact isLexical_float.mp h

/-- Only numbers become numbers. -/
theorem literal?_eq_number {v : Value} {text : String} (h : v.literal? = some (.number text)) :
    ∃ n, v = ofNumeral n ∧ n.text = text := by
  cases v <;> simp [literal?] at h
  case int n => exact ⟨.int n, rfl, h⟩
  case float n => exact ⟨.float n, rfl, h⟩

/-- Only strings and enumeration values become strings. -/
theorem literal?_eq_string {v : Value} {content : String}
    (h : v.literal? = some (.string content)) : v.plain = .string content false := by
  cases v <;> simp [literal?] at h
  case string => rw [plain, h]
  case enum => rw [plain, h]

theorem literal?_eq_bool {v : Value} {b : Bool} (h : v.literal? = some (.bool b)) :
    v = .boolean b := by
  cases v <;> simp [literal?] at h
  case boolean => rw [h]

theorem literal?_eq_null {v : Value} (h : v.literal? = some .null) : v = .null := by
  cases v <;> simp [literal?] at h
  case null => rfl

theorem literal?_eq_list {v : Value} {literals : List Literal}
    (h : v.literal? = some (.list literals)) :
    ∃ items, v = .list items ∧ literals? items = some literals := by
  cases v <;> simp [literal?] at h
  case list items => exact ⟨items, rfl, h⟩

theorem literal?_eq_dict {v : Value} {entries : List (Literal × Literal)}
    (h : v.literal? = some (.dict entries)) :
    ∃ fields, v = .object fields ∧ entries? fields = some entries := by
  cases v <;> simp [literal?] at h
  case object fields => exact ⟨fields, rfl, h⟩

/-- Every other value with the literal of `v` is `v`, up to how its strings are written. -/
def Determined (v : Value) : Prop :=
  ∀ literal, v.literal? = some literal → ∀ other : Value, other.IsLexical →
    other.literal? = some literal → v.plain = other.plain

/-- Items are told by their literals one by one. -/
theorem determined_items {items : List Value} (ih : ∀ item ∈ items, Determined item)
    {literals : List Literal} (h : literals? items = some literals) {others : List Value}
    (hothers : ∀ other ∈ others, IsLexical other) (hsame : literals? others = some literals) :
    plainItems items = plainItems others := by
  induction items generalizing literals others with
  | nil =>
    obtain rfl : [] = literals := by simpa [literals?] using h
    cases others with
    | nil => rfl
    | cons other rest => simp [literals?, Option.bind_eq_some_iff] at hsame
  | cons item rest ihrest =>
    rw [List.forall_mem_cons] at ih
    simp only [literals?, Option.bind_eq_bind, Option.bind_eq_some_iff, Option.pure_def,
      Option.some.injEq] at h
    obtain ⟨literal, hliteral, literals, hliterals, rfl⟩ := h
    cases others with
    | nil => simp [literals?] at hsame
    | cons other others =>
      rw [List.forall_mem_cons] at hothers
      simp only [literals?, Option.bind_eq_bind, Option.bind_eq_some_iff, Option.pure_def,
        Option.some.injEq, List.cons.injEq] at hsame
      obtain ⟨_, hother, _, hrest, rfl, rfl⟩ := hsame
      rw [plainItems, plainItems, ih.1 _ hliteral other hothers.1 hother,
        ihrest ih.2 hliterals hothers.2 hrest]

/-- Fields are told by the entries of a dictionary, their names by the keys. -/
theorem determined_fields {fields : List (String × Value)}
    (ih : ∀ field ∈ fields, Determined field.2) {entries : List (Literal × Literal)}
    (h : entries? fields = some entries) {others : List (String × Value)}
    (hothers : ∀ other ∈ others, IsLexical other.2) (hsame : entries? others = some entries) :
    plainFields fields = plainFields others := by
  induction fields generalizing entries others with
  | nil =>
    obtain rfl : [] = entries := by simpa [entries?] using h
    cases others with
    | nil => rfl
    | cons other rest => simp [entries?, Option.bind_eq_some_iff] at hsame
  | cons field rest ihrest =>
    obtain ⟨name, v⟩ := field
    rw [List.forall_mem_cons] at ih
    simp only [entries?, Option.bind_eq_bind, Option.bind_eq_some_iff, Option.pure_def,
      Option.some.injEq] at h
    obtain ⟨literal, hliteral, entries, hentries, rfl⟩ := h
    -- Equal literals have as many entries, so the two lists are gone along together.
    cases others with
    | nil => simp [entries?] at hsame
    | cons other others =>
      obtain ⟨otherName, w⟩ := other
      rw [List.forall_mem_cons] at hothers
      simp only [entries?, Option.bind_eq_bind, Option.bind_eq_some_iff, Option.pure_def,
        Option.some.injEq, List.cons.injEq, Prod.mk.injEq, Literal.string.injEq] at hsame
      obtain ⟨_, hother, _, hrest, ⟨rfl, rfl⟩, rfl⟩ := hsame
      rw [plainFields, plainFields, ih.1 _ hliteral w hothers.1 hother,
        ihrest ih.2 hentries hothers.2 hrest]

/-- A number is told by its text. -/
theorem determined_number {n : Decimal.Numeral} (h : (ofNumeral n).IsLexical) :
    Determined (ofNumeral n) := by
  intro literal hliteral other hother hsame
  obtain rfl : Literal.number n.text = literal := by
    cases n with
    | int n => exact Option.some.inj hliteral
    | float n => exact Option.some.inj hliteral
  obtain ⟨m, rfl, htext⟩ := literal?_eq_number hsame
  rw [Decimal.Numeral.text_inj (isLexical_ofNumeral hother) (isLexical_ofNumeral h) htext]

/-- Different values have different literals, up to how their strings are written. -/
theorem determined {v : Value} (h : v.IsLexical) : Determined v := by
  -- The induction is on the first value; the form of its literal fixes the form of the other.
  induction v using Value.induction with
  | «variable» name => simp [Determined, literal?]
  | int n => exact determined_number (n := .int n) h
  | float n => exact determined_number (n := .float n) h
  | string content block =>
    intro literal hliteral other _ hsame
    obtain rfl : Literal.string content = literal := by simpa [literal?] using hliteral
    rw [literal?_eq_string hsame, plain]
  | enum name =>
    intro literal hliteral other _ hsame
    obtain rfl : Literal.string name = literal := by simpa [literal?] using hliteral
    rw [literal?_eq_string hsame, plain]
  | boolean b =>
    intro literal hliteral other _ hsame
    obtain rfl : Literal.bool b = literal := by simpa [literal?] using hliteral
    rw [literal?_eq_bool hsame]
  | null =>
    intro literal hliteral other _ hsame
    obtain rfl : Literal.null = literal := by simpa [literal?] using hliteral
    rw [literal?_eq_null hsame]
  | list items ih =>
    intro literal hliteral other hother hsame
    simp only [literal?, Option.map_eq_some_iff] at hliteral
    obtain ⟨literals, hliterals, rfl⟩ := hliteral
    obtain ⟨others, rfl, hothers⟩ := literal?_eq_list hsame
    have hitems := isLexical_list.mp h
    rw [plain, plain, determined_items (fun item hmem => ih item hmem (hitems item hmem)) hliterals
      (isLexical_list.mp hother) hothers]
  | object fields ih =>
    intro literal hliteral other hother hsame
    simp only [literal?, Option.map_eq_some_iff] at hliteral
    obtain ⟨entries, hentries, rfl⟩ := hliteral
    obtain ⟨others, rfl, hothers⟩ := literal?_eq_dict hsame
    have hfields := isLexical_object.mp h
    rw [plain, plain, determined_fields (fun field hmem => ih field hmem (hfields field hmem))
      hentries (isLexical_object.mp hother) hothers]

/-! ## Faithful literals -/

/-- A value has no literal exactly if a variable occurs in it, and that is what is said then.
    Otherwise its literal is read back, as a whole, as what the value stands for. So two values with
    one literal differ only in how they write strings. -/
theorem emit_faithful {v : Value} (h : v.IsLexical) :
    (∀ kind, v.emit = .error kind ↔ kind = .variable ∧ v.HasVariable) ∧
    (¬ v.HasVariable → ∃ text literal, v.emit = .ok text ∧ v.literal? = some literal ∧
      Literal.read text = some literal) ∧
    ∀ other : Value, other.IsLexical → ∀ text, v.emit = .ok text → other.emit = .ok text →
      v.plain = other.plain := by
  refine ⟨fun kind => emit_eq_error, fun hnone => ?_, fun other hother text hemit hsame => ?_⟩
  · obtain ⟨text, hemit⟩ := exists_emit hnone
    obtain ⟨literal, hliteral, hread⟩ := read_emit h hemit
    exact ⟨text, literal, hemit, hliteral, hread⟩
  -- One text is read as one literal, which determines the value.
  · obtain ⟨literal, hliteral, hread⟩ := read_emit h hemit
    obtain ⟨_, hother', hread'⟩ := read_emit hother hsame
    rw [hread, Option.some.injEq] at hread'
    exact determined h literal hliteral other hother (hread' ▸ hother')

/-- A value with an object, a list, a number and a word, where a string that holds closing brackets
    stands for `item`. -/
def sample (item : Value) : Value :=
  .object [("tags", .list [.enum "RED", item, .null]),
    ("size", .float ⟨true, 1, [⟨5, by decide⟩], some ⟨false, some true, [⟨3, by decide⟩]⟩⟩)]

theorem isLexical_sample {item : Value} (h : item.IsLexical) : (sample item).IsLexical := by
  have henum : (Value.enum "RED").IsLexical := nofun
  have hnull : Value.null.IsLexical := nofun
  simp only [sample, isLexical_object, isLexical_list, isLexical_float, List.forall_mem_cons,
    List.not_mem_nil, false_implies, implies_true, and_true]
  exact ⟨⟨henum, h, hnull⟩, by decide⟩

/-- Brackets and quotes within a string do not end the literal around it. -/
theorem emit_faithful_sample :
    (∃ text literal, (sample (.enum "]\x7d\"")).emit = .ok text ∧
      (sample (.enum "]\x7d\"")).literal? = some literal ∧ Literal.read text = some literal) ∧
    (sample (.enum "]\x7d\"")).plain = (sample (.string "]\x7d\"" true)).plain ∧
    (sample (.variable "x")).emit = .error .variable := by
  have henum : (sample (.enum "]\x7d\"")).IsLexical := isLexical_sample nofun
  have hstring : (sample (.string "]\x7d\"" true)).IsLexical := isLexical_sample nofun
  have hvariable : (sample (.variable "x")).IsLexical := isLexical_sample nofun
  have hok : (sample (.enum "]\x7d\"")).emit.isOk := by decide +kernel
  obtain ⟨herror, hreads, hsame⟩ := emit_faithful henum
  have hnone : ¬ (sample (.enum "]\x7d\"")).HasVariable := by
    intro h
    rw [(herror .variable).mpr ⟨rfl, h⟩] at hok
    exact absurd hok (by decide)
  obtain ⟨text, literal, hemit, hread⟩ := hreads hnone
  refine ⟨⟨text, literal, hemit, hread⟩, hsame _ hstring text hemit (hemit ▸ rfl), ?_⟩
  exact ((emit_faithful hvariable).1 .variable).mpr ⟨rfl, by simp [sample]⟩

end SchemaClasses.Value
