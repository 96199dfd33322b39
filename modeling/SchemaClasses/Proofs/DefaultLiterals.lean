import SchemaClasses.Proofs.Decimal.ExactNumerals
import SchemaClasses.Proofs.Literals.Values
import SchemaClasses.Schema.Canonical

/-!
# Default literals

A default goes through the schema as a value: its literal is read as one of its type, and a literal
is written for the value. Where the literal has the shape of a type of built-in scalars, what is
written means what was read.
-/

namespace SchemaClasses

open Decimal (Numeral)

/-! ## Shapes and meanings -/

/-- The literal has the shape of the type as it stands. Lists are where the type has lists; within
    them are literals of the kind of a built-in scalar. A string for an identifier does not write
    an integer, and a number for the type of doubles is one of them. -/
inductive Value.Fits : TypeRef → Value → Prop
  | nonNull {type : TypeRef} {v : Value} (h : Fits type v) : Fits (.nonNull type) v
  | list {item : TypeRef} {items : List Value} (h : ∀ v ∈ items, Fits item v) :
    Fits (.list item) (.list items)
  | string (content : String) (block : Bool) : Fits (.named "String") (.string content block)
  | id {content : String} (block : Bool) (h : Schema.integerText? content = none) :
    Fits (.named "ID") (.string content block)
  | boolean (b : Bool) : Fits (.named "Boolean") (.boolean b)
  | int {n : Decimal.IntNumeral} (h : fits32 n.toInt) : Fits (.named "Int") (.int n)
  | whole {n : Decimal.IntNumeral} (h : Numeral.IsExact (.int n)) : Fits (.named "Float") (.int n)
  | float {n : Decimal.FloatNumeral} (h : Numeral.IsExact (.float n)) :
    Fits (.named "Float") (.float n)

/-- Two literals of the generated code mean the same: equal strings and truth values, numbers of
    one size however they are written, and lists with the same items. -/
inductive Literal.Same : Literal → Literal → Prop
  | bool (b : Bool) : Same (.bool b) (.bool b)
  | string (content : String) : Same (.string content) (.string content)
  | number {n m : Numeral} {q : ℚ} (hn : n.IsLexical) (hm : m.IsLexical) (h : n.toRat? = some q)
    (hsame : m.toRat? = some q) : Same (.number n.text) (.number m.text)
  | list {items others : List Literal} (h : List.Forall₂ Same items others) :
    Same (.list items) (.list others)

namespace Value

/-- A literal and another that can be read back and means the same in the generated code. -/
def Means (v w : Value) : Prop :=
  w.IsLexical ∧ ∃ direct default, v.literal? = some direct ∧ w.literal? = some default ∧
    direct.Same default

variable {ds : Declarations} {type : TypeRef} {v : Value}

/-- No variable occurs in a literal that has the shape of a type. -/
theorem Fits.not_hasVariable (h : Fits type v) : ¬ v.HasVariable := by
  induction h with
  | nonNull _ ih => exact ih
  | list _ ih =>
    rw [hasVariable_list]
    exact fun ⟨item, hmem, hvariable⟩ => ih item hmem hvariable
  | string | id | boolean | int | whole | float =>
    rintro ⟨name, hname⟩
    cases hname

/-! ## Marks that exclude null -/

/-- A mark that excludes null changes no other value. -/
theorem ofType_nonNull (fieldsOf : FieldsOf) (hv : v ≠ .null) :
    ofType ds fieldsOf v (.nonNull type) = ofType ds fieldsOf v type := by
  cases v with
  | null => exact absurd rfl hv
  | _ => rfl

theorem literal_nonNull (value : Json String) :
    Schema.literal ds value (.nonNull type) = Schema.literal ds value type := by
  cases value <;> rfl

theorem Fits.ne_null (h : Fits type v) : v ≠ .null := by
  induction h with
  | nonNull _ ih => exact ih
  | _ => nofun

/-! ## Numbers -/

/-- A number as a literal of the schema. -/
theorem literal?_numeralLiteral (n : Numeral) :
    (Schema.numeralLiteral n).literal? = some (.number n.text) := by
  cases n <;> rfl

theorem isLexical_numeralLiteral {n : Numeral} (h : n.IsLexical) :
    (Schema.numeralLiteral n).IsLexical := by
  cases n with
  | int n =>
    intro m hm
    cases hm
  | float n => exact isLexical_float.mpr h

/-- The literal that is written for the double of an exact number means that number. -/
theorem means_toNumeral? {n : Numeral} (hexact : n.IsExact) (hlexical : n.IsLexical) :
    ∃ m, n.toScientific.toBinary64.toNumeral? = some m ∧
      Means (Schema.numeralLiteral n) (Schema.numeralLiteral m) := by
  obtain ⟨hvalue, m, hm, hmlexical, hsame⟩ := hexact.exists_toNumeral?
  refine ⟨m, hm, isLexical_numeralLiteral hmlexical, _, _, literal?_numeralLiteral n,
    literal?_numeralLiteral m, ?_⟩
  exact .number hlexical hmlexical hvalue (hsame.trans hvalue)

/-- An integer that is written anew means the same, also where it had a sign on a zero. -/
theorem means_ofInt (n : Decimal.IntNumeral) :
    Means (.int n) (.int (.ofInt n.toInt)) := by
  refine ⟨@isLexical_numeralLiteral (.int _) trivial, _, _, rfl, rfl, ?_⟩
  exact @Literal.Same.number (.int n) (.int (.ofInt n.toInt)) n.toInt trivial trivial rfl
    (by rw [Numeral.toRat?, Decimal.IntNumeral.toInt_ofInt])

/-! ## The way through the schema -/

/-- A literal has a value of its type, and what is written for it means the same. -/
def Survives (ds : Declarations) (type : TypeRef) (v : Value) : Prop :=
  ∃ value literal, (∀ fieldsOf, ofType ds fieldsOf v type = .ok value) ∧
    Schema.literal ds value type = .ok literal ∧ Means v literal

/-- A list survives if each of its items does. -/
theorem survives_items {item : TypeRef} {items : List Value}
    (h : ∀ v ∈ items, Survives ds item v) : Survives ds (.list item) (.list items) := by
  -- The values and literals of the items, found one item at a time, make up those of the list.
  suffices hall : ∃ values literals directs defaults,
      (∀ fieldsOf, itemsOfType ds fieldsOf items item = .ok values) ∧
      Schema.literalItems ds values item = .ok literals ∧ (∀ w ∈ literals, w.IsLexical) ∧
      literals? items = some directs ∧ literals? literals = some defaults ∧
      List.Forall₂ Literal.Same directs defaults by
    obtain ⟨values, literals, directs, defaults, hvalues, hliterals, hlexical, hdirects, hdefaults,
      hsame⟩ := hall
    refine ⟨.array values, .list literals, fun fieldsOf => ?_, ?_, isLexical_list.mpr hlexical,
      .list directs, .list defaults, ?_, ?_, .list hsame⟩
    · simp only [ofType, TypeRef.nullable, hvalues fieldsOf]
      rfl
    · simp only [Schema.literal, TypeRef.nullable, hliterals]
      rfl
    · simp only [literal?, hdirects, Option.map_some]
    · simp only [literal?, hdefaults, Option.map_some]
  induction items with
  | nil => exact ⟨[], [], [], [], fun _ => rfl, rfl, by simp, rfl, rfl, .nil⟩
  | cons v rest ih =>
    rw [List.forall_mem_cons] at h
    obtain ⟨value, literal, hvalue, hliteral, hlexical, direct, default, hdirect, hdefault, hsame⟩ :=
      h.1
    obtain ⟨values, literals, directs, defaults, hvalues, hliterals, hlexicals, hdirects, hdefaults,
      hsames⟩ := ih h.2
    refine ⟨value :: values, literal :: literals, direct :: directs, default :: defaults,
      fun fieldsOf => ?_, ?_, List.forall_mem_cons.mpr ⟨hlexical, hlexicals⟩, ?_, ?_,
      .cons hsame hsames⟩
    · simp [itemsOfType, hvalue, hvalues]
    · simp [Schema.literalItems, hliteral, hliterals]
    · simp [literals?, hdirect, hdirects]
    · simp [literals?, hdefault, hdefaults]

/-- A literal in the shape of its type survives. -/
theorem Fits.survives (h : Fits type v) (hlexical : v.IsLexical) : Survives ds type v := by
  induction h with
  | nonNull h ih =>
    obtain ⟨value, literal, hvalue, hliteral, hmeans⟩ := ih hlexical
    refine ⟨value, literal, fun fieldsOf => ?_, ?_, hmeans⟩
    · rw [ofType_nonNull fieldsOf h.ne_null, hvalue]
    · rw [literal_nonNull, hliteral]
  | list _ ih =>
    exact survives_items fun v hv => ih v hv (isLexical_list.mp hlexical v hv)
  | string content block =>
    exact ⟨.string content, .string content false, fun _ => rfl, rfl, nofun,
      .string content, .string content, rfl, rfl, .string content⟩
  | @id content block h =>
    -- Only a string that writes an integer would be written as one.
    refine ⟨.string content, .string content false, fun _ => rfl, ?_, nofun,
      .string content, .string content, rfl, rfl, .string content⟩
    change Except.ok (Schema.textLiteral (some .id) content) = _
    rw [Schema.textLiteral, h]
  | boolean b =>
    exact ⟨.bool b, .boolean b, fun _ => rfl, rfl, nofun, .bool b, .bool b, rfl,
      rfl, .bool b⟩
  | @int n h =>
    refine ⟨.int n.toInt, .int (.ofInt n.toInt), fun _ => ?_, rfl, means_ofInt n⟩
    have hnamed : ofNamed ds "Int" (.int n) = .ok (.int n.toInt) := if_pos h
    simp only [ofType, TypeRef.baseName, hnamed]
    rfl
  | @whole n h =>
    -- The value is a double, so the literal may well have a fraction or an exponent.
    obtain ⟨m, hm, hmeans⟩ := means_toNumeral? h trivial
    refine ⟨.float n.toBinary64, Schema.numeralLiteral m, fun _ => rfl, ?_, hmeans⟩
    have hnumeral : n.toBinary64.toNumeral? = some m := hm
    change Schema.leafLiteral (some .float) (.float n.toBinary64) = _
    simp only [Schema.leafLiteral, hnumeral]
  | @float n h =>
    obtain ⟨m, hm, hmeans⟩ := means_toNumeral? h (isLexical_float.mp hlexical)
    refine ⟨.float n.toBinary64, Schema.numeralLiteral m, fun _ => rfl, ?_, hmeans⟩
    have hnumeral : n.toBinary64.toNumeral? = some m := hm
    change Schema.leafLiteral (some .float) (.float n.toBinary64) = _
    simp only [Schema.leafLiteral, hnumeral]

end Value

end SchemaClasses
