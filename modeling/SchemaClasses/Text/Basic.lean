/-!
# Texts

The text of settings and of generated code. A setting may write half of a surrogate pair alone, and
the half goes into the code as it is. So such a text is a sequence of code points, not all of which
are characters. Names, documents and files hold characters only and are strings.
-/

namespace SchemaClasses

/-! ## Code points -/

/-- A character, or a half of a surrogate pair that stands alone. -/
inductive CodePoint
  | char (c : Char)
  /-- The half this many code points after the first one. -/
  | half (place : Fin 0x800)
deriving DecidableEq, Repr

namespace CodePoint

instance : Coe Char CodePoint := ⟨char⟩

def char? : CodePoint → Option Char
  | .char c => some c
  | .half _ => none

/-- The character that stands for the code point where only characters can be shown. -/
def shown : CodePoint → Char
  | .char c => c
  | .half _ => '\ufffd'

/-- The number of a half. -/
def halfNumber (place : Fin 0x800) : Nat := 0xd800 + place

end CodePoint

/-! ## Texts -/

/-- A sequence of code points. -/
@[ext] structure Text where
  points : List CodePoint
deriving DecidableEq, Repr, Inhabited

namespace Text

@[coe] def ofString (s : String) : Text := ⟨s.toList.map .char⟩

instance : Coe String Text := ⟨ofString⟩

instance : Append Text := ⟨fun a b => ⟨a.points ++ b.points⟩⟩

def isEmpty (text : Text) : Bool := text.points.isEmpty

/-- The text as a string, if it has no halves. -/
def string? (text : Text) : Option String :=
  String.ofList <$> text.points.mapM CodePoint.char?

/-- The characters that a reader of the text goes by. A half is none of those that mean anything to
    a reader, and neither is the replacement character, which stands for it here. -/
def chars (text : Text) : List Char := text.points.map CodePoint.shown

@[simp] theorem points_append (a b : Text) : (a ++ b).points = a.points ++ b.points := rfl

@[simp] theorem points_ofString (s : String) : (ofString s).points = s.toList.map .char := rfl

@[simp] theorem chars_append (a b : Text) : (a ++ b).chars = a.chars ++ b.chars :=
  List.map_append

@[simp] theorem chars_ofString (s : String) : (ofString s).chars = s.toList := by
  simp [chars, Function.comp_def, CodePoint.shown]

@[simp] theorem ofString_append (a b : String) : ofString (a ++ b) = ofString a ++ ofString b := by
  ext1
  simp

/-- Code points are all characters exactly if they are those of a text without halves. -/
theorem mapM_char?_eq_some {points : List CodePoint} {chars : List Char} :
    points.mapM CodePoint.char? = some chars ↔ points = chars.map .char := by
  induction points generalizing chars with
  | nil => cases chars <;> simp
  | cons point rest ih =>
    cases point with
    | half place => cases chars <;> simp [CodePoint.char?]
    | char c =>
      cases chars <;> simp [CodePoint.char?, Option.bind_eq_some_iff, ih, and_comm, and_assoc]

/-- A text is one string at most. -/
theorem string?_eq_some {text : Text} {s : String} : text.string? = some s ↔ text = s := by
  rw [string?, Text.ext_iff, points_ofString, ← mapM_char?_eq_some]
  cases text.points.mapM CodePoint.char? with
  | none => simp
  | some chars =>
    simp only [Option.map_eq_map, Option.map_some, Option.some.injEq]
    exact ⟨fun h => by rw [← h, String.toList_ofList], fun h => by rw [h, String.ofList_toList]⟩

@[simp] theorem string?_ofString (s : String) : (ofString s).string? = some s :=
  string?_eq_some.mpr rfl

/-- A string is found again in the text that it is. -/
@[simp] theorem ofString_inj {a b : String} : ofString a = ofString b ↔ a = b := by
  rw [← string?_eq_some, string?_ofString, Option.some.injEq]

@[simp] theorem isEmpty_iff {text : Text} : text.isEmpty ↔ text = "" := by
  rw [isEmpty, List.isEmpty_iff, Text.ext_iff]
  rfl

@[simp] theorem isEmpty_eq_false_iff {text : Text} : text.isEmpty = false ↔ text ≠ "" := by
  rw [← Bool.not_eq_true, isEmpty_iff]

@[simp] theorem append_eq_empty {a b : Text} : a ++ b = "" ↔ a = "" ∧ b = "" := by
  simp [Text.ext_iff]

theorem append_assoc (a b c : Text) : a ++ b ++ c = a ++ (b ++ c) := by
  ext1
  simp

end Text

end SchemaClasses
