import SchemaClasses.Proofs.Literals.Reading

/-!
# Numerals as literals

A numeral consists of a sign, a whole part, a fraction and an exponent, and its text shows where
each of them ends. So the text of a numeral is read as a number, and no two numerals that a document
can hold have the same text.
-/

namespace SchemaClasses.Decimal

open Literal (IsDigits IsFraction IsExponent Ends signChars)

/-! ## Parts -/

/-- The point and the places after it, if there are any. -/
def fractionChars (places : List Digit) : List Char :=
  if places.isEmpty then [] else '.' :: places.map Digit.char

def exponentChars (exponent : Option ExponentPart) : List Char :=
  (exponent.map ExponentPart.chars).getD []

theorem FloatNumeral.chars_eq (n : FloatNumeral) :
    n.chars = signChars n.negative ++ Nat.toDigits 10 n.whole ++ fractionChars n.fraction
      ++ exponentChars n.exponent := rfl

/-- The parts of a number as it is written; an integer has neither a fraction nor an exponent. -/
def Numeral.parts : Numeral → FloatNumeral
  | .int n => ⟨n.negative, n.magnitude, [], none⟩
  | .float n => n

/-- A numeral is written like its parts. -/
theorem Numeral.text_eq_parts (n : Numeral) : n.text = n.parts.text := by
  cases n with
  | int n =>
    have hchars : (parts (.int n)).chars = n.chars ++ [] ++ [] := rfl
    rw [List.append_nil, List.append_nil] at hchars
    exact congrArg String.ofList hchars.symm
  | float n => rfl

/-- A number with a fraction or an exponent as a document can hold it: it does have one of them, and
    an exponent has a digit. -/
def FloatNumeral.IsLexical (n : FloatNumeral) : Prop :=
  (n.fraction ≠ [] ∨ n.exponent.isSome) ∧ ∀ e ∈ n.exponent, e.digits ≠ []

instance (n : FloatNumeral) : Decidable n.IsLexical :=
  inferInstanceAs (Decidable (_ ∧ _))

def Numeral.IsLexical : Numeral → Prop
  | .int _ => True
  | .float n => n.IsLexical

theorem Numeral.IsLexical.exponent {n : Numeral} (h : n.IsLexical) :
    ∀ e ∈ n.parts.exponent, e.digits ≠ [] := by
  cases n with
  | int n => simp [parts]
  | float n => exact h.2

theorem isDigit_char : ∀ d : Digit, d.char.isDigit := by decide

theorem isDigits_toDigits (n : Nat) : IsDigits (Nat.toDigits 10 n) :=
  ⟨Nat.toDigits_ne_nil, fun _ hc => Nat.isDigit_of_mem_toDigits (by omega) (by omega) hc⟩

theorem isDigits_map_char {places : List Digit} (h : places ≠ []) :
    IsDigits (places.map Digit.char) := by
  refine ⟨by simpa using h, fun c hc => ?_⟩
  obtain ⟨d, -, rfl⟩ := List.mem_map.mp hc
  exact isDigit_char d

theorem head?_toDigits_ne_zero {n : Nat} (h : 0 < n) : (Nat.toDigits 10 n).head? ≠ some '0' := by
  induction n using Nat.strongRecOn with
  | _ n ih =>
    by_cases hsmall : n < 10
    · have hdigit : ∀ k < 10, 0 < k → [k.digitChar].head? ≠ some '0' := by decide
      rw [Nat.toDigits_of_lt_base hsmall]
      exact hdigit n hsmall h
    · rw [Nat.toDigits_of_base_le (by omega) (by omega),
        List.head?_append_of_ne_nil _ Nat.toDigits_ne_nil]
      exact ih (n / 10) (by omega) (by omega)

/-- Zero alone is written with a zero in front. -/
theorem toDigits_of_head {n : Nat} (h : (Nat.toDigits 10 n).head? = some '0') :
    Nat.toDigits 10 n = ['0'] := by
  rcases Nat.eq_zero_or_pos n with rfl | hn
  · exact Nat.toDigits_zero 10
  · exact absurd h (head?_toDigits_ne_zero hn)

theorem isFraction_fractionChars (places : List Digit) : IsFraction (fractionChars places) := by
  unfold fractionChars
  split
  case isTrue => exact .inl rfl
  case isFalse h => exact .inr ⟨_, isDigits_map_char (by simpa using h), rfl⟩

/-- An exponent with digits is written as a literal can have it. -/
theorem isExponent_exponentChars {exponent : Option ExponentPart}
    (h : ∀ e ∈ exponent, e.digits ≠ []) : IsExponent (exponentChars exponent) := by
  cases exponent with
  | none => exact .inl rfl
  | some e =>
    refine .inr ⟨if e.capital then 'E' else 'e', _, e.digits.map Digit.char, ?_, ?_,
      isDigits_map_char (h e rfl), rfl⟩
    · cases e.capital <;> simp
    · rcases e.sign with _ | _ | _ <;> simp

/-! ## Texts -/

theorem toDigits_inj {m n : Nat} (h : Nat.toDigits 10 m = Nat.toDigits 10 n) : m = n := by
  have := congrArg (Nat.ofDigitChars 10 · 0) h
  simpa only [Nat.ofDigitChars_ten_toDigits] using this

theorem char_injective : Function.Injective Digit.char := by
  have : ∀ a b : Digit, a.char = b.char → a = b := by decide
  exact this

/-- Fractions that are written alike have the same places. -/
theorem fractionChars_injective : Function.Injective fractionChars := by
  intro first second h
  unfold fractionChars at h
  cases first <;> cases second <;> simp_all [char_injective.eq_iff, char_injective.list_map.eq_iff]

def exponentSignChars : Option Bool → List Char
  | none => []
  | some true => ['-']
  | some false => ['+']

theorem ExponentPart.chars_eq (e : ExponentPart) :
    e.chars = (if e.capital then 'E' else 'e') ::
      (exponentSignChars e.sign ++ e.digits.map Digit.char) := by
  obtain ⟨capital, sign, digits⟩ := e
  rcases sign with _ | _ | _ <;> rfl

theorem exponentSignChars_cases (sign : Option Bool) :
    exponentSignChars sign = [] ∨ exponentSignChars sign = ['-'] ∨
      exponentSignChars sign = ['+'] := by
  rcases sign with _ | _ | _ <;> simp [exponentSignChars]

/-- The parts of an exponent that has digits can be told apart. -/
theorem ExponentPart.chars_inj {first second : ExponentPart} (hfirst : first.digits ≠ [])
    (hsecond : second.digits ≠ []) (h : first.chars = second.chars) : first = second := by
  have hsign : ∀ e : ExponentPart, e.digits ≠ [] →
      Literal.exponentSign (exponentSignChars e.sign ++ e.digits.map Digit.char) =
        exponentSignChars e.sign := by
    intro e he
    have := Literal.exponentSign_append (exponentSignChars_cases e.sign) (isDigits_map_char he) []
    rwa [List.append_nil] at this
  obtain ⟨capital, sign, digits⟩ := first
  obtain ⟨capital', sign', digits'⟩ := second
  rw [chars_eq, chars_eq, List.cons.injEq] at h
  obtain ⟨hletter, hrest⟩ := h
  -- The digits start with no sign, so the signs are equal first, and then the digits.
  have hsigns : exponentSignChars sign = exponentSignChars sign' := by
    rw [← hsign _ hfirst, ← hsign _ hsecond]
    exact congrArg Literal.exponentSign hrest
  obtain rfl : capital = capital' := by
    cases capital <;> cases capital' <;> simp at hletter ⊢
  obtain rfl : sign = sign' := by
    rcases sign with _ | _ | _ <;> rcases sign' with _ | _ | _ <;>
      simp [exponentSignChars] at hsigns ⊢
  obtain rfl : digits = digits' :=
    char_injective.list_map (List.append_cancel_left hrest)
  rfl

/-- The text of a number shows its parts. -/
theorem FloatNumeral.text_inj {first second : FloatNumeral}
    (hfirst : ∀ e ∈ first.exponent, e.digits ≠ []) (hsecond : ∀ e ∈ second.exponent, e.digits ≠ [])
    (h : first.text = second.text) : first = second := by
  have hparts : ∀ n : FloatNumeral, (∀ e ∈ n.exponent, e.digits ≠ []) →
      Literal.numberParts n.chars =
        ⟨signChars n.negative, Nat.toDigits 10 n.whole, fractionChars n.fraction,
          exponentChars n.exponent, []⟩ := by
    intro n hn
    have := Literal.numberParts_append n.negative (isDigits_toDigits n.whole)
      (isFraction_fractionChars n.fraction) (isExponent_exponentChars hn) Literal.ends_nil
    rwa [List.append_nil, ← FloatNumeral.chars_eq] at this
  -- Equal texts are read as equal parts, each of which determines one part of the number.
  have hsame := congrArg (fun text => Literal.numberParts text.toList) h
  simp only [FloatNumeral.text, String.toList_ofList] at hsame
  rw [hparts first hfirst, hparts second hsecond] at hsame
  simp only [Literal.NumberParts.mk.injEq] at hsame
  obtain ⟨hsign, hwhole, hfraction, hexponent, -⟩ := hsame
  obtain ⟨negative, whole, fraction, exponent⟩ := first
  obtain ⟨negative', whole', fraction', exponent'⟩ := second
  obtain rfl : negative = negative' := by
    cases negative <;> cases negative' <;> simp [signChars] at hsign ⊢
  obtain rfl : whole = whole' := toDigits_inj hwhole
  obtain rfl : fraction = fraction' := fractionChars_injective hfraction
  obtain rfl : exponent = exponent' := by
    cases exponent with
    | none => cases exponent' with
      | none => rfl
      | some e => simp [exponentChars, ExponentPart.chars] at hexponent
    | some e => cases exponent' with
      | none => simp [exponentChars, ExponentPart.chars] at hexponent
      | some e' => rw [ExponentPart.chars_inj (hfirst e rfl) (hsecond e' rfl) hexponent]
  rfl

/-- No two numbers of documents have the same text. -/
theorem Numeral.text_inj {first second : Numeral} (hfirst : first.IsLexical)
    (hsecond : second.IsLexical) (h : first.text = second.text) : first = second := by
  rw [text_eq_parts, text_eq_parts] at h
  have hparts := FloatNumeral.text_inj hfirst.exponent hsecond.exponent h
  cases first with
  | int n => cases second with
    | int m =>
      obtain ⟨negative, magnitude⟩ := n
      obtain ⟨negative', magnitude'⟩ := m
      simpa [parts] using hparts
    | float m =>
      -- A number without a fraction and an exponent is written as an integer only.
      obtain rfl : parts (.int n) = m := hparts
      simp [IsLexical, FloatNumeral.IsLexical, parts] at hsecond
  | float n => cases second with
    | int m =>
      obtain rfl : n = parts (.int m) := hparts
      simp [IsLexical, FloatNumeral.IsLexical, parts] at hfirst
    | float m => exact congrArg Numeral.float hparts

/-- A number is read as it is written. -/
theorem Numeral.readNumber_text {n : Numeral} (h : n.IsLexical) {rest : List Char}
    (hrest : Ends rest) : Literal.readNumber (n.text.toList ++ rest) = some (.number n.text, rest) := by
  rw [text_eq_parts, FloatNumeral.text, String.toList_ofList, FloatNumeral.chars_eq]
  exact Literal.readNumber_append _ (isDigits_toDigits _) toDigits_of_head
    (isFraction_fractionChars _) (isExponent_exponentChars h.exponent) hrest

end SchemaClasses.Decimal
