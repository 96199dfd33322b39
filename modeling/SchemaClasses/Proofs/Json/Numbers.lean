import SchemaClasses.Proofs.Decimal.ExactNumerals
import SchemaClasses.Proofs.Json.Strings
import SchemaClasses.Proofs.Tokens

/-!
# Reading numbers and words

A number is read up to where it ends, and with the parts that its text shows.
-/

namespace SchemaClasses

/-! ## Digits -/

namespace Decimal

open Literal (IsDigits Stops)

theorem char_of_ofChar? {c : Char} {d : Digit} (h : Digit.ofChar? c = some d) : d.char = c := by
  unfold Digit.ofChar? at h
  split at h
  case isTrue hrange =>
    obtain rfl := Option.some.inj h
    have hchar : ∀ n < 10, Nat.digitChar n = Char.ofNat (n + '0'.toNat) := by decide
    rw [Digit.char, hchar _ hrange.1, Nat.sub_add_cancel hrange.2, Char.ofNat_toNat]
  case isFalse => cases h

/-- Digits that are taken from characters have these characters. -/
theorem map_char_filterMap {text : List Char} (h : ∀ c ∈ text, c.isDigit) :
    (text.filterMap Digit.ofChar?).map Digit.char = text := by
  induction text with
  | nil => rfl
  | cons c rest ih =>
    rw [List.forall_mem_cons] at h
    obtain ⟨d, hd⟩ := Option.isSome_iff_exists.mp (Token.ofChar?_isSome h.1)
    rw [List.filterMap_cons, hd, List.map_cons, char_of_ofChar? hd, ih h.2]

theorem filterMap_map_char (places : List Digit) :
    (places.map Digit.char).filterMap Digit.ofChar? = places := by
  induction places with
  | nil => rfl
  | cons d rest ih => rw [List.map_cons, List.filterMap_cons, Digit.char, ofChar?_digitChar, ih]

theorem digitChar_of_isDigit {c : Char} (h : c.isDigit) :
    c.toNat - '0'.toNat < 10 ∧ Nat.digitChar (c.toNat - '0'.toNat) = c := by
  obtain ⟨d, hd⟩ := Option.isSome_iff_exists.mp (Token.ofChar?_isSome h)
  have hchar := char_of_ofChar? hd
  unfold Digit.ofChar? at hd
  split at hd
  case isTrue hrange =>
    obtain rfl := Option.some.inj hd
    exact ⟨hrange.1, hchar⟩
  case isFalse => cases hd

/-- Digits after a number are written after it. -/
theorem toDigits_append {n : Nat} (hn : 0 < n) {text : List Char} (h : ∀ c ∈ text, c.isDigit) :
    Nat.toDigits 10 (Nat.ofDigitChars 10 text n) = Nat.toDigits 10 n ++ text := by
  induction text generalizing n with
  | nil => simp
  | cons c rest ih =>
    rw [List.forall_mem_cons] at h
    obtain ⟨hlt, hchar⟩ := digitChar_of_isDigit h.1
    rw [Nat.ofDigitChars_cons, ih (by omega) h.2,
      ← Nat.toDigits_append_toDigits (by omega) hn hlt, Nat.toDigits_of_lt_base hlt, hchar,
      List.append_assoc, List.singleton_append]

/-- A number without superfluous zeros in front is written in this way only. -/
theorem toDigits_ofDigitChars {text : List Char} (h : IsDigits text)
    (hzero : text.head? = some '0' → text = ['0']) :
    Nat.toDigits 10 (Nat.ofDigitChars 10 text 0) = text := by
  obtain ⟨c, rest, rfl⟩ := List.exists_cons_of_ne_nil h.1
  by_cases hc : c = '0'
  · subst hc
    rw [hzero rfl]
    rfl
  · have hdigits := List.forall_mem_cons.mp h.2
    obtain ⟨hlt, hchar⟩ := digitChar_of_isDigit hdigits.1
    have hpos : 0 < c.toNat - '0'.toNat := by
      refine Nat.pos_of_ne_zero fun hzero => hc ?_
      rw [← hchar, hzero]
      rfl
    rw [Nat.ofDigitChars_cons, Nat.mul_zero, Nat.zero_add, toDigits_append hpos hdigits.2,
      Nat.toDigits_of_lt_base hlt, hchar, List.singleton_append]

end Decimal

/-! ## Numbers -/

namespace Json

open Decimal (Numeral FloatNumeral ExponentPart fractionChars exponentChars exponentSignChars)
open Literal (IsDigits Stops)

def leadingWhole : List Char → List Char
  | '0' :: _ => ['0']
  | text => leadingDigits text

def leadingFraction : List Char → List Char
  | '.' :: rest => leadingDigits rest
  | _ => []

def afterFraction (text : List Char) : List Char :=
  if (leadingFraction text).isEmpty then text else text.drop ((leadingFraction text).length + 1)

theorem isDigits_leadingDigits {text : List Char} (h : leadingDigits text ≠ []) :
    IsDigits (leadingDigits text) :=
  ⟨h, fun _ hc => List.all_eq_true.mp List.all_takeWhile _ hc⟩

theorem leadingDigits_front (text : List Char) : leadingDigits text <+: text :=
  List.takeWhile_prefix _

/-- A text is what is in front of it and what is after that. -/
theorem append_drop_of_front {front text : List Char} (h : front <+: text) :
    front ++ text.drop front.length = text := by
  obtain ⟨back, rfl⟩ := h
  rw [List.drop_left]

theorem leadingWhole_eq (text : List Char) :
    leadingWhole text = if text.head? = some '0' then ['0'] else leadingDigits text := by
  unfold leadingWhole
  split
  case h_1 => rfl
  case h_2 hzero =>
    refine (if_neg fun hhead => ?_).symm
    obtain ⟨rest, rfl⟩ := List.head?_eq_some_iff.mp hhead
    exact hzero rest rfl

theorem leadingWhole_front (text : List Char) : leadingWhole text <+: text := by
  rw [leadingWhole_eq]
  split
  case isTrue hhead =>
    obtain ⟨rest, rfl⟩ := List.head?_eq_some_iff.mp hhead
    exact ⟨rest, rfl⟩
  case isFalse => exact leadingDigits_front text

theorem isDigit_leadingWhole (text : List Char) : ∀ c ∈ leadingWhole text, c.isDigit := by
  rw [leadingWhole_eq]
  split
  case isTrue => simp
  case isFalse => exact fun _ hc => List.all_eq_true.mp List.all_takeWhile _ hc

/-- The digits in front of a text write a number without superfluous zeros. -/
theorem toDigits_leadingWhole {text : List Char} (h : leadingWhole text ≠ []) :
    Nat.toDigits 10 (Nat.ofDigitChars 10 (leadingWhole text) 0) = leadingWhole text := by
  rw [leadingWhole_eq] at h ⊢
  by_cases hzero : text.head? = some '0'
  · rw [if_pos hzero]
    rfl
  · rw [if_neg hzero] at h ⊢
    refine Decimal.toDigits_ofDigitChars (isDigits_leadingDigits h) fun hhead => absurd ?_ hzero
    obtain ⟨back, hback⟩ := leadingDigits_front text
    rw [← hback, List.head?_append_of_ne_nil _ h, hhead]

theorem filterMap_leadingFraction {text : List Char} :
    (leadingFraction text).filterMap Decimal.Digit.ofChar? = [] ↔ leadingFraction text = [] := by
  refine ⟨fun h => ?_, fun h => by rw [h]; rfl⟩
  by_contra hne
  have hdigits : IsDigits (leadingFraction text) := by
    revert hne
    unfold leadingFraction
    split
    case h_1 => exact isDigits_leadingDigits
    case h_2 => exact fun hne => absurd rfl hne
  exact Token.filterMap_ofChar?_ne_nil hdigits h

/-- A fraction and what follows it make up the text. -/
theorem leadingFraction_append (text : List Char) :
    fractionChars ((leadingFraction text).filterMap Decimal.Digit.ofChar?) ++ afterFraction text =
      text := by
  by_cases h : leadingFraction text = []
  · simp [afterFraction, h, fractionChars]
  · unfold afterFraction
    rw [if_neg (by simpa using h)]
    revert h
    unfold leadingFraction
    split
    case h_1 rest =>
      intro h
      have hdigits := isDigits_leadingDigits h
      rw [fractionChars, if_neg (by simpa using Token.filterMap_ofChar?_ne_nil hdigits),
        Decimal.map_char_filterMap hdigits.2, List.drop_succ_cons, List.cons_append,
        append_drop_of_front (leadingDigits_front rest)]
    case h_2 => exact fun h => absurd rfl h

/-- The sign and the digits of an exponent, after its letter. -/
def signedDigits (text : List Char) : Option Bool × List Char :=
  match text with
  | '-' :: more => (some true, leadingDigits more)
  | '+' :: more => (some false, leadingDigits more)
  | _ => (none, leadingDigits text)

theorem signedDigits_front (text : List Char) :
    exponentSignChars (signedDigits text).1 ++ (signedDigits text).2 <+: text := by
  unfold signedDigits
  split
  case h_1 more | h_2 more => exact (List.prefix_cons_inj _).mpr (leadingDigits_front more)
  case h_3 => exact leadingDigits_front text

theorem isDigits_signedDigits {text : List Char} (h : (signedDigits text).2 ≠ []) :
    IsDigits (signedDigits text).2 := by
  revert h
  unfold signedDigits
  split <;> exact isDigits_leadingDigits

theorem leadingExponent?_cons (letter : Char) (rest : List Char) :
    leadingExponent? (letter :: rest) =
      if letter = 'e' ∨ letter = 'E' then
        if (signedDigits rest).2 = [] then none
        else some ⟨letter = 'E', (signedDigits rest).1,
          (signedDigits rest).2.filterMap Decimal.Digit.ofChar?⟩
      else none := by
  have hletters : leadingExponent? (letter :: rest) =
      if letter = 'e' || letter = 'E' then
        if (signedDigits rest).2.isEmpty then none
        else some ⟨letter = 'E', (signedDigits rest).1,
          (signedDigits rest).2.filterMap Decimal.Digit.ofChar?⟩
      else none := rfl
  simpa only [Bool.or_eq_true, decide_eq_true_eq, List.isEmpty_iff] using hletters

/-- An exponent has digits, and is in front of the text that it is taken from. -/
theorem leadingExponent?_eq_some {text : List Char} {part : ExponentPart}
    (h : leadingExponent? text = some part) : part.digits ≠ [] ∧ part.chars <+: text := by
  cases text with
  | nil => cases h
  | cons letter rest =>
    rw [leadingExponent?_cons] at h
    split at h
    case isTrue hletter =>
      split at h
      case isTrue => cases h
      case isFalse hne =>
        obtain rfl := Option.some.inj h
        have hdigits := isDigits_signedDigits hne
        refine ⟨Token.filterMap_ofChar?_ne_nil hdigits, ?_⟩
        have hcapital : (if decide (letter = 'E') then 'E' else 'e') = letter := by
          rcases hletter with rfl | rfl <;> rfl
        rw [ExponentPart.chars_eq, Decimal.map_char_filterMap hdigits.2, hcapital,
          List.prefix_cons_inj]
        exact signedDigits_front rest
    case isFalse => cases h

/-- The number in front of a text, after its sign. -/
def leadingNumber (negative : Bool) (text : List Char) : FloatNumeral :=
  let afterWhole := text.drop (leadingWhole text).length
  ⟨negative, Nat.ofDigitChars 10 (leadingWhole text) 0,
    (leadingFraction afterWhole).filterMap Decimal.Digit.ofChar?,
    leadingExponent? (afterFraction afterWhole)⟩

def afterNumber (text : List Char) : List Char :=
  let afterPlaces := afterFraction (text.drop (leadingWhole text).length)
  afterPlaces.drop (exponentChars (leadingExponent? afterPlaces)).length

def magnitudeChars (n : FloatNumeral) : List Char :=
  Nat.toDigits 10 n.whole ++ (fractionChars n.fraction ++ exponentChars n.exponent)

/-- A number and what follows it make up the text. -/
theorem leadingNumber_append (negative : Bool) {text : List Char} (h : leadingWhole text ≠ []) :
    magnitudeChars (leadingNumber negative text) ++ afterNumber text = text := by
  have hexponent (places : List Char) :
      exponentChars (leadingExponent? places) <+: places := by
    cases hpart : leadingExponent? places with
    | none => exact List.nil_prefix
    | some part => exact (leadingExponent?_eq_some hpart).2
  simp only [magnitudeChars, leadingNumber, afterNumber, List.append_assoc,
    append_drop_of_front (hexponent _), leadingFraction_append, toDigits_leadingWhole h,
    append_drop_of_front (leadingWhole_front text)]

def ofParts (n : FloatNumeral) : Numeral :=
  if n.fraction = [] ∧ n.exponent = none then .int ⟨n.negative, n.whole⟩ else .float n

theorem integerDigits_ofParts_le (n : FloatNumeral) :
    integerDigits (ofParts n) ≤ (Nat.toDigits 10 n.whole).length := by
  unfold ofParts
  split
  case isTrue => exact Nat.le_refl _
  case isFalse => exact Nat.zero_le _

theorem parts_ofParts (n : FloatNumeral) : (ofParts n).parts = n := by
  unfold ofParts
  split
  case isTrue h =>
    obtain ⟨negative, whole, fraction, exponent⟩ := n
    obtain ⟨rfl, rfl⟩ := h
    rfl
  case isFalse => rfl

theorem isLexical_ofParts {n : FloatNumeral} (h : ∀ e ∈ n.exponent, e.digits ≠ []) :
    (ofParts n).IsLexical := by
  unfold ofParts
  split
  case isTrue => trivial
  case isFalse hparts =>
    refine ⟨?_, h⟩
    rw [Option.isSome_iff_ne_none]
    exact not_and_or.mp hparts

/-- A number is put together again from its parts. -/
theorem ofParts_parts {n : Numeral} (h : n.IsLexical) : ofParts n.parts = n := by
  cases n with
  | int n => rfl
  | float n =>
    refine if_neg fun hparts => ?_
    rcases h.1 with hfraction | hexponent
    · exact hfraction hparts.1
    · have hnone : n.exponent = none := hparts.2
      rw [hnone] at hexponent
      cases hexponent

def Cursor.afterFraction (c : Cursor) : Cursor :=
  if (leadingFraction c.rest).isEmpty then c else c.advance ((leadingFraction c.rest).length + 1)

theorem Cursor.afterFraction_rest (c : Cursor) :
    c.afterFraction.rest = Json.afterFraction c.rest := by
  unfold afterFraction Json.afterFraction
  split <;> rfl

def Cursor.afterExponent (c : Cursor) : Cursor :=
  match leadingExponent? c.rest with
  | some part => c.advance part.chars.length
  | none => c

theorem Cursor.afterExponent_rest (c : Cursor) :
    c.afterExponent.rest = c.rest.drop (exponentChars (leadingExponent? c.rest)).length := by
  unfold afterExponent
  cases leadingExponent? c.rest <;> rfl

/-- The number in front of a text is read, unless it is an integer of too many digits. -/
theorem readMagnitude_eq (negative : Bool) (c : Cursor) :
    ∃ after : Cursor, after.rest = afterNumber c.rest ∧
      readMagnitude negative c =
        if leadingWhole c.rest = [] then .error .expectedValue
        else
          let n := ofParts (leadingNumber negative c.rest)
          if Decimal.maxDigits < integerDigits n then .error (.tooManyDigits (integerDigits n))
          else .ok (ofNumeral n, after) := by
  refine ⟨(c.advance (leadingWhole c.rest).length).afterFraction.afterExponent, ?_, ?_⟩
  · rw [Cursor.afterExponent_rest, Cursor.afterFraction_rest]
    rfl
  · have hsteps : readMagnitude negative c =
        let whole := leadingWhole c.rest
        let afterWhole := c.advance whole.length
        let fraction := leadingFraction afterWhole.rest
        let exponent := leadingExponent? afterWhole.afterFraction.rest
        let after := afterWhole.afterFraction.afterExponent
        let magnitude := Nat.ofDigitChars 10 whole 0
        if whole.isEmpty then .error .expectedValue
        else if fraction.isEmpty && exponent.isNone then
          if Decimal.maxDigits < whole.length then .error (.tooManyDigits whole.length)
          else .ok (.int (if negative then -(magnitude : Int) else magnitude), after)
        else
          .ok (.float (FloatNumeral.toBinary64
            ⟨negative, magnitude, fraction.filterMap Decimal.Digit.ofChar?, exponent⟩), after) := by
      unfold readMagnitude
      rfl
    simp only [hsteps, Cursor.afterFraction_rest, Cursor.advance_rest, Bool.and_eq_true,
      List.isEmpty_iff, Option.isNone_iff_eq_none, ← filterMap_leadingFraction]
    split
    case isTrue => rfl
    case isFalse hwhole =>
      split
      -- Only an integer, which has neither of the two parts, is limited in its digits.
      case isTrue hparts =>
        have hinteger : ofParts (leadingNumber negative c.rest) =
            .int ⟨negative, Nat.ofDigitChars 10 (leadingWhole c.rest) 0⟩ := if_pos hparts
        rw [hinteger, integerDigits, toDigits_leadingWhole hwhole]
        rfl
      case isFalse hparts =>
        have hdouble : ofParts (leadingNumber negative c.rest) =
            .float (leadingNumber negative c.rest) := if_neg hparts
        rw [hdouble, integerDigits, if_neg (Nat.not_lt_zero _)]
        rfl

/-- What may follow a value: nothing, white space, or a character that separates or closes. -/
def Ends (rest : List Char) : Prop :=
  ∀ c ∈ rest.head?, isBlank c ∨ c = ',' ∨ c = ']' ∨ c = '\x7d'

theorem Ends.stops {p : Char → Bool} {rest : List Char} (h : Ends rest)
    (hp : [' ', '\t', '\n', '\r', ',', ']', '\x7d'].all (!p ·)) : Stops p rest := by
  intro c hc
  have hmem : c ∈ [' ', '\t', '\n', '\r', ',', ']', '\x7d'] := by
    have := h c hc
    simp only [isBlank, Bool.or_eq_true, decide_eq_true_eq] at this
    simp only [List.mem_cons, List.not_mem_nil, or_false]
    tauto
  simpa using List.all_eq_true.mp hp c hmem

/-- The digits of a number are found before anything but digits. -/
theorem leadingWhole_toDigits (n : Nat) {back : List Char} (hback : Stops Char.isDigit back) :
    leadingWhole (Nat.toDigits 10 n ++ back) = Nat.toDigits 10 n := by
  rw [leadingWhole_eq, List.head?_append_of_ne_nil _ Nat.toDigits_ne_nil]
  split
  case isTrue hhead => exact (Decimal.toDigits_of_head hhead).symm
  case isFalse =>
    exact Literal.takeWhile_append_of_stops (Decimal.isDigits_toDigits n).2 hback

theorem leadingFraction_fractionChars (places : List Decimal.Digit) {back : List Char}
    (hback : Stops (fun c => c.isDigit || c == '.') back) :
    (leadingFraction (fractionChars places ++ back)).filterMap Decimal.Digit.ofChar? = places ∧
      afterFraction (fractionChars places ++ back) = back := by
  by_cases hplaces : places = []
  -- Without places nothing is written, and what follows starts no fraction.
  · have hnone : leadingFraction back = [] := by
      unfold leadingFraction
      split
      case h_1 rest => exact absurd (hback '.' rfl) (by simp)
      case h_2 => rfl
    have hempty : fractionChars [] = [] := rfl
    rw [hplaces, hempty, List.nil_append, afterFraction, hnone]
    exact ⟨rfl, if_pos rfl⟩
  · have hdigits := Decimal.isDigits_map_char hplaces
    have hstops : Stops Char.isDigit back := fun c hc => by
      have := hback c hc
      simp only [Bool.or_eq_false_iff] at this
      exact this.1
    have hfraction : leadingFraction (fractionChars places ++ back) =
        places.map Decimal.Digit.char := by
      rw [fractionChars, if_neg (by simpa using hplaces), List.cons_append]
      exact Literal.takeWhile_append_of_stops hdigits.2 hstops
    rw [afterFraction, hfraction, Decimal.filterMap_map_char]
    refine ⟨rfl, ?_⟩
    rw [if_neg (by simpa using hplaces), fractionChars, if_neg (by simpa using hplaces),
      List.cons_append, List.drop_succ_cons, List.drop_left]

/-- Sign and digits of an exponent are told apart before anything but digits. -/
theorem signedDigits_append (sign : Option Bool) {digits rest : List Char}
    (hdigits : IsDigits digits) (hrest : Stops Char.isDigit rest) :
    signedDigits (exponentSignChars sign ++ (digits ++ rest)) = (sign, digits) := by
  have htake : leadingDigits (digits ++ rest) = digits :=
    Literal.takeWhile_append_of_stops hdigits.2 hrest
  rcases sign with _ | _ | _
  · have hhead : ∀ c more, digits ++ rest = c :: more → c.isDigit := fun c more heq => by
      obtain ⟨d, others, rfl⟩ := List.exists_cons_of_ne_nil hdigits.1
      obtain ⟨rfl, -⟩ := List.cons.inj heq
      exact hdigits.2 d List.mem_cons_self
    simp only [exponentSignChars, List.nil_append]
    unfold signedDigits
    split
    case h_1 more heq | h_2 more heq => exact absurd (hhead _ more heq) (by decide)
    case h_3 => rw [htake]
  · exact congrArg (some false, ·) htake
  · exact congrArg (some true, ·) htake

/-- An exponent is found as it was written. -/
theorem leadingExponent?_exponentChars {exponent : Option ExponentPart}
    (h : ∀ e ∈ exponent, e.digits ≠ []) {rest : List Char} (hrest : Ends rest) :
    leadingExponent? (exponentChars exponent ++ rest) = exponent := by
  cases exponent with
  | none =>
    cases rest with
    | nil => rfl
    | cons c more =>
      -- The number has ended, so what follows is not the letter of an exponent.
      have hletter : Stops (fun c => c == 'e' || c == 'E') (c :: more) := hrest.stops (by decide)
      have hc : ¬(c = 'e' ∨ c = 'E') := by simpa using hletter c rfl
      exact (leadingExponent?_cons c more).trans (if_neg hc)
  | some e =>
    obtain ⟨capital, sign, digits⟩ := e
    have hdigits := Decimal.isDigits_map_char (h _ rfl)
    have hsigned := signedDigits_append sign hdigits (hrest.stops (by decide))
    have hletter : (if capital then 'E' else 'e') = 'e' ∨ (if capital then 'E' else 'e') = 'E' := by
      cases capital <;> simp
    have hcapital : decide ((if capital then 'E' else 'e') = 'E') = capital := by
      cases capital <;> rfl
    rw [exponentChars, Option.map_some, Option.getD_some, ExponentPart.chars_eq, List.cons_append,
      List.append_assoc, leadingExponent?_cons, if_pos hletter, hsigned, if_neg hdigits.1, hcapital,
      Decimal.filterMap_map_char]

/-- A number is found as it was written, before everything that can follow a value. -/
theorem leadingNumber_magnitudeChars {n : FloatNumeral} (h : ∀ e ∈ n.exponent, e.digits ≠ [])
    {rest : List Char} (hrest : Ends rest) :
    leadingWhole (magnitudeChars n ++ rest) = Nat.toDigits 10 n.whole ∧
      leadingNumber n.negative (magnitudeChars n ++ rest) = n ∧
      afterNumber (magnitudeChars n ++ rest) = rest := by
  have hexponent := Decimal.isExponent_exponentChars h
  have hpoint : Stops (fun c => c.isDigit || c == '.') (exponentChars n.exponent ++ rest) :=
    (hexponent.stops ⟨rfl, rfl⟩).append fun _ => hrest.stops (by decide)
  have hback : Stops Char.isDigit
      (fractionChars n.fraction ++ (exponentChars n.exponent ++ rest)) :=
    ((Decimal.isFraction_fractionChars n.fraction).stops rfl).append fun _ =>
      (hexponent.stops ⟨rfl, rfl⟩).append fun _ => hrest.stops (by decide)
  obtain ⟨hfraction, hafter⟩ := leadingFraction_fractionChars n.fraction hpoint
  simp only [leadingNumber, afterNumber, magnitudeChars, List.append_assoc,
    leadingWhole_toDigits n.whole hback, List.drop_left, hfraction, hafter,
    leadingExponent?_exponentChars h hrest, Nat.ofDigitChars_ten_toDigits, and_self]

theorem toList_text (n : Numeral) :
    n.text.toList = Literal.signChars n.parts.negative ++ magnitudeChars n.parts := by
  rw [Numeral.text_eq_parts, FloatNumeral.text, String.toList_ofList, FloatNumeral.chars_eq,
    magnitudeChars, List.append_assoc, List.append_assoc]

theorem exists_digit (n : FloatNumeral) : ∃ d more, magnitudeChars n = d :: more ∧ d.isDigit := by
  obtain ⟨hne, hdigits⟩ := Decimal.isDigits_toDigits n.whole
  obtain ⟨d, more, heq⟩ := List.exists_cons_of_ne_nil hne
  exact ⟨d, _, by rw [magnitudeChars, heq, List.cons_append], hdigits d (heq ▸ List.mem_cons_self)⟩

/-- Whatever is read as a number is written as one. -/
theorem readMagnitude_sound {negative : Bool} {c after : Cursor} {value : Json Text}
    (h : readMagnitude negative c = .ok (value, after)) :
    ∃ n : Numeral, n.IsLexical ∧ integerDigits n ≤ Decimal.maxDigits ∧
      n.parts.negative = negative ∧ magnitudeChars n.parts ++ after.rest = c.rest ∧
      value = ofNumeral n := by
  obtain ⟨place, hplace, heq⟩ := readMagnitude_eq negative c
  rw [heq] at h
  split at h
  case isTrue => cases h
  case isFalse hwhole =>
    dsimp only at h
    split at h
    case isTrue => cases h
    case isFalse hdigits =>
      cases h
      -- An exponent is read only where digits follow its letter.
      have hexponent : ∀ e ∈ (leadingNumber negative c.rest).exponent, e.digits ≠ [] :=
        fun e he => (leadingExponent?_eq_some he).1
      refine ⟨_, isLexical_ofParts hexponent, Nat.not_lt.mp hdigits, ?_, ?_, rfl⟩
      · rw [parts_ofParts]
        rfl
      · rw [parts_ofParts, hplace, leadingNumber_append negative hwhole]

/-- A number that is written is read, unless it has too many digits. -/
theorem readMagnitude_complete {n : Numeral} (h : n.IsLexical) {c : Cursor} {rest : List Char}
    (hc : c.rest = magnitudeChars n.parts ++ rest) (hrest : Ends rest) :
    ∃ after : Cursor, after.rest = rest ∧ readMagnitude n.parts.negative c =
      if Decimal.maxDigits < integerDigits n then .error (.tooManyDigits (integerDigits n))
      else .ok (ofNumeral n, after) := by
  obtain ⟨after, hafter, heq⟩ := readMagnitude_eq n.parts.negative c
  obtain ⟨hdigits, hnumber, hend⟩ := leadingNumber_magnitudeChars h.exponent hrest
  have hwhole : leadingWhole c.rest ≠ [] := by
    rw [hc, hdigits]
    exact Nat.toDigits_ne_nil
  refine ⟨after, by rw [hafter, hc, hend], ?_⟩
  rw [heq, if_neg hwhole, hc, hnumber, ofParts_parts h]

/-- Only a number of too many digits exceeds a limit. -/
theorem readMagnitude_limit {negative : Bool} {c : Cursor} {fault : Fault}
    (h : readMagnitude negative c = .error fault) (hlimit : fault.isLimit) :
    Decimal.maxDigits < (leadingWhole c.rest).length := by
  obtain ⟨place, hplace, heq⟩ := readMagnitude_eq negative c
  rw [heq] at h
  split at h
  case isTrue =>
    cases h
    cases hlimit
  case isFalse hwhole =>
    dsimp only at h
    split at h
    case isTrue hdigits =>
      refine hdigits.trans_le ((integerDigits_ofParts_le _).trans_eq ?_)
      rw [leadingNumber, toDigits_leadingWhole hwhole]
    case isFalse => cases h

/-! ## Words and numbers -/

/-- The value whose word is in front of a text. -/
def wordValue? (text : List Char) : Option (List Char × Json Text) :=
  wordValues.find? fun (word, _) => word.isPrefixOf text

/-- No word is in front of another, nor in front of a number. -/
theorem wordValue?_append {word : List Char} {value : Json Text} (h : (word, value) ∈ wordValues)
    (rest : List Char) : wordValue? (word ++ rest) = some (word, value) := by
  simp only [wordValues, List.mem_cons, Prod.mk.injEq, List.not_mem_nil, or_false] at h
  rcases h with ⟨rfl, rfl⟩ | ⟨rfl, rfl⟩ | ⟨rfl, rfl⟩ | ⟨rfl, rfl⟩ | ⟨rfl, rfl⟩ | ⟨rfl, rfl⟩ <;> rfl

/-- No number starts with one of the words. -/
theorem wordValue?_number (n : Numeral) (rest : List Char) :
    wordValue? (n.text.toList ++ rest) = none := by
  obtain ⟨d, more, hmore, hd⟩ := exists_digit n.parts
  have hother {c : Char} (hc : c.isDigit = false) : c ≠ d := by
    rintro rfl
    rw [hc] at hd
    cases hd
  have hletters : 'n' ≠ d ∧ 't' ≠ d ∧ 'f' ≠ d ∧ 'N' ≠ d ∧ 'I' ≠ d ∧ '-' ≠ d :=
    ⟨hother rfl, hother rfl, hother rfl, hother rfl, hother rfl, hother rfl⟩
  rw [toList_text, hmore]
  cases n.parts.negative <;> simp [wordValue?, wordValues, Literal.signChars, hletters]

/-- A word or a number that is read is written in front of the rest. -/
theorem readAtom_sound {c after : Cursor} {value : Json Text} (h : readAtom c = .ok (value, after))
    (depth : Nat) : Writes Decimal.maxDigits depth c.rest (.value value) after.rest := by
  have hnumber {negative : Bool} {place : Cursor}
      (hplace : Literal.signChars negative ++ place.rest = c.rest)
      (hread : readMagnitude negative place = .ok (value, after)) :
      Writes Decimal.maxDigits depth c.rest (.value value) after.rest := by
    obtain ⟨n, hn, hdigits, rfl, hrest, rfl⟩ := readMagnitude_sound hread
    rw [← hplace, ← hrest, ← List.append_assoc, ← toList_text]
    exact .number hn hdigits
  unfold readAtom at h
  split at h
  case h_1 word value' hfind =>
    cases h
    have hfront : word.isPrefixOf c.rest := by simpa using List.find?_some hfind
    rw [← append_drop_of_front (List.isPrefixOf_iff_prefix.mp hfront)]
    exact .word (List.mem_of_find?_eq_some hfind)
  case h_2 =>
    rw [Success.mapError_eq_ok] at h
    split at h
    case h_1 more hminus => exact hnumber (by rw [Cursor.advance_rest, hminus]; rfl) h
    case h_2 => exact hnumber rfl h

theorem readAtom_word {word rest : List Char} {value : Json Text} (h : (word, value) ∈ wordValues)
    {c : Cursor} (hc : c.rest = word ++ rest) :
    ∃ after : Cursor, readAtom c = .ok (value, after) ∧ after.rest = rest := by
  have hfind : wordValue? c.rest = some (word, value) := by rw [hc, wordValue?_append h]
  unfold wordValue? at hfind
  refine ⟨c.advance word.length, ?_, by rw [Cursor.advance_rest, hc, List.drop_left]⟩
  rw [readAtom, hfind]

/-- A number is read as what follows its sign, as none of the words is in front of it. -/
theorem readAtom_eq_readMagnitude (n : Numeral) {rest : List Char} {c : Cursor}
    (hc : c.rest = n.text.toList ++ rest) :
    ∃ place : Cursor, place.rest = magnitudeChars n.parts ++ rest ∧
      readAtom c = (readMagnitude n.parts.negative place).mapError
        (fun fault => ReadError.mk fault c.offset) := by
  have hfind : wordValue? c.rest = none := by rw [hc, wordValue?_number]
  unfold wordValue? at hfind
  rw [toList_text] at hc
  simp only [readAtom, hfind]
  cases hsign : n.parts.negative with
  | true =>
    rw [hsign] at hc
    have hminus : c.rest = '-' :: (magnitudeChars n.parts ++ rest) := hc
    refine ⟨c.advance 1, ?_, ?_⟩
    · rw [Cursor.advance_rest, hminus, List.drop_succ_cons, List.drop_zero]
    · split
      case h_1 => rfl
      case h_2 hnot => exact absurd hminus (hnot _)
  | false =>
    rw [hsign] at hc
    have hplace : c.rest = magnitudeChars n.parts ++ rest := hc
    refine ⟨c, hplace, ?_⟩
    split
    case h_1 more hminus =>
      -- A number without a sign starts with a digit.
      obtain ⟨d, digits, hmore, hd⟩ := exists_digit n.parts
      rw [hminus, hmore] at hplace
      obtain ⟨rfl, -⟩ := List.cons.inj hplace
      cases hd
    case h_2 => rfl

theorem readAtom_number {n : Numeral} (h : n.IsLexical) {rest : List Char} {c : Cursor}
    (hc : c.rest = n.text.toList ++ rest) (hrest : Ends rest) :
    (∃ after : Cursor, readAtom c = .ok (ofNumeral n, after) ∧ after.rest = rest) ∨
      (Decimal.maxDigits < integerDigits n ∧ ∃ e, readAtom c = .error e ∧ e.fault.isLimit) := by
  obtain ⟨place, hplace, hread⟩ := readAtom_eq_readMagnitude n hc
  obtain ⟨after, hafter, heq⟩ := readMagnitude_complete h hplace hrest
  rw [hread, heq]
  split
  case isTrue hdigits => exact .inr ⟨hdigits, _, rfl, rfl⟩
  case isFalse => exact .inl ⟨after, rfl, hafter⟩

end Json

end SchemaClasses
