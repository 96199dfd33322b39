import SchemaClasses.Proofs.Literals.Reader
import SchemaClasses.Proofs.SourceText

/-!
# What a reader gets back

Strings, numbers, words and displays are read back from the way they are written, before everything
that can follow them.
-/

namespace SchemaClasses.Literal

/-! ## Strings -/

theorem hexValue?_hexDigit : ∀ n < 16, Token.hexValue? (Text.hexDigit n) = some n := by
  decide

/-- Four digits, the first two of them zeros, write the number that the last two write. -/
theorem hexNumber?_hexDigits {n : Nat} (h : n < 256) (rest : List Char) :
    hexNumber? 4 ('0' :: '0' :: Text.hexDigit (n / 16) :: Text.hexDigit (n % 16) :: rest) =
      some n := by
  have hzero : Token.hexValue? '0' = some 0 := by decide
  have hhigh := hexValue?_hexDigit (n / 16) (by omega)
  have hlow := hexValue?_hexDigit (n % 16) (by omega)
  have hlength : ¬ ('0' :: '0' :: Text.hexDigit (n / 16) :: Text.hexDigit (n % 16) :: rest).length
      < 4 := by simp
  rw [hexNumber?, if_neg hlength]
  simp only [List.take_succ_cons, List.take_zero, List.foldlM_cons, List.foldlM_nil, hzero, hhigh,
    hlow, Option.map_some, Option.bind_eq_bind, Option.bind_some, Option.pure_def, Option.some.injEq]
  omega

theorem readString_escape {after chars : List Char} {size : Nat}
    (h : readEscape after = some (chars, size)) :
    readString ('\\' :: after) =
      (readString (after.drop size)).map fun (content, rest) => (chars ++ content, rest) := by
  rw [readString]
  simp [h]

/-- An escape of one letter. -/
theorem readString_letter {letter c : Char} (h : ∀ rest, readEscape (letter :: rest) = some ([c], 1))
    (rest : List Char) :
    readString ('\\' :: letter :: rest) =
      (readString rest).map fun (content, rest) => (c :: content, rest) :=
  readString_escape (h rest)

/-- A character is read back from the way it is written between quotes, before any rest. -/
theorem readString_quoteChar (c : Char) (rest : List Char) :
    readString (Text.quoteChar c ++ rest) =
      (readString rest).map fun (content, rest) => (c :: content, rest) := by
  by_cases hquote : c = '"'
  · subst hquote
    exact readString_letter (fun _ => rfl) rest
  by_cases hbackslash : c = '\\'
  · subst hbackslash
    exact readString_letter (fun _ => rfl) rest
  by_cases hfeed : c = '\n'
  · subst hfeed
    exact readString_letter (fun _ => rfl) rest
  by_cases hreturn : c = '\r'
  · subst hreturn
    exact readString_letter (fun _ => rfl) rest
  by_cases htab : c = '\t'
  · subst htab
    exact readString_letter (fun _ => rfl) rest
  by_cases hback : c = '\x08'
  · subst hback
    exact readString_letter (fun _ => rfl) rest
  by_cases hform : c = '\x0c'
  · subst hform
    exact readString_letter (fun _ => rfl) rest
  -- All other control characters are written by their numbers.
  by_cases hcontrol : c.toNat < 0x20
  · have hpoint : Token.isScalar c.toNat := by
      simp only [Token.isScalar, Bool.or_eq_true, decide_eq_true_eq]
      omega
    have hescape : readEscape ('u' :: '0' :: '0' :: Text.hexDigit (c.toNat / 16) ::
        Text.hexDigit (c.toNat % 16) :: rest) = some ([c], 5) := by
      have hnumber := hexNumber?_hexDigits (show c.toNat < 256 by omega) rest
      simp [readEscape, hexEscape?, hnumber, hpoint]
    simp only [Text.quoteChar, if_neg hquote, if_neg hbackslash, if_neg hfeed, if_neg hreturn,
      if_neg htab, if_neg hback, if_neg hform, if_pos hcontrol]
    exact readString_escape hescape
  · -- No other character has a meaning within quotes.
    have hzero : c ≠ '\x00' := by
      rintro rfl
      exact hcontrol (by decide)
    have hplain : Text.quoteChar c = [c] := by
      simp only [Text.quoteChar, if_neg hquote, if_neg hbackslash, if_neg hfeed, if_neg hreturn,
        if_neg htab, if_neg hback, if_neg hform, if_neg hcontrol]
    rw [hplain, List.singleton_append, readString]
    simp [hquote, hbackslash, hzero, hfeed, hreturn, Token.isLineEnd]

/-- A text is read back from the way it is written between quotes. -/
theorem readString_quoted (text rest : List Char) :
    readString (text.flatMap Text.quoteChar ++ '"' :: rest) = some (text, rest) := by
  induction text with
  | nil =>
    rw [List.flatMap_nil, List.nil_append, readString]
    rfl
  | cons c text ih =>
    rw [List.flatMap_cons, List.append_assoc, readString_quoteChar, ih]
    rfl

/-! ## What follows -/

/-- What may follow a literal: nothing, or a character that separates or closes. -/
def Ends (rest : List Char) : Prop :=
  ∀ c ∈ rest.head?, c = ',' ∨ c = ']' ∨ c = '\x7d' ∨ c = ':'

theorem ends_nil : Ends [] := by
  simp [Ends]

/-- No text of this class starts here. -/
def Stops (p : Char → Bool) (text : List Char) : Prop :=
  ∀ c ∈ text.head?, p c = false

theorem Ends.stops {p : Char → Bool} {rest : List Char} (h : Ends rest)
    (hp : [',', ']', '\x7d', ':'].all (!p ·) = true) : Stops p rest := by
  intro c hc
  have hmem : c ∈ [',', ']', '\x7d', ':'] := by simpa using h c hc
  simpa using List.all_eq_true.mp hp c hmem

/-- A run of characters ends where no such character follows. -/
theorem takeWhile_append_of_stops {p : Char → Bool} {front back : List Char}
    (hfront : ∀ c ∈ front, p c) (hback : Stops p back) :
    (front ++ back).takeWhile p = front := by
  have hnone : back.takeWhile p = [] := by
    cases back with
    | nil => rfl
    | cons c rest =>
      have hc : p c = false := hback c rfl
      exact List.takeWhile_cons_of_neg (by simp [hc])
  rw [List.takeWhile_append_of_pos hfront, hnone, List.append_nil]

theorem dropWhile_append_of_stops {p : Char → Bool} {front back : List Char}
    (hfront : ∀ c ∈ front, p c) (hback : Stops p back) :
    (front ++ back).dropWhile p = back := by
  have hsplit := List.takeWhile_append_dropWhile (p := p) (l := front ++ back)
  rw [takeWhile_append_of_stops hfront hback] at hsplit
  exact List.append_cancel_left hsplit

theorem head?_ne_of_stops {p : Char → Bool} {text : List Char} {c : Char} (h : Stops p text)
    (hc : p c) : text.head? ≠ some c := by
  intro hhead
  rw [h c hhead] at hc
  exact absurd hc (by simp)

/-- The start of a text is that of its first part, if that is not empty. -/
theorem Stops.append {p : Char → Bool} {front back : List Char} (hfront : Stops p front)
    (hback : front = [] → Stops p back) : Stops p (front ++ back) := by
  cases front with
  | nil => exact hback rfl
  | cons c rest => exact hfront

/-! ## Numbers -/

/-- Decimal digits, and at least one. -/
def IsDigits (text : List Char) : Prop :=
  text ≠ [] ∧ ∀ c ∈ text, c.isDigit

def IsFraction (text : List Char) : Prop :=
  text = [] ∨ ∃ places, IsDigits places ∧ text = '.' :: places

def IsExponent (text : List Char) : Prop :=
  text = [] ∨ ∃ letter sign places, (letter = 'e' ∨ letter = 'E') ∧
    (sign = [] ∨ sign = ['-'] ∨ sign = ['+']) ∧ IsDigits places ∧ text = letter :: (sign ++ places)

/-- Digits are read up to where they stop. -/
theorem digits_append {front back : List Char} (hfront : ∀ c ∈ front, c.isDigit)
    (hback : Stops Char.isDigit back) : digits (front ++ back) = front :=
  takeWhile_append_of_stops hfront hback

theorem minus_append (negative : Bool) {back : List Char} (h : Stops (· == '-') back) :
    minus ((if negative then ['-'] else []) ++ back) = if negative then ['-'] else [] := by
  cases negative with
  | true => rfl
  | false => exact if_neg (head?_ne_of_stops h rfl)

/-- A fraction is read up to where it stops. -/
theorem fraction_append {front back : List Char} (hfront : IsFraction front)
    (hback : Stops (fun c => c.isDigit || c == '.') back) : fraction (front ++ back) = front := by
  rcases hfront with rfl | ⟨places, hplaces, rfl⟩
  · cases back with
    | nil => rfl
    | cons c rest =>
      have hc : c ≠ '.' := fun heq => head?_ne_of_stops hback (by simp [heq]) rfl
      simp [fraction, hc]
  · have hstops : Stops Char.isDigit back := fun c hc => by simpa using (by simpa using hback c hc : _ ∧ _).1
    rw [List.cons_append, fraction, if_pos rfl, digits_append hplaces.2 hstops]

theorem exponentSign_append {sign places : List Char} (hsign : sign = [] ∨ sign = ['-'] ∨ sign = ['+'])
    (hplaces : IsDigits places) (back : List Char) :
    exponentSign (sign ++ (places ++ back)) = sign := by
  rcases hsign with rfl | rfl | rfl
  · obtain ⟨c, more, rfl⟩ := List.exists_cons_of_ne_nil hplaces.1
    have hc : c.isDigit := hplaces.2 c List.mem_cons_self
    have hminus : c ≠ '-' := by rintro rfl; exact absurd hc (by decide)
    have hplus : c ≠ '+' := by rintro rfl; exact absurd hc (by decide)
    simp [exponentSign, hminus, hplus]
  · rfl
  · rfl

/-- An exponent is read up to where no name can go on. -/
theorem exponent_append {front back : List Char} (hfront : IsExponent front)
    (hback : Stops Token.isNameChar back) : exponent (front ++ back) = front := by
  rcases hfront with rfl | ⟨letter, sign, places, hletter, hsign, hplaces, rfl⟩
  -- What follows is no part of a name, so it is not the letter of an exponent either.
  · cases back with
    | nil => rfl
    | cons c rest =>
      have hc : Token.isNameChar c = false := hback c rfl
      have hsmall : c ≠ 'e' := by rintro rfl; exact absurd hc (by decide)
      have hcapital : c ≠ 'E' := by rintro rfl; exact absurd hc (by decide)
      simp [exponent, hsmall, hcapital]
  · have hstops : Stops Char.isDigit back := by
      intro c hc
      have := hback c hc
      simp only [Token.isNameChar, Char.isAlphanum, Bool.or_eq_false_iff] at this
      exact this.1.2
    have hletter : (letter = 'e' || letter = 'E') = true := by simpa using hletter
    rw [List.cons_append, exponent, if_pos hletter, List.append_assoc]
    simp only [exponentSign_append hsign hplaces, List.drop_left, digits_append hplaces.2 hstops]

theorem IsFraction.stops {p : Char → Bool} {text : List Char} (h : IsFraction text)
    (hp : p '.' = false) : Stops p text := by
  rcases h with rfl | ⟨places, -, rfl⟩
  · simp [Stops]
  · simpa [Stops] using hp

theorem IsExponent.stops {p : Char → Bool} {text : List Char} (h : IsExponent text)
    (hp : p 'e' = false ∧ p 'E' = false) : Stops p text := by
  rcases h with rfl | ⟨letter, sign, places, hletter, -, -, rfl⟩
  · simp [Stops]
  · rcases hletter with rfl | rfl
    · simpa [Stops] using hp.1
    · simpa [Stops] using hp.2

theorem IsDigits.stops {text : List Char} (h : IsDigits text) : Stops (· == '-') text := by
  intro c hc
  have hdigit : c.isDigit := h.2 c (List.mem_of_mem_head? hc)
  have hminus : c ≠ '-' := by rintro rfl; exact absurd hdigit (by decide)
  simpa using hminus

theorem IsExponent.getLast? {text : List Char} (h : IsExponent text) :
    text.getLast?.all Char.isDigit := by
  rcases h with rfl | ⟨letter, sign, places, -, -, hplaces, rfl⟩
  · rfl
  · obtain ⟨c, hc⟩ := Option.isSome_iff_exists.mp (List.getLast?_isSome.mpr hplaces.1)
    have hdigit := hplaces.2 c (List.mem_of_getLast? hc)
    rw [← List.cons_append, List.getLast?_append, hc]
    simpa using hdigit

def signChars (negative : Bool) : List Char :=
  if negative then ['-'] else []

/-- A number shows where its parts end. -/
theorem numberParts_append (negative : Bool) {whole fraction exponent rest : List Char}
    (hwhole : IsDigits whole) (hfraction : IsFraction fraction) (hexponent : IsExponent exponent)
    (hrest : Ends rest) :
    numberParts (signChars negative ++ whole ++ fraction ++ exponent ++ rest) =
      ⟨signChars negative, whole, fraction, exponent, rest⟩ := by
  -- Each part ends where the next one starts, or where the number ends.
  have hminus : Stops (· == '-') (whole ++ (fraction ++ (exponent ++ rest))) :=
    hwhole.stops.append fun hnil => absurd hnil hwhole.1
  have hdigits : Stops Char.isDigit (fraction ++ (exponent ++ rest)) :=
    (hfraction.stops rfl).append fun _ => (hexponent.stops ⟨rfl, rfl⟩).append fun _ =>
      hrest.stops (by decide)
  have hpoint : Stops (fun c => c.isDigit || c == '.') (exponent ++ rest) :=
    (hexponent.stops ⟨rfl, rfl⟩).append fun _ => hrest.stops (by decide)
  have hname : Stops Token.isNameChar rest := hrest.stops (by decide)
  have hsign : minus (signChars negative ++ (whole ++ (fraction ++ (exponent ++ rest)))) =
      signChars negative := minus_append negative hminus
  simp only [numberParts, List.append_assoc, hsign, List.drop_left,
    digits_append hwhole.2 hdigits, fraction_append hfraction hpoint,
    exponent_append hexponent hname]

/-- A number without a superfluous zero in front is read as it is written. -/
theorem readNumber_append (negative : Bool) {whole fraction exponent rest : List Char}
    (hwhole : IsDigits whole) (hzero : whole.head? = some '0' → whole = ['0'])
    (hfraction : IsFraction fraction) (hexponent : IsExponent exponent) (hrest : Ends rest) :
    readNumber (signChars negative ++ whole ++ fraction ++ exponent ++ rest) =
      some (.number (String.ofList (signChars negative ++ whole ++ fraction ++ exponent)), rest) := by
  have hsome : whole.isEmpty = false := by simpa using hwhole.1
  have hzeros : (whole.head? != some '0' || whole.all (· == '0')) = true := by
    by_cases hhead : whole.head? = some '0'
    · simp [hzero hhead]
    · simp [hhead]
  have hend : rest.head?.all (fun c => c != '.' && !Token.isNameChar c) := by
    rw [Option.all_eq_true]
    intro c hc
    rcases hrest c hc with rfl | rfl | rfl | rfl <;> decide
  have hnumber : NumberParts.isNumber ⟨signChars negative, whole, fraction, exponent, rest⟩ := by
    simp only [NumberParts.isNumber, hsome, hexponent.getLast?, hend, Bool.not_false, Bool.true_or,
      Bool.and_true, Bool.or_assoc, hzeros, Bool.or_true]
  simp only [readNumber, numberParts_append negative hwhole hfraction hexponent hrest, hnumber,
    if_true]

/-! ## Words -/

/-- A word is read before everything that can follow a literal. -/
theorem readWord_append {word rest : List Char} {literal : Literal}
    (hword : ofWord? word = some literal) (hchars : ∀ c ∈ word, Token.isNameChar c)
    (hrest : Ends rest) : readWord (word ++ rest) = some (literal, rest) := by
  simp only [readWord, takeWhile_append_of_stops hchars (hrest.stops (by decide)), hword,
    Option.map_some, List.drop_left]

/-! ## Displays -/

/-- `readOne` reads the item back from its text, before everything that can follow. The text does
    not start with a blank, nor with a bracket that closes. -/
structure Reads {α : Type} (readOne : List Char → Reading α) (item : α) (text : String) : Prop where
  start : ∃ c rest, text.toList = c :: rest ∧ isBlank c = false ∧ c ≠ ']' ∧ c ≠ '\x7d'
  reads : ∀ rest, Ends rest → readOne (text.toList ++ rest) = some (item, rest)

theorem skipBlanks_of_stops {text : List Char} (h : Stops isBlank text) : skipBlanks text = text := by
  cases text with
  | nil => rfl
  | cons c rest =>
    have hc : isBlank c = false := h c rfl
    exact List.dropWhile_cons_of_neg (by simp [hc])

theorem Ends.skipBlanks {rest : List Char} (h : Ends rest) : skipBlanks rest = rest :=
  skipBlanks_of_stops (h.stops (by decide))

theorem Reads.skipBlanks {α : Type} {readOne : List Char → Reading α} {item : α} {text : String}
    (h : Reads readOne item text) (rest : List Char) :
    skipBlanks (text.toList ++ rest) = text.toList ++ rest := by
  obtain ⟨c, more, heq, hblank, -⟩ := h.start
  refine skipBlanks_of_stops fun d hd => ?_
  obtain rfl : c = d := by simpa [heq] using hd
  exact hblank

/-- No literal starts like the bracket that closes those around it. -/
theorem Reads.head?_ne {α : Type} {readOne : List Char → Reading α} {item : α} {text : String}
    (h : Reads readOne item text) {close : Char} (hclose : close = ']' ∨ close = '\x7d')
    (rest : List Char) : (text.toList ++ rest).head? ≠ some close := by
  obtain ⟨c, more, heq, -, hsquare, hcurly⟩ := h.start
  rw [heq, List.cons_append, List.head?_cons, Ne, Option.some.injEq]
  rintro rfl
  exact hclose.elim hsquare hcurly

/-- One item is read, and then what follows it decides. -/
theorem readSequence_item {α : Type} {readOne : List Char → Reading α} {close : Char}
    (hclose : close = ']' ∨ close = '\x7d') {item : α} {text : String}
    (h : Reads readOne item text) (room : Nat) {rest : List Char} (hrest : Ends rest) :
    readSequence close readOne (room + 1) (text.toList ++ rest) =
      if rest.head? = some close then some ([item], rest.tail)
      else if rest.head? = some ',' then
        (readSequence close readOne room rest.tail).map fun (items, rest) => (item :: items, rest)
      else none := by
  simp only [readSequence, h.skipBlanks, if_neg (h.head?_ne hclose rest), h.reads rest hrest,
    hrest.skipBlanks]

theorem readSequence_blank {α : Type} (close : Char) (readOne : List Char → Reading α)
    (room : Nat) (text : List Char) :
    readSequence close readOne room (' ' :: text) = readSequence close readOne room text := by
  cases room with
  | zero => rfl
  | succ room => rfl

/-- The texts of some items, joined by commas and blanks, are read back up to the closing bracket. -/
theorem readSequence_joinWith {α : Type} {readOne : List Char → Reading α} {close : Char}
    (hclose : close = ']' ∨ close = '\x7d') {items : List α} {texts : List String}
    (h : List.Forall₂ (Reads readOne) items texts) {room : Nat} (hroom : texts.length < room)
    (rest : List Char) :
    readSequence close readOne room ((Text.joinWith ", " texts).toList ++ close :: rest) =
      some (items, rest) := by
  have hends : ∀ rest, Ends (close :: rest) := by
    intro rest c hc
    obtain rfl : close = c := by simpa using hc
    rcases hclose with rfl | rfl <;> simp
  have hcomma : ',' ≠ close := by
    rcases hclose with rfl | rfl <;> decide
  induction h generalizing room with
  | nil =>
    obtain ⟨room, rfl⟩ := Nat.exists_eq_add_one_of_ne_zero (Nat.ne_of_gt hroom)
    simp [readSequence, (hends rest).skipBlanks]
  | @cons item text items texts hitem hitems ih =>
    obtain ⟨room, rfl⟩ := Nat.exists_eq_add_one_of_ne_zero (Nat.ne_of_gt (Nat.zero_lt_of_lt hroom))
    -- The bracket follows the last item, and a comma and a blank follow every other.
    cases hitems with
    | nil =>
      rw [Text.joinWith_singleton, readSequence_item hclose hitem room (hends rest)]
      exact if_pos rfl
    | @cons next nextText others otherTexts hnext hothers =>
      have hmore := ih (Nat.lt_of_succ_lt_succ hroom)
      have hsplit : (Text.joinWith ", " (text :: nextText :: otherTexts)).toList ++ close :: rest =
          text.toList ++ ',' :: ' ' ::
            ((Text.joinWith ", " (nextText :: otherTexts)).toList ++ close :: rest) := by
        simp
      rw [hsplit, readSequence_item hclose hitem room (by simp [Ends])]
      simp only [List.head?_cons, List.tail_cons, Option.some.injEq, if_neg hcomma, if_true,
        readSequence_blank, hmore, Option.map_some]

/-- A key and a value are read back from their texts. -/
theorem Reads.entry {readOne : List Char → Reading Literal} {key value : Literal}
    {keyText valueText : String} (hkey : Reads readOne key keyText)
    (hvalue : Reads readOne value valueText) :
    Reads (readEntry readOne) (key, value) (keyText ++ ": " ++ valueText) := by
  obtain ⟨c, more, heq, hc⟩ := hkey.start
  refine ⟨⟨c, more ++ (": " ++ valueText).toList, by simp [heq], hc⟩, fun rest hrest => ?_⟩
  have hsplit : (keyText ++ ": " ++ valueText).toList ++ rest =
      keyText.toList ++ ':' :: ' ' :: (valueText.toList ++ rest) := by
    simp
  have hcolon : Ends (':' :: ' ' :: (valueText.toList ++ rest)) := by simp [Ends]
  have hblank : Literal.skipBlanks (' ' :: (valueText.toList ++ rest)) = valueText.toList ++ rest :=
    hvalue.skipBlanks rest
  rw [hsplit, readEntry, hkey.reads _ hcolon]
  simp only [hcolon.skipBlanks, List.head?_cons, List.tail_cons, if_true, hblank,
    hvalue.reads rest hrest, Option.map_some]

/-! ## Literals -/

/-- A character of a class that has no blanks and no closing brackets can start a literal. -/
theorem start_of_class {p : Char → Bool} {c : Char} (hc : p c)
    (hp : [' ', '\t', '\x0c', '\n', '\r', ']', '\x7d'].all (!p ·) = true) :
    isBlank c = false ∧ c ≠ ']' ∧ c ≠ '\x7d' := by
  have hne : ∀ d ∈ [' ', '\t', '\x0c', '\n', '\r', ']', '\x7d'], c ≠ d := by
    rintro d hd rfl
    have hnone := List.all_eq_true.mp hp c hd
    rw [hc] at hnone
    exact absurd hnone (by simp)
  simp only [List.forall_mem_cons] at hne
  simp [isBlank, hne]

/-- A number is read by its first character. -/
theorem reads_number {text : String} (depth : Nat)
    (hstart : ∃ c rest, text.toList = c :: rest ∧ (c.isDigit || c = '-') = true)
    (h : ∀ rest, Ends rest → readNumber (text.toList ++ rest) = some (.number text, rest)) :
    Reads (readValue (depth + 1)) (.number text) text := by
  obtain ⟨c, more, heq, hc⟩ := hstart
  have hstart : isBlank c = false ∧ c ≠ ']' ∧ c ≠ '\x7d' :=
    start_of_class (p := fun c => c.isDigit || c = '-') hc (by decide)
  refine ⟨⟨c, more, heq, hstart⟩, fun rest hrest => ?_⟩
  have hne : c ≠ '[' ∧ c ≠ '\x7b' ∧ c ≠ '"' := by
    refine ⟨?_, ?_, ?_⟩ <;> rintro rfl <;> exact absurd hc (by decide)
  have hnumber : (c.isDigit || c = '-' || c = '.') = true := by
    rw [hc, Bool.true_or]
  rw [← h rest hrest, heq, List.cons_append, readValue, if_neg hne.1, if_neg hne.2.1,
    if_neg hne.2.2, if_pos hnumber]

theorem reads_word {word : String} {literal : Literal} (depth : Nat)
    (h : ofWord? word.toList = some literal)
    (hstart : ∃ c rest, word.toList = c :: rest ∧ c.isAlpha ∧ c.isDigit = false)
    (hchars : word.toList.all Token.isNameChar) :
    Reads (readValue (depth + 1)) literal word := by
  obtain ⟨c, more, heq, halpha, hdigit⟩ := hstart
  refine ⟨⟨c, more, heq, start_of_class halpha (by decide)⟩, fun rest hrest => ?_⟩
  have hne : c ≠ '[' ∧ c ≠ '\x7b' ∧ c ≠ '"' ∧ c ≠ '-' ∧ c ≠ '.' := by
    refine ⟨?_, ?_, ?_, ?_, ?_⟩ <;> rintro rfl <;> exact absurd halpha (by decide)
  have hnumber : ¬ (c.isDigit || c = '-' || c = '.') = true := by
    simp [hdigit, hne]
  rw [← readWord_append h (List.all_eq_true.mp hchars) hrest, heq, List.cons_append, readValue, if_neg hne.1,
    if_neg hne.2.1, if_neg hne.2.2.1, if_neg hnumber]

/-- A quote within a text is escaped. -/
theorem quoteChar_head (c : Char) : ∃ d more, Text.quoteChar c = d :: more ∧ d ≠ '"' := by
  rcases Text.quoteChar_cases c with ⟨heq, hquote, -⟩ | ⟨letter, heq, -⟩ | ⟨_, -, _, -, heq⟩
  · exact ⟨c, [], heq, hquote⟩
  · exact ⟨'\\', _, heq, by decide⟩
  · exact ⟨'\\', _, heq, by decide⟩

/-- Two quotes in a row are those of an empty text, which no third one follows. -/
theorem take_two_quoted (text : List Char) {rest : List Char} (hrest : rest.head? ≠ some '"') :
    (text.flatMap Text.quoteChar ++ '"' :: rest).take 2 ≠ ['"', '"'] := by
  cases text with
  | nil =>
    cases rest with
    | nil => simp
    | cons c more => simpa using hrest
  | cons c text =>
    obtain ⟨d, more, heq, hd⟩ := quoteChar_head c
    simp [heq, hd]

/-- A quoted text is read as a literal. -/
theorem reads_quote (depth : Nat) (content : String) :
    Reads (readValue (depth + 1)) (.string content) (Text.quote content) := by
  have heq : (Text.quote content).toList =
      '"' :: (content.toList.flatMap Text.quoteChar ++ ['"']) := by
    simp [Text.quote, Text.quoteChars]
  refine ⟨⟨'"', _, heq, by decide⟩, fun rest hrest => ?_⟩
  have hquote : Stops (· == '"') rest := hrest.stops rfl
  have htwo := take_two_quoted content.toList (head?_ne_of_stops hquote rfl)
  rw [heq, List.cons_append, List.append_assoc, List.singleton_append, readValue,
    if_neg (by decide), if_neg (by decide), if_pos rfl, readQuoted, if_neg htwo, readString_quoted]
  simp

/-- Texts that items are read from are not empty. -/
theorem Reads.ne_empty {α : Type} {readOne : List Char → Reading α} {items : List α}
    {texts : List String} (h : List.Forall₂ (Reads readOne) items texts) :
    ∀ text ∈ texts, text ≠ "" := by
  induction h with
  | nil => simp
  | cons hitem _ ih =>
    obtain ⟨c, rest, heq, -⟩ := hitem.start
    refine List.forall_mem_cons.mpr ⟨?_, ih⟩
    rintro rfl
    simp at heq

/-- A list is read back if its items are. -/
theorem reads_list {depth : Nat} {literals : List Literal} {texts : List String}
    (h : List.Forall₂ (Reads (readValue depth)) literals texts) :
    Reads (readValue (depth + 1)) (.list literals) ("[" ++ Text.joinWith ", " texts ++ "]") := by
  have heq : ("[" ++ Text.joinWith ", " texts ++ "]").toList =
      '[' :: ((Text.joinWith ", " texts).toList ++ [']']) := by
    simp
  -- No item is empty, so the text is long enough to leave room for all of them.
  have hlength := Text.length_le_joinWith ", " (Reads.ne_empty h)
  refine ⟨⟨'[', _, heq, by decide⟩, fun rest hrest => ?_⟩
  rw [heq, List.cons_append, List.append_assoc, List.singleton_append, readValue, if_pos rfl,
    readSequence_joinWith (.inl rfl) h (by simp only [List.length_append]; omega)]
  rfl

/-- A dictionary is read back if its entries are. -/
theorem reads_dict {depth : Nat} {entries : List (Literal × Literal)} {texts : List String}
    (h : List.Forall₂ (Reads (readEntry (readValue depth))) entries texts) :
    Reads (readValue (depth + 1)) (.dict entries)
      ("\x7b" ++ Text.joinWith ", " texts ++ "\x7d") := by
  have heq : ("\x7b" ++ Text.joinWith ", " texts ++ "\x7d").toList =
      '\x7b' :: ((Text.joinWith ", " texts).toList ++ ['\x7d']) := by
    simp
  have hlength := Text.length_le_joinWith ", " (Reads.ne_empty h)
  refine ⟨⟨'\x7b', _, heq, by decide⟩, fun rest hrest => ?_⟩
  rw [heq, List.cons_append, List.append_assoc, List.singleton_append, readValue,
    if_neg (by decide), if_pos rfl,
    readSequence_joinWith (.inr rfl) h (by simp only [List.length_append]; omega)]
  rfl

end SchemaClasses.Literal
