import SchemaClasses.Document.Layout
import SchemaClasses.Document.Lexer
import SchemaClasses.Proofs.Json.Numbers
import SchemaClasses.Proofs.Tokens

/-!
# Scanning what is printed

Each unit of a printed document is read back as one token, before everything that can follow it:
names, numbers, quoted strings and punctuators. Longer texts are put together from these.
-/

namespace SchemaClasses.Token

open Literal (IsDigits IsExponent IsFraction Stops signChars)

/-! ## Kinds of tokens -/

def kinds (text : List Char) : List TokenKind :=
  (scanFrom 0 text).map (·.kind)

/-- The kinds of the tokens do not depend on where a text starts. -/
theorem map_kind_scanFrom (offset : Nat) (text : List Char) :
    (scanFrom offset text).map (·.kind) = kinds text := by
  -- The kinds are those of a scan from zero, but the recursion goes on from other places.
  suffices h : ∀ other, (scanFrom offset text).map (·.kind) = (scanFrom other text).map (·.kind)
    from h 0
  fun_induction scanFrom offset text with
  | case1 => simp [scanFrom]
  | case2 offset c rest hc ih =>
    intro other
    rw [scanFrom.eq_2, if_pos hc]
    exact ih _
  | case3 offset rest size hc ih =>
    intro other
    rw [scanFrom.eq_2, if_neg hc, if_pos rfl]
    exact ih _
  | case4 offset c rest hc hcomment kind size hread ih =>
    intro other
    rw [scanFrom.eq_2, if_neg hc, if_neg hcomment, hread, List.map_cons, List.map_cons, ih]
  | case5 offset c rest hc hcomment fault place hread =>
    intro other
    rw [scanFrom.eq_2, if_neg hc, if_neg hcomment, hread]
    rfl

theorem kinds_nil : kinds [] = [.endOfText] := by
  simp [kinds, scanFrom]

/-- A blank is passed over. -/
theorem kinds_ignored {c : Char} (h : isIgnored c) (rest : List Char) :
    kinds (c :: rest) = kinds rest := by
  rw [kinds, scanFrom.eq_2, if_pos h, map_kind_scanFrom]

/-- A token that is read at the front is the first one, and scanning goes on behind it. -/
theorem kinds_token {c : Char} {rest : List Char} {kind : TokenKind} {size : Nat}
    (hblank : isIgnored c = false) (hcomment : c ≠ '#')
    (hread : readToken c rest = .ok (kind, size)) :
    kinds (c :: rest) = kind :: kinds (rest.drop (size - 1)) := by
  rw [kinds, scanFrom.eq_2, if_neg (by simp [hblank]), if_neg hcomment, hread, List.map_cons,
    map_kind_scanFrom]

/-- A punctuator is a token whatever follows. -/
theorem kinds_punctuator {c : Char} {p : Punctuator} (h : punctuator? c = some p)
    (rest : List Char) : kinds (c :: rest) = .punctuator p :: kinds rest := by
  have hread : readToken c rest = .ok (.punctuator p, 1) ∧ isIgnored c = false ∧ c ≠ '#' := by
    unfold punctuator? at h
    split at h
    case h_14 => cases h
    all_goals
      cases h
      exact ⟨rfl, rfl, by decide⟩
  exact kinds_token hread.2.1 hread.2.2 hread.1

/-! ## Texts and their units -/

/-- What can follow a token and leave it as it is: nothing that goes on with a name or a number, and
    no quote. -/
def Apart (rest : List Char) : Prop :=
  Stops (fun c => isNameChar c || c = '.' || c = '"') rest

def Anything (_ : List Char) : Prop :=
  True

/-- The text is read as tokens of these kinds, before everything that is as `follow` says. -/
def Scans (follow : List Char → Prop) (text : String) (units : List TokenKind) : Prop :=
  ∀ rest, follow rest → kinds (text.toList ++ rest) = units ++ kinds rest

variable {before follow : List Char → Prop} {text more : String} {units others : List TokenKind}

theorem Apart.stops {p : Char → Bool} {rest : List Char} (h : Apart rest)
    (hp : ∀ c, p c → isNameChar c || c = '.' || c = '"') : Stops p rest := by
  intro c hc
  have hapart : (isNameChar c || c = '.' || c = '"') = false := h c hc
  rw [Bool.eq_false_iff] at hapart ⊢
  exact mt (hp c) hapart

/-- The text is empty, or it starts apart from what is before it. -/
def Separates (text : String) : Prop :=
  ∀ rest, Apart rest → Apart (text.toList ++ rest)

theorem separates_empty : Separates "" :=
  fun _ hrest => hrest

/-- Two texts that do not go on with a token before them do not do so together. -/
theorem Separates.append (ha : Separates text) (hb : Separates more) :
    Separates (text ++ more) := by
  intro rest hrest
  rw [String.toList_append, List.append_assoc]
  exact ha _ (hb _ hrest)

theorem scans_empty : Scans follow "" [] :=
  fun _ _ => rfl

theorem Scans.free (h : Scans Anything text units) : Scans follow text units :=
  fun rest _ => h rest True.intro

/-- Of two texts the first may care how the second starts. -/
theorem Scans.append (ha : Scans Apart text units) (hs : Separates more)
    (hb : Scans Apart more others) : Scans Apart (text ++ more) (units ++ others) := by
  intro rest hrest
  rw [String.toList_append, List.append_assoc, ha _ (hs rest hrest), hb rest hrest,
    List.append_assoc]

/-- Whether a text starts with a character that can follow any token. -/
def opensApart (text : String) : Bool :=
  text.toList.head?.any fun c => !(isNameChar c || c = '.' || c = '"')

theorem apart_of_opensApart (h : opensApart text) (rest : List Char) :
    Apart (text.toList ++ rest) := by
  rw [opensApart, Option.any_eq_true] at h
  obtain ⟨c, hc, hnot⟩ := h
  intro d hd
  have hhead : (text.toList ++ rest).head? = some c := by
    rw [List.head?_append, hc, Option.some_or]
  obtain rfl : c = d := Option.some.inj (hhead.symm.trans hd)
  simpa using hnot

theorem separates_of_opensApart (h : opensApart text) : Separates text :=
  fun rest _ => apart_of_opensApart h rest

/-- Before a text that starts apart and ends on its own it does not matter what follows. -/
theorem Scans.seal (ha : Scans Apart text units) (hs : opensApart more)
    (hb : Scans Anything more others) : Scans Anything (text ++ more) (units ++ others) := by
  intro rest hrest
  rw [String.toList_append, List.append_assoc, ha _ (apart_of_opensApart hs rest), hb rest hrest,
    List.append_assoc]

/-- If the first text does not care what follows, the two are read one after the other. -/
theorem Scans.then (ha : Scans Anything text units) (hb : Scans follow more others) :
    Scans follow (text ++ more) (units ++ others) := by
  intro rest hrest
  rw [String.toList_append, List.append_assoc, ha _ True.intro, hb rest hrest, List.append_assoc]

/-! ## Marks -/

/-- The punctuators among some characters. -/
def marks (text : List Char) : List TokenKind :=
  text.filterMap fun c => (punctuator? c).map .punctuator

/-- Blanks and punctuators are read one by one. -/
theorem scans_marks (htext : text.toList.all fun c => isIgnored c || (punctuator? c).isSome)
    (hunits : marks text.toList = units) : Scans Anything text units := by
  intro rest _
  subst hunits
  revert htext
  induction text.toList with
  | nil => exact fun _ => rfl
  | cons c chars ih =>
    intro htext
    rw [List.all_cons, Bool.and_eq_true] at htext
    cases hmark : punctuator? c with
    | some p =>
      have hmarks : marks (c :: chars) = .punctuator p :: marks chars := by simp [marks, hmark]
      rw [List.cons_append, kinds_punctuator hmark, ih htext.2, hmarks, List.cons_append]
    | none =>
      have hblank : isIgnored c := by simpa [hmark] using htext.1
      have hmarks : marks (c :: chars) = marks chars := by simp [marks, hmark]
      rw [List.cons_append, kinds_ignored hblank, ih htext.2, hmarks]

/-! ## Names -/

theorem ne_of_isNameStart {c d : Char} (h : isNameStart c) (hd : isNameStart d = false) :
    c ≠ d := by
  rintro rfl
  rw [hd] at h
  cases h

theorem isIgnored_of_isNameStart {c : Char} (h : isNameStart c) : isIgnored c = false := by
  have hne : ∀ d, isNameStart d = false → c ≠ d := fun d => ne_of_isNameStart h
  simp [isIgnored, hne _ (show isNameStart ' ' = false from rfl), hne '\t' rfl, hne ',' rfl,
    hne '\ufeff' rfl, hne '\n' rfl, hne '\r' rfl]

/-- A name is read up to where none goes on. -/
theorem scans_name {name : String} (h : Text.isIdentifier name) :
    Scans Apart name [.name name] := by
  intro rest hrest
  obtain ⟨c, more, hname, -⟩ := Text.isIdentifier.exists_cons h
  rw [Text.isIdentifier, hname, Text.isIdentifierChars_cons] at h
  have hstops : Stops isNameChar rest := hrest.stops fun d hd => by simp [hd]
  have hread : readToken c (more ++ rest) = .ok (.name name, more.length + 1) := by
    have hlength : (c :: more).length = more.length + 1 := rfl
    unfold readToken
    rw [if_neg (ne_of_isNameStart h.1 rfl), if_pos h.1,
      Literal.takeWhile_append_of_stops h.2 hstops, ← hlength, ← hname]
    exact congrArg (fun text => Except.ok (TokenKind.name text, name.toList.length))
      String.ofList_toList
  rw [hname, List.cons_append, kinds_token (isIgnored_of_isNameStart h.1)
    (ne_of_isNameStart h.1 rfl) hread, Nat.add_sub_cancel, List.drop_left]
  rfl

/-! ## Quoted strings -/

/-- The control characters are written by four digits that read back. -/
theorem hex4?_upperHex : ∀ n < 0xa0, (upperHex n).toList.length = 4 ∧
    (upperHex n).toList.head? = some '0' ∧ hex4? (upperHex n).toList = some n := by
  decide +kernel

theorem hex4?_append {digits : List Char} (h : digits.length = 4) (rest : List Char) :
    hex4? (digits ++ rest) = hex4? digits := by
  match digits, h with
  | [a, b, c, d], _ => rfl

/-- A control character is read back from its escape. -/
theorem readEscape_upperHex {c : Char} (h : c.toNat < 0xa0) (rest : List Char) :
    readEscape ('u' :: ((upperHex c.toNat).toList ++ rest)) = .ok (c, 6) := by
  obtain ⟨hlength, hhead, hvalue⟩ := hex4?_upperHex c.toNat h
  have hscalar : isScalar c.toNat := by simp [isScalar]; omega
  have hfixed : fixedEscape? ((upperHex c.toNat).toList ++ rest) = some (c, 6) := by
    simp [fixedEscape?, hex4?_append hlength, hvalue, hscalar]
  obtain ⟨digits, hdigits⟩ := List.head?_eq_some_iff.mp hhead
  rw [hdigits, List.cons_append] at hfixed ⊢
  simp [readEscape, hfixed]

/-- A character is read back from the way it is written in a quoted string. -/
theorem readString_escapeStringChar (c : Char) (place : Nat) (content rest : List Char) :
    readString place content (escapeStringChar c ++ rest) =
      readString (place + (escapeStringChar c).length) (c :: content) rest := by
  have hletter {letter : Char} (h : ∀ rest, readEscape (letter :: rest) = .ok (c, 2)) :
      readString place content ('\\' :: letter :: rest) =
        readString (place + 2) (c :: content) rest := by
    rw [readString, if_neg (by decide), if_pos rfl, h]
    rfl
  -- One case for each escape, in the order in which they are tried.
  unfold escapeStringChar
  split_ifs with hquote hbackslash hback htab hfeed hform hreturn hcontrol
  case pos => subst hquote; exact hletter fun _ => rfl
  case pos => subst hbackslash; exact hletter fun _ => rfl
  case pos => subst hback; exact hletter fun _ => rfl
  case pos => subst htab; exact hletter fun _ => rfl
  case pos => subst hfeed; exact hletter fun _ => rfl
  case pos => subst hform; exact hletter fun _ => rfl
  case pos => subst hreturn; exact hletter fun _ => rfl
  case pos =>
    have hsmall : c.toNat < 0xa0 := by
      simp only [Bool.or_eq_true, Bool.and_eq_true, decide_eq_true_eq] at hcontrol
      omega
    obtain ⟨hlength, -⟩ := hex4?_upperHex c.toNat hsmall
    rw [List.cons_append, List.cons_append, readString, if_neg (by decide), if_pos rfl,
      readEscape_upperHex hsmall]
    simp [hlength]
  case neg =>
    rw [List.singleton_append, readString, if_neg hquote, if_neg hbackslash,
      if_neg (by simp [isLineEnd, hfeed, hreturn])]
    rfl

/-- The content of a quoted string is read back, character by character. -/
theorem readString_escaped (text : List Char) (place : Nat) (content rest : List Char) :
    readString place content (text.flatMap escapeStringChar ++ '"' :: rest) =
      .ok (.string (String.ofList (content.reverse ++ text)),
        place + (text.flatMap escapeStringChar).length + 1) := by
  induction text generalizing place content with
  | nil =>
    rw [List.flatMap_nil, List.nil_append, readString, if_pos rfl, List.append_nil]
    rfl
  | cons c text ih =>
    rw [List.flatMap_cons, List.append_assoc, readString_escapeStringChar, ih, List.length_append,
      List.reverse_cons, List.append_assoc, List.singleton_append, Nat.add_assoc place]

/-- No quote at the start of a quoted string, unless it is empty. -/
theorem head?_escaped {text : List Char} (h : text ≠ []) (rest : List Char) :
    (text.flatMap escapeStringChar ++ rest).head? ≠ some '"' := by
  obtain ⟨c, more, rfl⟩ := List.exists_cons_of_ne_nil h
  rw [List.flatMap_cons]
  unfold escapeStringChar
  split_ifs with hquote <;> simp [*]

/-- A quoted string is read back, unless a quote follows that would make it a longer one. -/
theorem scans_printString (content : String) :
    Scans Apart (printString content) [.string content] := by
  intro rest hrest
  have hread : readToken '"' (content.toList.flatMap escapeStringChar ++ '"' :: rest) =
      .ok (.string content, 1 + (content.toList.flatMap escapeStringChar).length + 1) := by
    have hshort := readString_escaped content.toList 1 [] rest
    rw [List.reverse_nil, List.nil_append, String.ofList_toList] at hshort
    rw [readToken, if_pos rfl]
    case x_1 =>
      intro more heq
      -- Two quotes are an empty string, and no third one follows.
      by_cases hempty : content.toList = []
      · rw [hempty] at heq
        have hhead : rest = '"' :: more := by simpa using heq
        have hquote := hrest '"' (by rw [hhead]; rfl)
        cases hquote
      · exact absurd (by rw [heq]; rfl) (head?_escaped hempty ('"' :: rest))
    exact hshort
  have htext : (printString content).toList ++ rest =
      '"' :: (content.toList.flatMap escapeStringChar ++ '"' :: rest) := by
    simp [printString]
  rw [htext, kinds_token rfl (by decide) hread, Nat.add_sub_cancel, Nat.add_comm, ← List.drop_drop,
    List.drop_left]
  rfl

/-! ## Numbers -/

open Decimal (exponentChars fractionChars)

theorem readDigits_append {digits back : List Char} (hdigits : IsDigits digits)
    (hback : Stops Char.isDigit back) (place : Nat) :
    readDigits place (digits ++ back) = .ok digits := by
  have hne : ¬ digits.isEmpty := by simpa using hdigits.1
  simp only [readDigits, Literal.takeWhile_append_of_stops hdigits.2 hback, if_neg hne]

/-- No number is written with a zero in front. -/
theorem readWhole_toDigits (n : Nat) {back : List Char} (hback : Stops Char.isDigit back)
    (place : Nat) : readWhole place (Nat.toDigits 10 n ++ back) = .ok (Nat.toDigits 10 n) := by
  have hread := readDigits_append (Decimal.isDigits_toDigits n) hback place
  by_cases hzero : (Nat.toDigits 10 n).head? = some '0'
  · rw [Decimal.toDigits_of_head hzero] at hread ⊢
    cases back with
    | nil => exact hread
    | cons c rest =>
      have hc : c.isDigit = false := hback c rfl
      exact if_neg (by simp [hc])
  · unfold readWhole
    split
    next heq =>
      rw [← List.head?_append_of_ne_nil _ Nat.toDigits_ne_nil, heq] at hzero
      exact absurd rfl hzero
    next => exact hread

/-- A fraction is read back before anything but digits and a point. -/
theorem readFraction_fractionChars (places : List Decimal.Digit) {back : List Char}
    (hback : Stops (fun c => c.isDigit || c == '.') back) (place : Nat) :
    readFraction place (fractionChars places ++ back) =
      .ok (places.map Decimal.Digit.char, (fractionChars places).length) := by
  by_cases hplaces : places = []
  · subst hplaces
    change readFraction place back = .ok ([], 0)
    unfold readFraction
    split
    next rest => exact absurd (hback '.' rfl) (by simp)
    next => rfl
  · have hstops : Stops Char.isDigit back := fun c hc => by
      have := hback c hc
      simp only [Bool.or_eq_false_iff] at this
      exact this.1
    have hread := readDigits_append (Decimal.isDigits_map_char hplaces) hstops (place + 1)
    rw [fractionChars, if_neg (by simpa using hplaces), List.cons_append, readFraction, hread]
    rfl

/-- An exponent is read back before anything that goes on with no name. -/
theorem readExponent_exponentChars {exponent : Option Decimal.ExponentPart}
    (h : ∀ e ∈ exponent, e.digits ≠ []) {back : List Char} (hback : Stops isNameChar back)
    (place : Nat) :
    readExponent place (exponentChars exponent ++ back) =
      .ok (exponent, (exponentChars exponent).length) := by
  cases exponent with
  | none =>
    change readExponent place back = .ok (none, 0)
    cases back with
    | nil => rfl
    | cons c rest =>
      have hc : isNameChar c = false := hback c rfl
      -- What follows is no part of a name, so it is not the letter of an exponent either.
      have hletter : ¬ (c = 'e' || c = 'E') := by
        simp only [Bool.or_eq_true, decide_eq_true_eq]
        rintro (rfl | rfl) <;> exact absurd hc (by decide)
      rw [readExponent, if_neg hletter]
  | some e =>
    obtain ⟨capital, sign, digits⟩ := e
    have hdigits := Decimal.isDigits_map_char (h _ rfl)
    have hstops : Stops Char.isDigit back := fun c hc => by
      have := hback c hc
      simp only [isNameChar, Char.isAlphanum, Bool.or_eq_false_iff] at this
      exact this.1.2
    have hread := fun place => readDigits_append hdigits hstops place
    have hchars : exponentChars (some ⟨capital, sign, digits⟩) =
        (if capital then 'E' else 'e') ::
          (Decimal.exponentSignChars sign ++ digits.map Decimal.Digit.char) :=
      Decimal.ExponentPart.chars_eq _
    have hletter :
        (if capital then 'E' else 'e') = 'e' || (if capital then 'E' else 'e') = 'E' := by
      cases capital <;> rfl
    have hcapital : decide ((if capital then 'E' else 'e') = 'E') = capital := by
      cases capital <;> rfl
    rw [hchars, List.cons_append, List.append_assoc, readExponent, if_pos hletter, hcapital]
    rcases sign with _ | _ | _
    · -- A digit is no sign.
      obtain ⟨d, more, hcons⟩ := List.exists_cons_of_ne_nil hdigits.1
      have hd : d.isDigit := hdigits.2 d (hcons ▸ List.mem_cons_self)
      have hminus : d ≠ '-' := by rintro rfl; exact absurd hd (by decide)
      have hplus : d ≠ '+' := by rintro rfl; exact absurd hd (by decide)
      have hone := hread (place + 1)
      rw [hcons, List.cons_append] at hone
      simp only [Decimal.exponentSignChars, List.nil_append, hcons, List.cons_append]
      split
      next heq => exact absurd (List.cons.inj heq).1 hminus
      next heq => exact absurd (List.cons.inj heq).1 hplus
      next =>
        simp only [hone, ← hcons, Success.bind_eq_ok, Success.pure_eq_ok]
        exact ⟨_, rfl, _, rfl, by rw [Decimal.filterMap_map_char]; rfl⟩
    all_goals
      simp only [Decimal.exponentSignChars, List.cons_append, List.nil_append, hread]
      simp only [Success.bind_eq_ok, Success.pure_eq_ok]
      exact ⟨_, rfl, _, rfl, by rw [Decimal.filterMap_map_char]; rfl⟩

def ofNumeral : Decimal.Numeral → TokenKind
  | .int n => .int n
  | .float n => .float n

/-- A number with all of its parts is read back. -/
theorem readNumber_text {n : Decimal.Numeral} (h : n.IsLexical) {rest : List Char}
    (hrest : Apart rest) :
    readNumber (n.text.toList ++ rest) = .ok (ofNumeral n, n.text.toList.length) := by
  -- Each part ends where the next one starts, or where the number ends.
  have hexponent := Decimal.isExponent_exponentChars h.exponent
  have hname : Stops isNameChar rest := hrest.stops fun c hc => by simp [hc]
  have hpoint : Stops (fun c => c.isDigit || c == '.') (exponentChars n.parts.exponent ++ rest) :=
    (hexponent.stops ⟨rfl, rfl⟩).append fun _ => hrest.stops fun c hc => by
      simp only [isNameChar, Char.isAlphanum]
      simp at hc ⊢
      tauto
  have hback : Stops Char.isDigit
      (fractionChars n.parts.fraction ++ (exponentChars n.parts.exponent ++ rest)) :=
    ((Decimal.isFraction_fractionChars _).stops rfl).append fun _ =>
      (hexponent.stops ⟨rfl, rfl⟩).append fun _ => hrest.stops fun c hc => by
        simp [isNameChar, Char.isAlphanum, hc]
  have hminus : Stops (· == '-') (Nat.toDigits 10 n.parts.whole ++
      (fractionChars n.parts.fraction ++ (exponentChars n.parts.exponent ++ rest))) :=
    (Decimal.isDigits_toDigits _).stops.append fun hnil => absurd hnil Nat.toDigits_ne_nil
  have hsign : (signChars n.parts.negative ++ (Nat.toDigits 10 n.parts.whole ++
      (fractionChars n.parts.fraction ++ (exponentChars n.parts.exponent ++ rest)))).head? =
        some '-' ↔ n.parts.negative = true := by
    cases n.parts.negative with
    | true => simp [signChars]
    | false => simpa [signChars] using Literal.head?_ne_of_stops hminus rfl
  have hsize :
      (if n.parts.negative = true then 1 else 0) = (signChars n.parts.negative).length := by
    cases n.parts.negative <;> rfl
  have hend : (rest.head?.any fun c => c = '.' || isNameStart c) = false := by
    rw [Option.any_eq_false]
    intro c hc
    have hstops := hrest.stops (p := fun c => c = '.' || isNameStart c) (fun d hd => by
      rcases Bool.or_eq_true _ _ |>.mp hd with hd | hd
      · simp [hd]
      · simp [Text.isNameChar_of_isNameStart hd]) c hc
    simpa using hstops
  rw [Json.toList_text]
  have hok {α β : Type} (a : α) (next : α → Attempt β) : (.ok a >>= next) = next a := rfl
  simp only [Json.magnitudeChars, List.append_assoc, readNumber, hsign, hsize, List.drop_left,
    readWhole_toDigits _ hback, hok, Nat.add_assoc, List.drop_length_add_append,
    readFraction_fractionChars _ hpoint, readExponent_exponentChars h.exponent hname, hend,
    Nat.ofDigitChars_ten_toDigits, Decimal.filterMap_map_char, Bool.decide_eq_true,
    List.length_append]
  rw [if_neg Bool.false_ne_true]
  cases n with
  | int n => rfl
  | float n =>
    have hparts : ¬ ((n.fraction.map Decimal.Digit.char).isEmpty && n.exponent.isNone) := by
      rcases h.1 with hfraction | hpower
      · simp [hfraction]
      · simp [Option.isSome_iff_ne_none.mp hpower]
    exact if_neg hparts

theorem isNameStart_of_isDigit {c : Char} (h : c.isDigit) : isNameStart c = false := by
  have hne : c ≠ '_' := by rintro rfl; exact absurd h (by decide)
  have halpha : c.isAlpha = false := by
    simp only [Char.isAlpha, Char.isUpper, Char.isLower, Char.isDigit] at h ⊢
    grind
  simp [isNameStart, halpha, hne]

/-- The text of a number is one token. -/
theorem scans_number {n : Decimal.Numeral} (h : n.IsLexical) :
    Scans Apart n.text [ofNumeral n] := by
  intro rest hrest
  have hread := readNumber_text h hrest
  obtain ⟨d, more, htext, hd⟩ : ∃ c more, n.text.toList = c :: more ∧ (c.isDigit || c = '-') := by
    rw [Json.toList_text]
    obtain ⟨d, more, heq, hd⟩ := Json.exists_digit n.parts
    cases n.parts.negative with
    | true => exact ⟨'-', _, rfl, rfl⟩
    | false => exact ⟨d, more, heq, by simp [hd]⟩
  have hne : ∀ e, (e.isDigit || e = '-') = false → d ≠ e := by
    rintro e he rfl
    rw [hd] at he
    cases he
  -- The first character decides which reader is called: it is no quote and starts no name.
  have hstart : isNameStart d = false := by
    rcases Bool.or_eq_true _ _ |>.mp hd with hd | hd
    · exact isNameStart_of_isDigit hd
    · rw [decide_eq_true_eq.mp hd]
      rfl
  have htoken : readToken d (more ++ rest) = .ok (ofNumeral n, more.length + 1) := by
    unfold readToken
    rw [if_neg (hne '"' rfl), if_neg (by simp [hstart]), if_pos hd, ← List.cons_append, ← htext,
      hread, htext]
    rfl
  have hblank : isIgnored d = false := by
    simp [isIgnored, hne ' ' rfl, hne '\t' rfl, hne ',' rfl, hne '\ufeff' rfl, hne '\n' rfl,
      hne '\r' rfl]
  rw [htext, List.cons_append, kinds_token hblank (hne '#' rfl) htoken, Nat.add_sub_cancel,
    List.drop_left]
  rfl

end SchemaClasses.Token
