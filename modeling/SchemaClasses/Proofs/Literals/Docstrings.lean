import SchemaClasses.Proofs.References

/-!
# Reading documentation strings

The grammar of literals between triple quotes, as a reader that takes the literal at the front of a
text, and what it gets back from a documentation string: the text, unless that ends with quotes in
groups of three. The last quote of such a text has its backslash already when it gets another one.
-/

namespace SchemaClasses.Literal

open Text (docstring docstringChars escapeDoc escapeLastQuote isRawControl)
open Text.Uses (escapeDoc_ne_nil escapeLastQuote_cons take_two_body)

/-! ## The reader -/

/-- The content of a literal up to its three closing quotes. It may have several lines, and every
    line end in it is a line feed. -/
def readLong : List Char → Reading (List Char)
  | [] => none
  | c :: rest =>
    if c = '"' ∧ rest.take 2 = ['"', '"'] then some ([], rest.drop 2)
    else if c = '\\' then
      match readEscape rest with
      | some (chars, size) =>
        (readLong (rest.drop size)).map fun (content, rest) => (chars ++ content, rest)
      | none => none
    else if c = '\x00' then none
    else if c = '\r' then
      (readLong (rest.drop (if rest.head? = some '\n' then 1 else 0))).map
        fun (content, rest) => ('\n' :: content, rest)
    else (readLong rest).map fun (content, rest) => (c :: content, rest)
termination_by text => text.length
decreasing_by
  all_goals simp only [List.length_drop, List.length_cons]
  all_goals omega

/-- The content of the literal between triple quotes at the front of a text. -/
def readDocstring : List Char → Reading (List Char)
  | '"' :: '"' :: '"' :: rest => readLong rest
  | _ => none

/-! ## One character of a text -/

theorem readLong_close (rest : List Char) :
    readLong ('"' :: '"' :: '"' :: rest) = some ([], rest) := by
  rw [readLong]
  simp

/-- An escape is read at once. -/
theorem readLong_escape {after chars : List Char} {size : Nat}
    (h : readEscape after = some (chars, size)) :
    readLong ('\\' :: after) =
      (readLong (after.drop size)).map fun (content, rest) => (chars ++ content, rest) := by
  rw [readLong]
  simp [h]

/-- A backslash before a quote or a backslash. -/
theorem readLong_escaped {c : Char} (h : c = '"' ∨ c = '\\') (rest : List Char) :
    readLong ('\\' :: c :: rest) =
      (readLong rest).map fun (content, rest) => (c :: content, rest) := by
  have hescape : readEscape (c :: rest) = some ([c], 1) := by
    rcases h with rfl | rfl <;> rfl
  exact readLong_escape hescape

/-- Two digits write a character below 256. -/
theorem readLong_control {c : Char} (h : c.toNat < 256) (rest : List Char) :
    readLong ('\\' :: 'x' :: Text.hexDigit (c.toNat / 16) :: Text.hexDigit (c.toNat % 16) :: rest) =
      (readLong rest).map fun (content, rest) => (c :: content, rest) := by
  have hhigh := hexValue?_hexDigit (c.toNat / 16) (by omega)
  have hlow := hexValue?_hexDigit (c.toNat % 16) (by omega)
  have hnumber : hexNumber? 2
      (Text.hexDigit (c.toNat / 16) :: Text.hexDigit (c.toNat % 16) :: rest) = some c.toNat := by
    simp only [hexNumber?, List.length_cons, List.take_succ_cons, List.take_zero, List.foldlM_cons,
      List.foldlM_nil, hhigh, hlow, Option.map_some, Option.bind_eq_bind, Option.bind_some,
      Option.pure_def]
    rw [if_neg (by omega), Option.some.injEq]
    omega
  have hpoint : Token.isScalar c.toNat := by
    simp only [Token.isScalar, Bool.or_eq_true, decide_eq_true_eq]
    omega
  have hescape : readEscape ('x' :: Text.hexDigit (c.toNat / 16) :: Text.hexDigit (c.toNat % 16) ::
      rest) = some ([c], 3) := by
    simp [readEscape, hexEscape?, hnumber, hpoint]
  exact readLong_escape hescape

/-- All other characters stand for themselves, a quote only where it is not the first of three. -/
theorem readLong_cons {c : Char} {rest : List Char} (hquote : c ≠ '"' ∨ rest.take 2 ≠ ['"', '"'])
    (hbackslash : c ≠ '\\') (hcontrol : isRawControl c = false) :
    readLong (c :: rest) = (readLong rest).map fun (content, rest) => (c :: content, rest) := by
  have hzero : c ≠ '\x00' := by
    rintro rfl
    exact absurd hcontrol (by decide)
  have hreturn : c ≠ '\r' := by
    rintro rfl
    exact absurd hcontrol (by decide)
  rw [readLong, if_neg (by tauto), if_neg hbackslash, if_neg hzero, if_neg hreturn]

/-! ## Quotes at the end -/

/-- How many quotes a text ends with. -/
def endQuotes (text : List Char) : Nat :=
  (text.reverse.takeWhile (· == '"')).length

/-- Whether a text ends with quotes in groups of three. -/
def endsInTriples (text : List Char) : Bool :=
  text.getLast? == some '"' && endQuotes text % 3 == 0

theorem endQuotes_of_all {text : List Char} (h : text.all (· == '"')) :
    endQuotes text = text.length := by
  have hself : text.reverse.takeWhile (· == '"') = text.reverse :=
    List.takeWhile_eq_self_iff.mpr (by simpa using h)
  rw [endQuotes, hself, List.length_reverse]

theorem endQuotes_cons {c : Char} {text : List Char} (h : (c :: text).all (· == '"') = false) :
    endQuotes (c :: text) = endQuotes text := by
  rw [endQuotes, endQuotes, List.reverse_cons, List.takeWhile_append]
  split
  case isFalse => rfl
  case isTrue hlength =>
    -- Before the first character there are quotes only, so it is not one itself.
    have hself := (List.takeWhile_prefix (l := text.reverse) (· == '"')).eq_of_length hlength
    have hrest : ∀ d ∈ text, d = '"' := by simpa using List.takeWhile_eq_self_iff.mp hself
    have hc : (c == '"') = false := by
      rw [Bool.eq_false_iff]
      intro hquote
      rw [List.all_cons, hquote, List.all_eq_true.mpr (by simpa using hrest)] at h
      cases h
    rw [List.takeWhile_cons_of_neg (by simp [hc]), List.append_nil, hself]

/-- One character more at the front of a text does not change how it ends, unless it is a quote that
    makes up three or ends the text itself. -/
theorem endsInTriples_cons {c : Char} {text : List Char}
    (h : c ≠ '"' ∨ text ≠ [] ∧ text.take 2 ≠ ['"', '"']) :
    endsInTriples (c :: text) = endsInTriples text := by
  by_cases hne : text = []
  case pos =>
    subst hne
    have hc : c ≠ '"' := by simpa using h
    simp [endsInTriples, hc]
  case neg =>
    rw [endsInTriples, endsInTriples, List.getLast?_cons_of_ne_nil hne]
    cases hall : (c :: text).all (· == '"') with
    | false => rw [endQuotes_cons hall]
    | true =>
      -- Quotes alone that do not start with three are two.
      have hquotes : c = '"' ∧ ∀ d ∈ text, d = '"' := by simpa using hall
      obtain ⟨rfl, hrest⟩ := hquotes
      have htwo := (h.resolve_left (absurd rfl)).2
      match text, hne, hrest, htwo with
      | [d], _, hrest, _ =>
        rw [hrest d List.mem_cons_self]
        rfl
      | d :: e :: more, _, hrest, htwo => exact absurd (by simp [hrest d, hrest e]) htwo

/-- Three quotes more do not change it either. -/
theorem endsInTriples_triple {text : List Char} (hne : text ≠ []) :
    endsInTriples ('"' :: '"' :: '"' :: text) = endsInTriples text := by
  rw [endsInTriples, endsInTriples, List.getLast?_cons_of_ne_nil (by simp),
    List.getLast?_cons_of_ne_nil (by simp), List.getLast?_cons_of_ne_nil hne]
  cases hall : text.all (· == '"') with
  | true =>
    rw [endQuotes_of_all hall, endQuotes_of_all (by simpa using hall)]
    simp only [List.length_cons, Nat.add_assoc, Nat.reduceAdd, Nat.add_mod_right]
  | false =>
    have hcons (c : Char) {text : List Char} (h : text.all (· == '"') = false) :
        (c :: text).all (· == '"') = false := by
      rw [List.all_cons, h, Bool.and_false]
    rw [endQuotes_cons (hcons _ (hcons _ (hcons _ hall))), endQuotes_cons (hcons _ (hcons _ hall)),
      endQuotes_cons (hcons _ hall)]

/-! ## The body of a documentation string -/

/-- What is read from a documentation string for a text, and what is left before a rest. If the text
    ends with quotes in groups of three, its last quote reads as a backslash, and the string is over
    before the last of its own quotes. -/
def readBack (text rest : List Char) : List Char × List Char :=
  if endsInTriples text then (text.dropLast ++ ['\\'], '"' :: rest) else (text, rest)

/-- Only quotes at the very end make a difference to what is read back. -/
theorem readBack_append (front : List Char) {text : List Char}
    (h : endsInTriples (front ++ text) = endsInTriples text) (rest : List Char) :
    readBack (front ++ text) rest = (front ++ (readBack text rest).1, (readBack text rest).2) := by
  unfold readBack
  rw [h]
  split
  case isTrue htriples =>
    have hne : text ≠ [] := by
      rintro rfl
      cases htriples
    simp [List.dropLast_append_of_ne_nil hne]
  case isFalse => rfl

/-- One character of a text that is read before the others. -/
theorem readBack_cons {c : Char} {text : List Char}
    (h : c ≠ '"' ∨ text ≠ [] ∧ text.take 2 ≠ ['"', '"']) (rest : List Char) :
    readBack (c :: text) rest = (c :: (readBack text rest).1, (readBack text rest).2) :=
  readBack_append [c] (endsInTriples_cons h) rest

/-- Three quotes at the very end of a text. The rule on the last quote escapes the backslash before
    it once more, and not the quote. -/
theorem readLong_lastTriple (rest : List Char) :
    readLong (escapeLastQuote (escapeDoc ['"', '"', '"']) ++ '"' :: '"' :: '"' :: rest) =
      some (readBack ['"', '"', '"'] rest) := by
  change readLong ('\\' :: '"' :: '\\' :: '"' :: '\\' :: '\\' :: '"' :: '"' :: '"' :: '"' :: rest) = _
  rw [readLong_escaped (.inl rfl), readLong_escaped (.inl rfl), readLong_escaped (.inr rfl),
    readLong_close]
  rfl

/-- Three quotes before other text. -/
theorem readLong_triple {text rest : List Char} (hne : text ≠ [])
    (h : readLong (escapeLastQuote (escapeDoc text) ++ '"' :: '"' :: '"' :: rest) =
      some (readBack text rest)) :
    readLong (escapeLastQuote (escapeDoc ('"' :: '"' :: '"' :: text)) ++ '"' :: '"' :: '"' :: rest) =
      some (readBack ('"' :: '"' :: '"' :: text) rest) := by
  have hbody : escapeLastQuote (escapeDoc ('"' :: '"' :: '"' :: text)) =
      '\\' :: '"' :: '\\' :: '"' :: '\\' :: '"' :: escapeLastQuote (escapeDoc text) := by
    rw [escapeDoc, escapeLastQuote_cons (by simp), escapeLastQuote_cons (by simp),
      escapeLastQuote_cons (by simp), escapeLastQuote_cons (by simp),
      escapeLastQuote_cons (by simp), escapeLastQuote_cons (.inr (escapeDoc_ne_nil hne))]
  have hback : readBack ('"' :: '"' :: '"' :: text) rest =
      ('"' :: '"' :: '"' :: (readBack text rest).1, (readBack text rest).2) :=
    readBack_append ['"', '"', '"'] (endsInTriples_triple hne) rest
  rw [hbody, hback]
  simp only [List.cons_append]
  rw [readLong_escaped (.inl rfl), readLong_escaped (.inl rfl), readLong_escaped (.inl rfl), h]
  rfl

/-- A quote that is not the first of three is escaped at the very end only. -/
theorem readLong_single {text rest : List Char} (htwo : text.take 2 ≠ ['"', '"'])
    (h : readLong (escapeLastQuote (escapeDoc text) ++ '"' :: '"' :: '"' :: rest) =
      some (readBack text rest)) :
    readLong (escapeLastQuote ('"' :: escapeDoc text) ++ '"' :: '"' :: '"' :: rest) =
      some (readBack ('"' :: text) rest) := by
  by_cases hnil : text = []
  case pos =>
    subst hnil
    change readLong ('\\' :: '"' :: '"' :: '"' :: '"' :: rest) = _
    rw [readLong_escaped (.inl rfl), readLong_close]
    rfl
  case neg =>
    rw [escapeLastQuote_cons (.inr (escapeDoc_ne_nil hnil)), List.cons_append,
      readLong_cons (.inr (take_two_body hnil htwo _)) (by decide) rfl, h,
      readBack_cons (.inr ⟨hnil, htwo⟩)]
    rfl

/-- The body of a documentation string is read one character of its text after the other, or three
    quotes at once. -/
theorem readLong_body (text rest : List Char) :
    readLong (escapeLastQuote (escapeDoc text) ++ '"' :: '"' :: '"' :: rest) =
      some (readBack text rest) := by
  -- One case for each way a character is escaped; a triple of quotes at the very end is read
  -- differently from any before it.
  fun_induction escapeDoc text with
  | case1 => exact readLong_close rest
  | case2 text ih =>
    by_cases hnil : text = []
    case pos =>
      subst hnil
      exact readLong_lastTriple rest
    case neg => exact readLong_triple hnil ih
  | case3 text ih =>
    rw [escapeLastQuote_cons (by simp), escapeLastQuote_cons (by simp), List.cons_append,
      List.cons_append, readLong_escaped (.inr rfl), ih, readBack_cons (.inl (by decide))]
    rfl
  | case4 c text htriple hbackslash hcontrol ih =>
    have hsmall := Text.toNat_lt_of_isRawControl hcontrol
    have hc : c ≠ '"' := by
      rintro rfl
      exact absurd hcontrol (by decide)
    obtain ⟨hhigh, -⟩ := Scan.hexDigit_inert (c.toNat / 16) (by omega)
    obtain ⟨hlow, -⟩ := Scan.hexDigit_inert (c.toNat % 16) (by omega)
    rw [escapeLastQuote_cons (by simp), escapeLastQuote_cons (by simp),
      escapeLastQuote_cons (.inl hhigh), escapeLastQuote_cons (.inl hlow)]
    simp only [List.cons_append]
    rw [readLong_control hsmall, ih, readBack_cons (.inl hc)]
    rfl
  | case5 c text htriple hbackslash hcontrol ih =>
    by_cases hc : c = '"'
    case pos =>
      subst hc
      -- Two more quotes would have made this one a triple.
      refine readLong_single (fun htwo => ?_) ih
      refine htriple (text.drop 2) rfl ?_
      rw [← List.take_append_drop 2 text, htwo]
      rfl
    case neg =>
      rw [escapeLastQuote_cons (.inl hc), List.cons_append,
        readLong_cons (.inl hc) hbackslash (by simpa using hcontrol), ih, readBack_cons (.inl hc)]
      rfl

/-! ## Control characters -/

theorem isRawControl_hexDigit : ∀ n < 16, isRawControl (Text.hexDigit n) = false := by
  decide

/-- Control characters that cannot stand for themselves are all escaped. -/
theorem isRawControl_escapeDoc (text : List Char) :
    ∀ c ∈ escapeDoc text, isRawControl c = false := by
  have hbackslash : isRawControl '\\' = false := rfl
  have hquote : isRawControl '"' = false := rfl
  fun_induction escapeDoc text with
  | case1 => simp
  | case2 text ih => simpa only [List.forall_mem_cons, hbackslash, hquote, true_and] using ih
  | case3 text ih => simpa only [List.forall_mem_cons, hbackslash, true_and] using ih
  | case4 c text htriple hbackslash' hcontrol ih =>
    have hsmall := Text.toNat_lt_of_isRawControl hcontrol
    have hletter : isRawControl 'x' = false := rfl
    simp only [List.forall_mem_cons, hbackslash, hletter, true_and]
    exact ⟨isRawControl_hexDigit _ (by omega), isRawControl_hexDigit _ (by omega), ih⟩
  | case5 c text htriple hbackslash' hcontrol ih =>
    exact List.forall_mem_cons.mpr ⟨by simpa using hcontrol, ih⟩

/-- No such control character stands for itself in a documentation string. -/
theorem isRawControl_docstringChars (text : List Char) :
    ∀ c ∈ docstringChars text, isRawControl c = false := by
  have hbody : ∀ c ∈ escapeLastQuote (escapeDoc text), isRawControl c = false := by
    unfold escapeLastQuote
    split
    case isTrue =>
      refine List.forall_mem_append.mpr ⟨fun c hmem => ?_, by simpa using ⟨rfl, rfl⟩⟩
      exact isRawControl_escapeDoc text c (List.dropLast_subset _ hmem)
    case isFalse => exact isRawControl_escapeDoc text
  have hquotes : ∀ c ∈ ['"', '"', '"'], isRawControl c = false := by simp [isRawControl]
  rw [docstringChars]
  exact List.forall_mem_append.mpr ⟨List.forall_mem_append.mpr ⟨hquotes, hbody⟩, hquotes⟩

/-! ## Documentation strings -/

/-- A documentation string is one literal, whatever follows it, and reads back as its text, unless
    the text ends with quotes in groups of three. Then the last quote reads as a backslash, and the
    literal is over before the last of its own quotes. In every case no control character stands for
    itself but tabs and line feeds. -/
theorem readDocstring_docstring (text : String) (rest : List Char) :
    readDocstring ((docstring text).toList ++ rest) =
        some (if endsInTriples text.toList then (text.toList.dropLast ++ ['\\'], '"' :: rest)
          else (text.toList, rest)) ∧
      ∀ c ∈ (docstring text).toList, c.toNat < 0x20 ∨ c.toNat = 0x7f → c = '\n' ∨ c = '\t' := by
  have hchars : (docstring text).toList = docstringChars text.toList := by
    rw [docstring, String.toList_ofList]
  rw [hchars]
  constructor
  · have hopen : docstringChars text.toList ++ rest = '"' :: '"' :: '"' ::
        (escapeLastQuote (escapeDoc text.toList) ++ '"' :: '"' :: '"' :: rest) := by
      simp [docstringChars]
    rw [hopen, readDocstring, readLong_body, readBack]
  · intro c hmem hcontrol
    have hraw := isRawControl_docstringChars text.toList c hmem
    simp only [isRawControl] at hraw
    grind

/-- Three quotes alone are no text that reads back: a quote is left over after the literal. -/
theorem readDocstring_threeQuotes :
    readDocstring (docstring "\"\"\"").toList = some (['"', '"', '\\'], ['"']) := by
  cbv

end SchemaClasses.Literal
