import SchemaClasses.Code.Import
import SchemaClasses.Proofs.Brackets
import SchemaClasses.Proofs.Identifiers
import SchemaClasses.Proofs.Literals.Reading
import SchemaClasses.Text.Docstring

/-!
# References

Which names generated code refers to. A scanner reads the code from left to right: strings and
documentation strings are passed over, and so is a name that is bound, as a keyword or on the left
of an assignment. Every other name is a reference.

What a text refers to is told before whatever may follow it, since a name or a string goes on until
something ends it.
-/

namespace SchemaClasses.Text

open Literal (Stops)
open Token (isNameChar)

/-! ## The scanner -/

/-- What is left after a string, from behind its first quote on. A string ends at a quote, or with
    its line at the latest. -/
def afterString : List Char → List Char
  | [] => []
  | '"' :: rest => rest
  | '\n' :: rest => '\n' :: rest
  | '\\' :: _ :: rest => afterString rest
  | _ :: rest => afterString rest

/-- What is left after a documentation string, from behind its first three quotes on. -/
def afterDocstring : List Char → List Char
  | [] => []
  | '\\' :: _ :: rest => afterDocstring rest
  | '"' :: '"' :: '"' :: rest => rest
  | _ :: rest => afterDocstring rest

/-- Whether this text binds the name right before it. -/
def isBinding (text : List Char) : Bool :=
  (text.dropWhile (· == ' ')).head? == some '='

theorem length_afterString_le (text : List Char) : (afterString text).length ≤ text.length := by
  fun_induction afterString text with
  | case1 => exact Nat.le_refl _
  | case2 rest => exact Nat.le_succ _
  | case3 rest => exact Nat.le_refl _
  | case4 c rest ih => exact Nat.le_add_right_of_le (Nat.le_add_right_of_le ih)
  | case5 c rest _ _ _ ih => exact Nat.le_add_right_of_le ih

theorem length_afterDocstring_le (text : List Char) :
    (afterDocstring text).length ≤ text.length := by
  fun_induction afterDocstring text with
  | case1 => exact Nat.le_refl _
  | case2 c rest ih => exact Nat.le_add_right_of_le (Nat.le_add_right_of_le ih)
  | case3 rest => exact Nat.le_add_right _ 3
  | case4 c rest _ _ ih => exact Nat.le_add_right_of_le ih

def referencesIn : List Char → List String
  | [] => []
  | '"' :: '"' :: '"' :: rest => referencesIn (afterDocstring rest)
  | '"' :: rest => referencesIn (afterString rest)
  | c :: rest =>
    if isNameChar c then
      let name := String.ofList (c :: rest.takeWhile isNameChar)
      let after := rest.dropWhile isNameChar
      if isBinding after then referencesIn after else name :: referencesIn after
    else referencesIn rest
termination_by text => text.length
decreasing_by
  · have := length_afterDocstring_le rest
    simp only [List.length_cons]
    omega
  · have := length_afterString_le rest
    simp only [List.length_cons]
    omega
  all_goals
    have := (List.dropWhile_sublist (l := rest) isNameChar).length_le
    simp only [List.length_cons]
    omega

/-- The names that a text refers to, in order. -/
def references (text : Text) : List String :=
  referencesIn text.chars

example : references "class A(Interface):\n    \"\"\"a \"List\" b\"\"\"\n    Enum = Field(lambda: A)" =
    ["class", "A", "Interface", "Field", "lambda", "A"] := by
  cbv

/-! ## One unit of code -/

theorem afterString_cons {c : Char} (hquote : c ≠ '"') (hbackslash : c ≠ '\\') (hfeed : c ≠ '\n')
    (rest : List Char) : afterString (c :: rest) = afterString rest := by
  rw [afterString]
  · exact hquote
  · exact hfeed
  · rintro _ _ rfl
    exact absurd rfl hbackslash

theorem afterDocstring_cons {c : Char} (hquote : c ≠ '"') (hbackslash : c ≠ '\\')
    (rest : List Char) : afterDocstring (c :: rest) = afterDocstring rest := by
  rw [afterDocstring]
  · rintro _ _ rfl
    exact absurd rfl hbackslash
  · rintro _ rfl
    exact absurd rfl hquote

/-- Nothing in a documentation string refers to anything. -/
theorem referencesIn_docstring (rest : List Char) :
    referencesIn ('"' :: '"' :: '"' :: rest) = referencesIn (afterDocstring rest) := by
  rw [referencesIn]

/-- Nothing in a string refers to anything. -/
theorem referencesIn_string {rest : List Char} (h : rest.take 2 ≠ ['"', '"']) :
    referencesIn ('"' :: rest) = referencesIn (afterString rest) := by
  rw [referencesIn]
  rintro more rfl
  exact h rfl

theorem referencesIn_skip {c : Char} (hname : isNameChar c = false) (hquote : c ≠ '"')
    (rest : List Char) : referencesIn (c :: rest) = referencesIn rest := by
  rw [referencesIn]
  · simp [hname]
  · rintro - rfl
    exact absurd rfl hquote
  · exact hquote

/-- A name refers to what it names, unless it is bound there. -/
theorem referencesIn_name {name rest : List Char} (hne : name ≠ [])
    (hname : ∀ c ∈ name, isNameChar c) (hrest : Stops isNameChar rest) :
    referencesIn (name ++ rest) =
      if isBinding rest then referencesIn rest
      else String.ofList name :: referencesIn rest := by
  cases name with
  | nil => exact absurd rfl hne
  | cons c more =>
    rw [List.forall_mem_cons] at hname
    have hquote : c ≠ '"' := by
      rintro rfl
      exact absurd hname.1 (by decide)
    have htake : (more ++ rest).takeWhile isNameChar = more :=
      Literal.takeWhile_append_of_stops hname.2 hrest
    have hdrop : (more ++ rest).dropWhile isNameChar = rest :=
      Literal.dropWhile_append_of_stops hname.2 hrest
    rw [List.cons_append, referencesIn, if_pos hname.1, htake, hdrop]
    · rintro - rfl
      exact absurd rfl hquote
    · exact hquote

theorem referencesIn_identifier {name : String} (h : isIdentifier name) {rest : List Char}
    (hrest : Stops isNameChar rest) :
    referencesIn (name.toList ++ rest) =
      if isBinding rest then referencesIn rest else name :: referencesIn rest := by
  have hne : name.toList ≠ [] := by
    obtain ⟨c, more, heq, -⟩ := isIdentifier.exists_cons h
    rw [heq]
    exact List.cons_ne_nil _ _
  rw [referencesIn_name hne (isIdentifierChars.nameChars h) hrest, String.ofList_toList]

theorem stops_cons {p : Char → Bool} {c : Char} (h : p c = false) (rest : List Char) :
    Stops p (c :: rest) := by
  intro d hd
  cases hd
  exact h

/-! ## What a text uses -/

/-- The code refers to this name of the class library. -/
def Mentions (text : List Char) (i : Import) : Prop :=
  i.text ∈ referencesIn text

theorem not_mentions_nil (i : Import) : ¬ Mentions [] i := by
  simp [Mentions, referencesIn]

/-- Before a rest of this kind, the text refers to those names of the class library that `uses`
    says, and leaves the rest as it is. -/
def Uses (before : List Char → Prop) (text : Text) (uses : Import → Prop) : Prop :=
  ∀ rest, before rest → ∀ i, Mentions (text.chars ++ rest) i ↔ uses i ∨ Mentions rest i

/-- Before a rest of this kind, the text refers to no name of the class library. -/
abbrev Silent (before : List Char → Prop) (text : Text) : Prop :=
  Uses before text fun _ => False

/-- Each of these texts can be told from a rest of this kind, and together they refer to those names
    that `uses` says. -/
structure UsesEach (before : List Char → Prop) (texts : List Text) (uses : Import → Prop) :
    Prop where
  each : ∀ text ∈ texts, Uses before text (Mentions text.chars)
  all : ∀ i, (∃ text ∈ texts, Mentions text.chars i) ↔ uses i

/-! ## What may follow -/

def Anything (_ : List Char) : Prop := True

/-- The rest does not bind the name before it. -/
def Unbinding (rest : List Char) : Prop :=
  isBinding rest = false

/-- The rest neither goes on with a name nor binds it. -/
def Unbound (rest : List Char) : Prop :=
  Stops isNameChar rest ∧ Unbinding rest

/-- The rest binds the name before it. -/
def Bound (rest : List Char) : Prop :=
  Stops isNameChar rest ∧ isBinding rest = true

/-- The characters that end a name or a string without binding it. -/
def delimiters : List Char :=
  [',', ')', ']', '\x7d', ':', '(', '\n']

/-- Nothing, or a character that ends a name or a string. -/
def Delimited (rest : List Char) : Prop :=
  ∀ c ∈ rest.head?, delimiters.contains c

/-- Nothing, or the end of a line. -/
def LineEnd (rest : List Char) : Prop :=
  ∀ c ∈ rest.head?, c = '\n'

theorem unbinding_cons {c : Char} (hblank : c ≠ ' ') (hsign : c ≠ '=') (rest : List Char) :
    Unbinding (c :: rest) := by
  simp [Unbinding, isBinding, hblank, hsign]

theorem unbinding_identifier {name : String} (h : isIdentifier name) (rest : List Char) :
    Unbinding (name.toList ++ rest) := by
  obtain ⟨c, more, heq, hc⟩ := isIdentifier.exists_cons h
  rw [heq]
  apply unbinding_cons <;> rintro rfl <;> exact absurd hc (by decide)

theorem delimited_nil : Delimited [] := by
  simp [Delimited]

theorem lineEnd_nil : LineEnd [] := by
  simp [LineEnd]

theorem lineEnd_cons (rest : List Char) : LineEnd ('\n' :: rest) := by
  simp [LineEnd]

theorem delimited_cons {c : Char} (h : delimiters.contains c) (rest : List Char) :
    Delimited (c :: rest) := by
  intro d hd
  cases hd
  exact h

theorem Delimited.stops {p : Char → Bool} {rest : List Char} (h : Delimited rest)
    (hp : delimiters.all (!p ·) = true) : Stops p rest := by
  intro c hc
  simpa using List.all_eq_true.mp hp c (List.contains_iff_mem.mp (h c hc))

/-- A character that ends a name does not bind it. -/
theorem Delimited.unbound {rest : List Char} (h : Delimited rest) : Unbound rest := by
  refine ⟨h.stops rfl, ?_⟩
  cases rest with
  | nil => rfl
  | cons c more =>
    have hblank : Stops (· == ' ') (c :: more) := h.stops rfl
    have hsign : Stops (· == '=') (c :: more) := h.stops rfl
    exact unbinding_cons (by simpa using hblank c rfl) (by simpa using hsign c rfl) more

theorem LineEnd.delimited {rest : List Char} (h : LineEnd rest) : Delimited rest := by
  intro c hc
  rw [h c hc]
  rfl

/-! ## Composition -/

/-- Whether the characters are part of no name and start no string. -/
def isPunctuation (text : String) : Bool :=
  text.toList.all fun c => !isNameChar c && c != '"'

namespace Uses

variable {before after : List Char → Prop} {text front back : Text} {uses more : Import → Prop}

theorem congr (h : Uses before text uses) (heq : ∀ i, uses i ↔ more i) : Uses before text more := by
  intro rest hrest i
  rw [h rest hrest i, heq i]

theorem mono (h : Uses before text uses) (hafter : ∀ rest, after rest → before rest) :
    Uses after text uses := by
  intro rest hrest
  exact h rest (hafter rest hrest)

theorem mentions (hnil : before []) (h : Uses before text uses) (i : Import) :
    Mentions text.chars i ↔ uses i := by
  have := h [] hnil i
  rwa [List.append_nil, or_iff_left (not_mentions_nil i)] at this

/-- The second text is part of what follows the first one. -/
theorem append (hfront : Uses before front uses) (hback : Uses after back more)
    (hbefore : ∀ rest, after rest → before (back.chars ++ rest)) :
    Uses after (front ++ back) fun i => uses i ∨ more i := by
  intro rest hrest i
  rw [chars_append, List.append_assoc, hfront _ (hbefore rest hrest), hback rest hrest,
    or_assoc]

/-- Punctuation refers to nothing. -/
theorem punctuation {text : String} (h : isPunctuation text) : Silent Anything text := by
  have hchars : ∀ c ∈ text.toList, isNameChar c = false ∧ c ≠ '"' := by
    simpa [isPunctuation] using h
  intro rest _ i
  rw [chars_ofString]
  generalize text.toList = chars at hchars
  induction chars with
  | nil => simp
  | cons c chars ih =>
    rw [List.forall_mem_cons] at hchars
    rw [List.cons_append, Mentions, referencesIn_skip hchars.1.1 hchars.1.2]
    exact ih hchars.2

/-- A text within brackets. -/
theorem bracketed (h : Uses Delimited text uses) (bracket : Scan.Bracket) :
    Uses Anything (bracket.texts.1 ++ text ++ bracket.texts.2) uses := by
  have hopening : Silent Anything bracket.texts.1 := by
    cases bracket <;> exact punctuation rfl
  have hclosing : Silent Anything bracket.texts.2 := by
    cases bracket <;> exact punctuation rfl
  have hends (rest : List Char) :
      Delimited ((Text.ofString bracket.texts.2).chars ++ rest) := by
    cases bracket <;> exact delimited_cons rfl rest
  have hfront := hopening.append h fun _ _ => trivial
  exact (hfront.append hclosing fun rest _ => hends rest).congr (by simp)

/-! ### Names -/

/-- A name refers to the class of the library that is called so. -/
theorem name {name : String} (h : isIdentifier name) :
    Uses Unbound name fun i => i.text = name := by
  intro rest hrest i
  have hbinding : isBinding rest = false := hrest.2
  rw [chars_ofString, Mentions, referencesIn_identifier h hrest.1, if_neg (by simp [hbinding]),
    List.mem_cons]
  rfl

/-- A name and a blank before a text that does not bind it. -/
theorem spaced {name : String} (hname : isIdentifier name) (h : Uses after text uses)
    (hunbinding : ∀ rest, after rest → Unbinding (text.chars ++ rest)) :
    Uses after (name ++ " " ++ text) fun i => i.text = name ∨ uses i := by
  have hspace : Silent Unbinding " " :=
    (punctuation rfl).mono fun _ _ => trivial
  have hfront := (Uses.name hname).append hspace fun rest hrest => ⟨stops_cons rfl _, hrest⟩
  exact (hfront.append h hunbinding).congr (by simp)

/-- A text bound to a name, which is no reference. -/
theorem bound {name sign : String} (hname : isIdentifier name) (hsign : sign = "=" ∨ sign = " = ")
    (h : Uses before text uses) : Uses before (name ++ sign ++ text) uses := by
  have hbound : Silent Bound name := by
    intro rest hrest i
    rw [chars_ofString, Mentions, referencesIn_identifier hname hrest.1, hrest.2, if_pos rfl,
      false_or]
    rfl
  have hstart (rest : List Char) : Bound ((Text.ofString sign).chars ++ rest) := by
    rcases hsign with rfl | rfl
    · exact ⟨stops_cons rfl _, rfl⟩
    · exact ⟨stops_cons rfl _, rfl⟩
  have hpunctuation : Silent Anything sign := by
    rcases hsign with rfl | rfl
    · exact punctuation rfl
    · exact punctuation rfl
  have hfront := hbound.append hpunctuation fun rest _ => hstart rest
  exact (hfront.append h fun _ _ => trivial).congr (by simp)

end Uses

/-! ### Several texts -/

namespace UsesEach

variable {before : List Char → Prop} {texts more : List Text} {uses others : Import → Prop}

theorem congr (h : UsesEach before texts uses) (heq : ∀ i, uses i ↔ others i) :
    UsesEach before texts others :=
  ⟨h.each, fun i => (h.all i).trans (heq i)⟩

/-- Pieces are followed one by one. -/
theorem map {α : Type} {pieces : List α} {render : α → Text} {used : α → Import → Prop}
    (hnil : before []) (h : ∀ piece ∈ pieces, Uses before (render piece) (used piece)) :
    UsesEach before (pieces.map render) fun i => ∃ piece ∈ pieces, used piece i := by
  constructor
  · rw [List.forall_mem_map]
    intro piece hmem
    exact (h piece hmem).congr fun i => ((h piece hmem).mentions hnil i).symm
  · intro i
    simp only [List.mem_map, exists_exists_and_eq_and]
    refine exists_congr fun piece => and_congr_right fun hmem => ?_
    exact (h piece hmem).mentions hnil i

/-- Pieces of two rows are followed in order. -/
theorem append (h : UsesEach before texts uses) (hmore : UsesEach before more others) :
    UsesEach before (texts ++ more) fun i => uses i ∨ others i := by
  constructor
  · exact List.forall_mem_append.mpr ⟨h.each, hmore.each⟩
  · intro i
    simp only [List.mem_append, or_and_right, exists_or, h.all i, hmore.all i]

theorem singleton {text : Text} (hnil : before []) (h : Uses before text uses) :
    UsesEach before [text] uses :=
  ⟨by simpa using h.congr fun i => (h.mentions hnil i).symm, by simpa using h.mentions hnil⟩

/-- Pieces that refer to nothing do not do so together. -/
theorem silent (hnil : before []) (h : ∀ text ∈ texts, Silent before text) :
    UsesEach before texts fun _ => False := by
  constructor
  · intro text hmem
    exact (h text hmem).congr fun i => ((h text hmem).mentions hnil i).symm
  · intro i
    simpa using fun text hmem => (h text hmem).mentions hnil i

/-- A separator between neighbours may follow each of the texts. -/
theorem join {separator : String} (hseparator : isPunctuation separator)
    (hbefore : ∀ rest, before (separator.toList ++ rest)) (h : UsesEach before texts uses) :
    Uses before (Text.join separator texts) uses := by
  obtain ⟨heach, hall⟩ := h
  suffices hjoined : Uses before (Text.join separator texts)
      fun i => ∃ text ∈ texts, Mentions text.chars i from hjoined.congr hall
  clear hall
  fun_induction Text.join separator texts with
  | case1 => exact fun rest hrest i => by simp
  | case2 text => exact (heach text List.mem_cons_self).congr (by simp)
  | case3 text rest _ ih =>
    rw [List.forall_mem_cons] at heach
    rw [← chars_ofString] at hbefore
    have htext := heach.1.append (.punctuation hseparator) fun rest _ => hbefore rest
    exact (htext.append (ih heach.2) fun _ _ => trivial).congr (by simp)

/-- Texts with commas between them. -/
theorem commas (h : UsesEach Delimited texts uses) :
    Uses Delimited (Text.join ", " texts) uses :=
  h.join rfl fun _ => delimited_cons rfl _

end UsesEach

namespace Uses

variable {text : Text}

/-! ## Strings -/

/-- A character within a string does not end it, however it is written. -/
theorem afterString_quoteChar (c : Char) (rest : List Char) :
    afterString (quoteChar c ++ rest) = afterString rest := by
  rcases quoteChar_cases c with ⟨heq, hquote, hbackslash, hfeed, -⟩ | ⟨letter, heq, -⟩ |
    ⟨high, hhigh, low, hlow, heq⟩
  · rw [heq]
    exact afterString_cons hquote hbackslash hfeed rest
  · rw [heq]
    rfl
  · obtain ⟨hquote, hbackslash, hfeed, -⟩ := Scan.hexDigit_inert high hhigh
    obtain ⟨hquote', hbackslash', hfeed', -⟩ := Scan.hexDigit_inert low hlow
    have hescape : afterString (quoteChar c ++ rest) =
        afterString (hexDigit high :: hexDigit low :: rest) := by
      rw [heq]
      rfl
    rw [hescape, afterString_cons hquote hbackslash hfeed,
      afterString_cons hquote' hbackslash' hfeed']

theorem afterString_flatMap_quoteChar (content rest : List Char) :
    afterString (content.flatMap quoteChar ++ rest) = afterString rest := by
  induction content with
  | nil => rfl
  | cons c content ih => rw [List.flatMap_cons, List.append_assoc, afterString_quoteChar, ih]

/-- A quoted text refers to nothing, whatever it says. -/
theorem quoted (content : Text) : Silent Delimited content.quoted := by
  intro rest hrest i
  have hchars : content.quoted.chars ++ rest =
      '"' :: (content.chars.flatMap quoteChar ++ '"' :: rest) := by
    simp [chars_quoted, quoteChars]
  have hquote : Stops (· == '"') rest := hrest.stops rfl
  have htwo := Literal.take_two_quoted content.chars (Literal.head?_ne_of_stops hquote rfl)
  rw [hchars, Mentions, referencesIn_string htwo, afterString_flatMap_quoteChar, afterString,
    false_or]
  rfl

theorem quote (content : String) : Silent Delimited (Text.quote content) :=
  quoted_ofString content ▸ .quoted content

/-- A value under a key. -/
theorem entry (key : Text) {uses : Import → Prop} (h : Uses Delimited text uses) :
    Uses Delimited (key.quoted ++ ": " ++ text) uses := by
  have hcolon : Silent Anything ": " := .punctuation rfl
  have hkey := (Uses.quoted key).append hcolon fun rest _ => delimited_cons rfl _
  exact (hkey.append h fun _ _ => trivial).congr (by simp)

/-! ## Documentation strings -/

theorem afterDocstring_quote {rest : List Char} (h : rest.take 2 ≠ ['"', '"']) :
    afterDocstring ('"' :: rest) = afterDocstring rest := by
  rw [afterDocstring]
  · rintro _ _ ⟨⟩
  · rintro more - rfl
    exact h rfl

/-- The rule on the last character looks at no other one. -/
theorem escapeLastQuote_cons {c : Char} {body : List Char} (h : c ≠ '"' ∨ body ≠ []) :
    escapeLastQuote (c :: body) = c :: escapeLastQuote body := by
  cases body with
  | nil =>
    have hc : c ≠ '"' := by simpa using h
    simp [escapeLastQuote, hc]
  | cons d more =>
    simp only [escapeLastQuote, List.getLast?_cons_cons, List.dropLast_cons_cons, List.cons_append]
    split <;> rfl

/-- A character that starts no escape is written as itself or by its number. -/
theorem escapeDoc_cons {c : Char} {text : List Char} (hbackslash : c ≠ '\\')
    (htriple : c ≠ '"' ∨ text.take 2 ≠ ['"', '"']) :
    escapeDoc (c :: text) =
      if isRawControl c then
        '\\' :: 'x' :: hexDigit (c.toNat / 16) :: hexDigit (c.toNat % 16) :: escapeDoc text
      else c :: escapeDoc text := by
  rw [escapeDoc]
  · rintro more rfl rfl
    simp at htriple
  · exact hbackslash

theorem escapeDoc_ne_nil {text : List Char} (h : text ≠ []) : escapeDoc text ≠ [] := by
  fun_cases escapeDoc text
  case case1 => exact absurd rfl h
  all_goals exact List.cons_ne_nil _ _

/-- The body of a documentation string starts with a quote only if its text does. -/
theorem exists_body_cons {c : Char} (hc : c ≠ '"') (text : List Char) :
    ∃ d more, escapeLastQuote (escapeDoc (c :: text)) = d :: more ∧ d ≠ '"' := by
  have hcons : ∃ d more, escapeDoc (c :: text) = d :: more ∧ d ≠ '"' := by
    by_cases hbackslash : c = '\\'
    case pos =>
      subst hbackslash
      exact ⟨_, _, rfl, by simp⟩
    case neg =>
      rw [escapeDoc_cons hbackslash (.inl hc)]
      split
      · exact ⟨_, _, rfl, by simp⟩
      · exact ⟨c, _, rfl, hc⟩
  obtain ⟨d, more, heq, hd⟩ := hcons
  exact ⟨d, escapeLastQuote more, by rw [heq, escapeLastQuote_cons (.inl hd)], hd⟩

/-- The body of a documentation string starts with two quotes only if its text does. -/
theorem take_two_body {text : List Char} (hne : text ≠ []) (htwo : text.take 2 ≠ ['"', '"'])
    (rest : List Char) : (escapeLastQuote (escapeDoc text) ++ rest).take 2 ≠ ['"', '"'] := by
  cases text with
  | nil => exact absurd rfl hne
  | cons c text =>
    by_cases hc : c = '"'
    case neg =>
      obtain ⟨d, more, heq, hd⟩ := exists_body_cons hc text
      simp [heq, hd]
    case pos =>
      subst hc
      cases text with
      | nil => simp [escapeDoc, escapeLastQuote, isRawControl]
      | cons d text =>
        -- The quote stays as it is, and the character after it is no quote.
        have hd : d ≠ '"' := by simpa using htwo
        obtain ⟨e, more, heq, he⟩ := exists_body_cons hd text
        rw [escapeDoc_cons (by simp) (.inr (by simp [hd])), if_neg (by simp [isRawControl]),
          escapeLastQuote_cons (.inr (escapeDoc_ne_nil (List.cons_ne_nil _ _))), heq]
        simp [he]

/-- A documentation string ends with its own quotes, or before the last of them if its text ends
    with three quotes. -/
theorem afterDocstring_body (text rest : List Char) :
    afterDocstring (escapeLastQuote (escapeDoc text) ++ '"' :: '"' :: '"' :: rest) = rest ∨
      afterDocstring (escapeLastQuote (escapeDoc text) ++ '"' :: '"' :: '"' :: rest) =
        '"' :: rest := by
  -- One case for each way a character is escaped. Only three quotes at the very end leave a quote
  -- of their own behind the literal.
  fun_induction escapeDoc text with
  | case1 => exact .inl rfl
  | case2 text ih =>
    by_cases hnil : escapeDoc text = []
    case pos =>
      rw [hnil]
      exact .inr rfl
    case neg =>
      rw [escapeLastQuote_cons (by simp), escapeLastQuote_cons (by simp),
        escapeLastQuote_cons (by simp), escapeLastQuote_cons (by simp),
        escapeLastQuote_cons (by simp), escapeLastQuote_cons (.inr hnil)]
      exact ih
  | case3 text ih =>
    rw [escapeLastQuote_cons (by simp), escapeLastQuote_cons (by simp)]
    exact ih
  | case4 c text htriple hbackslash hcontrol ih =>
    have hsmall := toNat_lt_of_isRawControl hcontrol
    obtain ⟨hhigh, hhigh', -⟩ := Scan.hexDigit_inert (c.toNat / 16) (by omega)
    obtain ⟨hlow, hlow', -⟩ := Scan.hexDigit_inert (c.toNat % 16) (by omega)
    rw [escapeLastQuote_cons (by simp), escapeLastQuote_cons (by simp),
      escapeLastQuote_cons (.inl hhigh), escapeLastQuote_cons (.inl hlow)]
    simp only [List.cons_append, afterDocstring]
    rw [afterDocstring_cons hhigh hhigh', afterDocstring_cons hlow hlow']
    exact ih
  | case5 c text htriple hbackslash hcontrol ih =>
    by_cases hc : c = '"'
    case neg =>
      rw [escapeLastQuote_cons (.inl hc), List.cons_append, afterDocstring_cons hc hbackslash]
      exact ih
    case pos =>
      subst hc
      cases text with
      | nil => exact .inl rfl
      | cons d text =>
        -- Two more quotes would have made this one a triple.
        have htwo : (d :: text).take 2 ≠ ['"', '"'] := by
          intro htwo
          apply htriple ((d :: text).drop 2) rfl
          rw [← List.take_append_drop 2 (d :: text), htwo]
          rfl
        rw [escapeLastQuote_cons (.inr (escapeDoc_ne_nil (List.cons_ne_nil _ _))),
          List.cons_append, afterDocstring_quote (take_two_body (List.cons_ne_nil _ _) htwo _)]
        exact ih

/-- A quote that is left over ends with its line, so nothing after the line is passed over. -/
theorem docstring (text : String) : Silent LineEnd (docstring text) := by
  intro rest hrest i
  have hchars : (Text.ofString (Text.docstring text)).chars ++ rest =
      '"' :: '"' :: '"' ::
        (escapeLastQuote (escapeDoc text.toList) ++ '"' :: '"' :: '"' :: rest) := by
    simp [Text.docstring, docstringChars]
  have hleft : referencesIn ('"' :: rest) = referencesIn rest := by
    cases rest with
    | nil =>
      rw [referencesIn_string (by simp)]
      rfl
    | cons c more =>
      obtain rfl : c = '\n' := hrest c rfl
      rw [referencesIn_string (by simp)]
      rfl
  rw [hchars, Mentions, referencesIn_docstring, false_or, Mentions]
  rcases afterDocstring_body text.toList rest with heq | heq
  · rw [heq]
  · rw [heq, hleft]

/-! ## Numbers -/

/-- Code that starts with a name goes on with a rest that does not. -/
theorem exists_name {c : Char} (h : isNameChar c) (more : List Char) :
    ∃ name back, c :: more = name ++ back ∧ name ≠ [] ∧ (∀ d ∈ name, isNameChar d) ∧
      Stops isNameChar back := by
  refine ⟨(c :: more).takeWhile isNameChar, (c :: more).dropWhile isNameChar,
    List.takeWhile_append_dropWhile.symm, by simp [h], ?_, ?_⟩
  · exact fun d hd => List.mem_takeWhile_imp hd
  · intro d hd
    have hhead := List.head?_dropWhile_not isNameChar (c :: more)
    rw [Option.mem_def.mp hd] at hhead
    exact hhead

/-- A text without blanks and equals signs binds no name before it. -/
theorem unbound_append {back rest : List Char} (hback : ∀ c ∈ back, c ≠ ' ' ∧ c ≠ '=')
    (hstops : Stops isNameChar back) (hrest : Unbound rest) : Unbound (back ++ rest) := by
  cases back with
  | nil => exact hrest
  | cons c more =>
    rw [List.forall_mem_cons] at hback
    exact ⟨hstops, unbinding_cons hback.1.1 hback.1.2 _⟩

/-- Characters of a class that no name of the class library is made of. -/
theorem ofChars {text : String} {p : Char → Bool} (hp : [' ', '"', '='].all (!p ·) = true)
    (hnone : ∀ i : Import, i.text.toList.all p = false) (h : ∀ c ∈ text.toList, p c) :
    Silent Unbound text := by
  have hclass {c : Char} (hc : p c) : c ≠ ' ' ∧ c ≠ '"' ∧ c ≠ '=' := by
    refine ⟨?_, ?_, ?_⟩ <;> rintro rfl <;> simp [hc] at hp
  intro rest hrest i
  rw [false_or, chars_ofString]
  generalize text.toList = chars at h
  -- Each step leaves out one character or one name.
  induction hlength : chars.length using Nat.strong_induction_on generalizing chars with
  | _ length ih =>
    subst hlength
    cases chars with
    | nil => rfl
    | cons c more =>
      by_cases hname : isNameChar c
      case neg =>
        rw [List.forall_mem_cons] at h
        rw [List.cons_append, Mentions,
          referencesIn_skip (Bool.eq_false_iff.mpr hname) (hclass h.1).2.1]
        exact ih more.length (by simp) more h.2 rfl
      case pos =>
        obtain ⟨name, back, hsplit, hne, hchars, hstops⟩ := exists_name hname more
        rw [hsplit, List.forall_mem_append] at h
        have hshorter : back.length < (c :: more).length := by
          rw [hsplit, List.length_append]
          have := List.length_pos_iff.mpr hne
          omega
        have hunbound : Unbound (back ++ rest) :=
          unbound_append (fun d hd => ⟨(hclass (h.2 d hd)).1, (hclass (h.2 d hd)).2.2⟩) hstops hrest
        have hbinding : isBinding (back ++ rest) = false := hunbound.2
        -- The name is made of characters that the class has, and no name of the library is.
        have hother : i.text ≠ String.ofList name := by
          intro heq
          have hall := hnone i
          rw [heq, String.toList_ofList, List.all_eq_true.mpr h.1] at hall
          exact absurd hall (by simp)
        rw [hsplit, List.append_assoc, Mentions, referencesIn_name hne hchars hunbound.1,
          if_neg (by simp [hbinding]), List.mem_cons, or_iff_right hother]
        exact ih back.length hshorter back h.2 rfl

end Uses

end SchemaClasses.Text
