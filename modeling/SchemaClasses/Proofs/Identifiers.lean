import SchemaClasses.Document.Lexer
import SchemaClasses.Text.Identifier
import SchemaClasses.Proofs.Naming
import Mathlib

/-!
# Identifiers

Names of a schema and names of the generated code have one form. Converting a name to lower case,
escaping it and adding underscores to it all keep that form, and none of them ends in a keyword.
-/

namespace SchemaClasses.Text

open Token (isNameStart isNameChar)

/-- Whether these characters are a letter or an underscore, and then letters, digits and
    underscores, all of them ASCII. -/
def isIdentifierChars : List Char → Bool
  | [] => false
  | first :: rest => isNameStart first && rest.all isNameChar

/-- Whether the name has the form of the names of a schema and of the generated code. -/
def isIdentifier (name : String) : Bool :=
  isIdentifierChars name.toList

/-! ## Characters -/

theorem isNameChar_of_isNameStart {c : Char} (h : isNameStart c) : isNameChar c := by
  simp only [isNameStart, isNameChar, Char.isAlphanum, Bool.or_eq_true] at h ⊢
  rcases h with h | h
  · exact .inl (.inl h)
  · exact .inr h

/-- A name character that is no underscore is part of a word. -/
theorem isWordChar_of_isNameChar {c : Char} (h : isNameChar c) (hc : c ≠ '_') : isWordChar c := by
  simpa [isNameChar, isWordChar, Char.isAlphanum, Char.isAlpha, hc] using h

/-- Lower case keeps letters letters. -/
theorem isNameChar_toLower {c : Char} (h : isWordChar c) : isNameChar c.toLower := by
  have h : c.isAlpha ∨ c.isDigit := by simpa [isWordChar, Char.isAlpha] using h
  by_cases halpha : c.isAlpha
  · simp [isNameChar, Char.isAlphanum, halpha]
  · have hupper : ¬ c.isUpper := fun hupper => halpha (by simp [Char.isAlpha, hupper])
    rw [Char.toLower_eq_of_not_isUpper hupper]
    simp [isNameChar, Char.isAlphanum, h.resolve_left halpha]

theorem isIdentifierChars_cons {first : Char} {rest : List Char} :
    isIdentifierChars (first :: rest) ↔ isNameStart first ∧ ∀ c ∈ rest, isNameChar c := by
  simp [isIdentifierChars]

/-- More name characters at the end keep an identifier one. -/
theorem isIdentifierChars_append {name more : List Char} (h : isIdentifierChars name)
    (hmore : ∀ c ∈ more, isNameChar c) : isIdentifierChars (name ++ more) := by
  cases name with
  | nil => simp [isIdentifierChars] at h
  | cons first rest =>
    rw [isIdentifierChars_cons] at h
    rw [List.cons_append, isIdentifierChars_cons]
    refine ⟨h.1, fun c hc => ?_⟩
    rcases List.mem_append.mp hc with hc | hc
    · exact h.2 c hc
    · exact hmore c hc

theorem isIdentifierChars.nameChars {name : List Char} (h : isIdentifierChars name) :
    ∀ c ∈ name, isNameChar c := by
  cases name with
  | nil => simp
  | cons first rest =>
    rw [isIdentifierChars_cons] at h
    intro c hc
    rcases List.mem_cons.mp hc with rfl | hc
    · exact isNameChar_of_isNameStart h.1
    · exact h.2 c hc

theorem isIdentifier.exists_cons {name : String} (h : isIdentifier name) :
    ∃ first rest, name.toList = first :: rest ∧ isNameChar first := by
  cases hname : name.toList with
  | nil => simp [isIdentifier, isIdentifierChars, hname] at h
  | cons first rest =>
    rw [isIdentifier, hname] at h
    exact ⟨first, rest, rfl, isIdentifierChars.nameChars h first List.mem_cons_self⟩

/-! ## Words -/

/-- A run of characters of one class has word characters only, if that class has. -/
private theorem takeWhile_isWordChar {p : Char → Bool} (h : ∀ c, p c → isWordChar c)
    (text : List Char) : ∀ c ∈ text.takeWhile p, isWordChar c :=
  fun c hc => h c (List.all_eq_true.mp List.all_takeWhile c hc)

/-- A word has word characters only. -/
theorem takeWord_isWordChar {text word rest : List Char} (h : takeWord text = some (word, rest)) :
    ∀ c ∈ word, isWordChar c := by
  have hupper : ∀ c : Char, c.isUpper → isWordChar c := fun c hc => by simp [isWordChar, hc]
  have hlower : ∀ c : Char, c.isLower → isWordChar c := fun c hc => by simp [isWordChar, hc]
  have hdigit : ∀ c : Char, c.isDigit → isWordChar c := fun c hc => by simp [isWordChar, hc]
  have huppers := takeWhile_isWordChar hupper
  have hlowers := takeWhile_isWordChar hlower
  have hdigits := takeWhile_isWordChar hdigit
  cases text with
  | nil => simp [takeWord] at h
  | cons first tail =>
    simp only [takeWord] at h
    split at h
    case isTrue hfirst =>
      have hcapitals : ∀ c ∈ first :: tail.takeWhile Char.isUpper, isWordChar c :=
        List.forall_mem_cons.mpr ⟨hupper _ hfirst, huppers _⟩
      -- Before a letter in lower case, the last capital belongs to the next word.
      split at h
      · split at h
        · obtain ⟨rfl, -⟩ := by simpa using h
          simp only [List.forall_mem_cons, List.forall_mem_append]
          exact ⟨hupper _ hfirst, hlowers _, hdigits _⟩
        · obtain ⟨rfl, -⟩ := by simpa using h
          exact fun c hc => hcapitals c (List.dropLast_subset _ hc)
      · obtain ⟨rfl, -⟩ := by simpa using h
        rw [← List.cons_append, List.forall_mem_append]
        exact ⟨hcapitals, hdigits _⟩
    case isFalse =>
      split at h
      case isTrue hfirst =>
        obtain ⟨rfl, -⟩ := by simpa using h
        simp only [List.forall_mem_cons, List.forall_mem_append]
        exact ⟨hlower _ hfirst, hlowers _, hdigits _⟩
      case isFalse =>
        split at h
        case isTrue hfirst =>
          obtain ⟨rfl, -⟩ := by simpa using h
          exact List.forall_mem_cons.mpr ⟨hdigit _ hfirst, hdigits _⟩
        case isFalse => simp at h

/-- A word starts at every word character. -/
theorem takeWord_isSome {first : Char} (h : isWordChar first) (rest : List Char) :
    (takeWord (first :: rest)).isSome := by
  simp only [isWordChar, Bool.or_eq_true] at h
  by_cases hupper : first.isUpper
  · simp only [takeWord, hupper, if_true]
    split
    · split <;> rfl
    · rfl
  · by_cases hlower : first.isLower
    · simp [takeWord, hupper, hlower]
    · have hdigit : first.isDigit := by simpa [hupper, hlower] using h
      simp [takeWord, hupper, hlower, hdigit]

/-- The words of a text have word characters only. -/
theorem words_isWordChar (text : List Char) : ∀ word ∈ words text, ∀ c ∈ word, isWordChar c := by
  fun_induction words text with
  | case1 text word rest htaken ih =>
    intro other hother
    rcases List.mem_cons.mp hother with rfl | hother
    · exact takeWord_isWordChar htaken
    · exact ih other hother
  | case2 => simp
  | case3 first rest _ ih => exact ih

/-- The first word of a text that starts with a word character starts with that character. -/
theorem words_cons {first : Char} (h : isWordChar first) (rest : List Char) :
    ∃ tail more, words (first :: rest) = (first :: tail) :: more := by
  obtain ⟨⟨word, after⟩, htaken⟩ := Option.isSome_iff_exists.mp (takeWord_isSome h rest)
  have happ := takeWord_append htaken
  cases word with
  | nil => exact absurd rfl (takeWord_ne_nil htaken)
  | cons c tail =>
    rw [List.cons_append, List.cons.injEq] at happ
    obtain ⟨rfl, -⟩ := happ
    refine ⟨tail, words after, ?_⟩
    rw [words]
    split
    case h_1 word' rest' htaken' =>
      rw [htaken, Option.some.injEq, Prod.mk.injEq] at htaken'
      rw [htaken'.1, htaken'.2]
    case h_2 hnone => simp [htaken] at hnone

/-! ## Lower case with underscores -/

private theorem isNameChar_underscore {p : List Char} (h : ∀ c ∈ p, (c == '_') = true) :
    ∀ c ∈ p, isNameChar c := by
  intro c hc
  obtain rfl : c = '_' := by simpa using h c hc
  decide

theorem leadingUnderscores_isNameChar (text : List Char) :
    ∀ c ∈ leadingUnderscores text, isNameChar c :=
  isNameChar_underscore fun c hc => List.all_eq_true.mp List.all_takeWhile c hc

theorem trailingUnderscores_isNameChar (text : List Char) :
    ∀ c ∈ trailingUnderscores text, isNameChar c :=
  isNameChar_underscore fun c hc => List.all_eq_true.mp List.all_takeWhile c hc

/-- Underscores between pieces of names are part of names. -/
theorem joinUnderscore_isNameChar {pieces : List (List Char)}
    (h : ∀ piece ∈ pieces, ∀ c ∈ piece, isNameChar c) :
    ∀ c ∈ joinUnderscore pieces, isNameChar c := by
  fun_induction joinUnderscore pieces with
  | case1 => simp
  | case2 piece => exact h piece List.mem_cons_self
  | case3 piece rest _ ih =>
    simp only [List.forall_mem_append, List.forall_mem_cons]
    refine ⟨h piece List.mem_cons_self, by decide, ih fun other hother => ?_⟩
    exact h other (List.mem_cons_of_mem _ hother)

/-- A text between its underscores starts as the whole text does, if that is no underscore. -/
theorem stripUnderscores_cons {first : Char} (h : first ≠ '_') (rest : List Char) :
    ∃ tail, stripUnderscores (first :: rest) = first :: tail := by
  have hfront : (first :: rest).dropWhile (· == '_') = first :: rest :=
    List.dropWhile_cons_of_neg (by simpa using h)
  have hback : [first].dropWhile (· == '_') = [first] :=
    List.dropWhile_cons_of_neg (by simpa using h)
  rw [stripUnderscores, hfront, List.reverse_cons, List.dropWhile_append]
  split
  · exact ⟨[], by rw [hback, List.reverse_singleton]⟩
  · exact ⟨_, by rw [List.reverse_append, List.reverse_singleton, List.singleton_append]⟩

/-- Conversion to lower case keeps identifiers identifiers. -/
theorem isIdentifierChars_snakeChars {text : List Char} (h : isIdentifierChars text) :
    isIdentifierChars (snakeChars text) := by
  cases text with
  | nil => simp [isIdentifierChars] at h
  | cons first rest =>
    rw [isIdentifierChars_cons] at h
    simp only [snakeChars]
    split
    · exact isIdentifierChars_cons.mpr h
    -- All that the parts are made of may follow the first character, so that one is left.
    have hwords : ∀ c ∈ joinUnderscore
        ((words (stripUnderscores (first :: rest))).map (·.map Char.toLower)), isNameChar c := by
      refine joinUnderscore_isNameChar fun piece hpiece c hc => ?_
      obtain ⟨word, hword, rfl⟩ := List.mem_map.mp hpiece
      obtain ⟨d, hd, rfl⟩ := List.mem_map.mp hc
      exact isNameChar_toLower (words_isWordChar _ word hword d hd)
    refine isIdentifierChars_append ?_ (trailingUnderscores_isNameChar _)
    by_cases hfirst : first = '_'
    · -- The leading underscore stays in front.
      subst hfirst
      refine isIdentifierChars_append ?_ hwords
      have hleading := leadingUnderscores_isNameChar ('_' :: rest)
      simp only [leadingUnderscores, beq_self_eq_true, List.takeWhile_cons_of_pos,
        List.forall_mem_cons] at hleading ⊢
      exact isIdentifierChars_cons.mpr ⟨by decide, hleading.2⟩
    · -- The first letter starts the first word, which is in front.
      have halpha : first.isAlpha := by simpa [isNameStart, hfirst] using h.1
      obtain ⟨tail, hstrip⟩ := stripUnderscores_cons hfirst rest
      obtain ⟨word, more, hsplit⟩ := words_cons
        (isWordChar_of_isNameChar (isNameChar_of_isNameStart h.1) hfirst) tail
      have hleading : leadingUnderscores (first :: rest) = [] :=
        List.takeWhile_cons_of_neg (by simpa using hfirst)
      rw [hstrip, hsplit, List.map_cons, List.map_cons] at hwords ⊢
      rw [hleading, List.nil_append]
      cases hmore : more.map (·.map Char.toLower) with
      | nil =>
        rw [hmore] at hwords
        simp only [joinUnderscore, List.forall_mem_cons] at hwords ⊢
        exact isIdentifierChars_cons.mpr ⟨by simp [isNameStart, halpha], hwords.2⟩
      | cons next others =>
        rw [hmore] at hwords
        simp only [joinUnderscore, List.cons_append, List.forall_mem_cons] at hwords ⊢
        exact isIdentifierChars_cons.mpr ⟨by simp [isNameStart, halpha], hwords.2⟩

/-- The form of names survives conversion. -/
theorem isIdentifier_snakeCase {name : String} (h : isIdentifier name) :
    isIdentifier (snakeCase name) := by
  simp only [isIdentifier, snakeCase, String.toList_ofList]
  exact isIdentifierChars_snakeChars h

/-- A text with nothing between its underscores consists of underscores. -/
theorem eq_underscore_of_stripUnderscores {text : List Char} (h : stripUnderscores text = []) :
    ∀ c ∈ text, c = '_' := by
  rw [stripUnderscores, List.reverse_eq_nil_iff, List.dropWhile_eq_nil_iff] at h
  rw [← List.takeWhile_append_dropWhile (p := (· == '_')) (l := text), List.forall_mem_append]
  refine ⟨fun c hc => ?_, fun c hc => ?_⟩
  · simpa using List.mem_takeWhile_imp hc
  · simpa using h c (List.mem_reverse.mpr hc)

/-- Conversion to lower case leaves no capitals. -/
theorem isUpper_snakeChars (text : List Char) : ∀ c ∈ snakeChars text, c.isUpper = false := by
  have hunderscore : Char.isUpper '_' = false := rfl
  have hunderscores {p : List Char} (h : ∀ c ∈ p, c = '_') : ∀ c ∈ p, c.isUpper = false := by
    intro c hc
    rw [h c hc, hunderscore]
  -- The induction is on the words, with the last of them apart since nothing is put after it.
  have hjoined (pieces : List (List Char)) :
      ∀ c ∈ joinUnderscore (pieces.map (·.map Char.toLower)), c.isUpper = false := by
    induction pieces with
    | nil => simp [joinUnderscore]
    | cons piece rest ih =>
      have hpiece : ∀ c ∈ piece.map Char.toLower, c.isUpper = false := by simp
      cases rest with
      | nil => exact hpiece
      | cons next others =>
        exact List.forall_mem_append.mpr ⟨hpiece, List.forall_mem_cons.mpr ⟨hunderscore, ih⟩⟩
  unfold snakeChars
  split
  case isTrue hstrip => exact hunderscores (eq_underscore_of_stripUnderscores hstrip)
  case isFalse =>
    simp only [List.forall_mem_append]
    refine ⟨⟨hunderscores fun c hc => ?_, hjoined _⟩, hunderscores fun c hc => ?_⟩
    · simpa using List.mem_takeWhile_imp hc
    · simpa using List.mem_takeWhile_imp hc

/-! ## Underscores and keywords -/

/-- Underscores can follow every name. -/
theorem isIdentifier_underscored {name : String} (h : isIdentifier name) (count : Nat) :
    isIdentifier (Assignment.underscored name count) := by
  rw [isIdentifier, Assignment.toList_underscored]
  refine isIdentifierChars_append h fun c hc => ?_
  rw [List.eq_of_mem_replicate hc]
  decide

/-- No keyword ends with an underscore. -/
theorem isKeyword_underscored (name : String) {count : Nat} (h : count ≠ 0) :
    isKeyword (Assignment.underscored name count) = false := by
  have hends : ∀ keyword ∈ keywords, keyword.toList.getLast? ≠ some '_' := by decide
  rw [Bool.eq_false_iff]
  intro hkeyword
  exact hends _ (List.contains_iff_mem.mp hkeyword) (Assignment.getLast?_underscored name h)

/-- Escaping adds at most one underscore. -/
theorem escapeKeyword_eq (name : String) :
    escapeKeyword name = Assignment.underscored name (if isKeyword name then 1 else 0) := by
  unfold escapeKeyword
  split
  case isTrue h => rfl
  case isFalse h => exact (Assignment.underscored_zero name).symm

/-- No keyword is another one with an underscore after it. -/
theorem isKeyword_escapeKeyword (name : String) : isKeyword (escapeKeyword name) = false := by
  rw [escapeKeyword_eq]
  split
  case isTrue => exact isKeyword_underscored name (by omega)
  case isFalse h => simpa using h

theorem isIdentifier_escapeKeyword {name : String} (h : isIdentifier name) :
    isIdentifier (escapeKeyword name) := by
  rw [escapeKeyword_eq]
  exact isIdentifier_underscored h _

/-- What a name becomes before it gives way to others is an identifier and no keyword. -/
theorem identifier_usable {name : String} (h : isIdentifier name) (convert : Bool) :
    isIdentifier (identifier name convert) ∧ isKeyword (identifier name convert) = false := by
  refine ⟨isIdentifier_escapeKeyword ?_, isKeyword_escapeKeyword _⟩
  cases convert with
  | false => exact h
  | true => exact isIdentifier_snakeCase h

/-- Giving way to names that are taken keeps a name usable. -/
theorem freshName_usable {name : String} (h : isIdentifier name ∧ isKeyword name = false)
    (taken : List String) :
    isIdentifier (Assignment.freshName taken name) ∧
      isKeyword (Assignment.freshName taken name) = false := by
  obtain ⟨count, heq, -, -⟩ := Assignment.freshName_eq taken name
  rw [heq]
  refine ⟨isIdentifier_underscored h.1 count, ?_⟩
  by_cases hcount : count = 0
  · rw [hcount, Assignment.underscored_zero]
    exact h.2
  · exact isKeyword_underscored name hcount

/-- Names that give way can still be used: no keyword ends with an underscore. -/
theorem freshNamesFrom_usable {names : List String}
    (h : ∀ name ∈ names, isIdentifier name ∧ isKeyword name = false) (taken : List String) :
    ∀ name ∈ Assignment.freshNamesFrom taken names,
      isIdentifier name ∧ isKeyword name = false := by
  induction names generalizing taken with
  | nil => simp [Assignment.freshNamesFrom]
  | cons name rest ih =>
    rw [List.forall_mem_cons] at h
    rw [Assignment.freshNamesFrom, List.forall_mem_cons]
    exact ⟨freshName_usable h.1 taken, ih h.2 _⟩

end SchemaClasses.Text
