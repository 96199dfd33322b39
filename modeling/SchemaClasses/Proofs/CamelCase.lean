import SchemaClasses.Proofs.Identifiers

/-!
# Camel case

The class library turns a bound name into camel case where its call says nothing of the name in the
schema. A name of letters and digits comes back from lower case with underscores exactly if its
first word is in lower case and all others are capitalised.
-/

namespace SchemaClasses.Text

/-! ## Camel case -/

/-- The first character in upper case, all others in lower case. -/
def capitalise : List Char → List Char
  | [] => []
  | c :: rest => c.toUpper :: rest.map Char.toLower

/-- What a piece after an underscore becomes; an empty one keeps the underscore. -/
def camelPiece (piece : List Char) : List Char :=
  if piece.isEmpty then ['_'] else capitalise piece

/-- The pieces between underscores, all but the first of them capitalised. -/
def camelChars (text : List Char) : List Char :=
  match text.splitOn '_' with
  | [] => []
  | first :: later => first ++ later.flatMap camelPiece

/-- The text in camel case. -/
def camelCase (text : String) : String :=
  String.ofList (camelChars text.toList)

/-- Whether the words of a text are those of camel case: the first in lower case, all others
    capitalised. -/
def hasCamelWords (text : List Char) : Bool :=
  match words text with
  | [] => true
  | first :: later =>
    first.map Char.toLower = first &&
      later.all fun word => capitalise (word.map Char.toLower) = word

/-! ## Lengths -/

theorem length_capitalise (word : List Char) : (capitalise word).length = word.length := by
  cases word <;> simp [capitalise]

/-- Converting words one by one changes nothing exactly if no word changes, since no conversion
    changes a length. -/
theorem flatMap_eq_flatten_iff {f : List Char → List Char}
    (hlength : ∀ word, (f word).length = word.length) (words : List (List Char)) :
    words.flatMap f = words.flatten ↔ ∀ word ∈ words, f word = word := by
  induction words with
  | nil => simp
  | cons word rest ih =>
    rw [List.flatMap_cons, List.flatten_cons, List.forall_mem_cons, ← ih]
    constructor
    · intro h
      exact List.append_inj h (hlength word)
    · rintro ⟨hword, hrest⟩
      rw [hword, hrest]

/-! ## Words of letters and digits -/

/-- If nothing separates words, they make up the text. -/
theorem words_flatten {text : List Char} (h : ∀ c ∈ text, isWordChar c) :
    (words text).flatten = text := by
  fun_induction words text with
  | case1 text word rest htaken ih =>
    rw [← takeWord_append htaken] at h ⊢
    rw [List.flatten_cons, ih fun c hc => h c (List.mem_append_right _ hc)]
  | case2 => rfl
  | case3 first rest hnone _ =>
    have hsome := takeWord_isSome (h first List.mem_cons_self) rest
    rw [hnone] at hsome
    cases hsome

theorem words_ne_nil (text : List Char) : ∀ word ∈ words text, word ≠ [] := by
  fun_induction words text with
  | case1 text word rest htaken ih =>
    exact List.forall_mem_cons.mpr ⟨takeWord_ne_nil htaken, ih⟩
  | case2 => simp
  | case3 first rest _ ih => exact ih

theorem ne_underscore_of_isWordChar {c : Char} (h : isWordChar c) : c ≠ '_' := by
  rintro rfl
  cases h

theorem ne_underscore_toLower {c : Char} (h : isWordChar c) : c.toLower ≠ '_' := by
  by_cases hupper : c.isUpper
  · have halpha : c.toLower.isAlpha := by simp [Char.isAlpha, hupper]
    intro hlower
    rw [hlower] at halpha
    cases halpha
  · rw [Char.toLower_eq_of_not_isUpper hupper]
    exact ne_underscore_of_isWordChar h

@[simp] theorem words_nil : words [] = [] := by
  rw [words]
  rfl

/-- There is nothing to strip from letters and digits. -/
theorem snakeChars_of_isWordChar {text : List Char} (h : ∀ c ∈ text, isWordChar c) :
    snakeChars text = joinUnderscore ((words text).map (·.map Char.toLower)) := by
  have hdrop : ∀ text : List Char, (∀ c ∈ text, isWordChar c) →
      text.dropWhile (· == '_') = text ∧ text.takeWhile (· == '_') = [] := by
    intro text h
    cases text with
    | nil => simp
    | cons c rest =>
      have hc := ne_underscore_of_isWordChar (h c List.mem_cons_self)
      simp [hc]
  have hreverse : ∀ c ∈ text.reverse, isWordChar c := fun c hc => h c (List.mem_reverse.mp hc)
  have hstrip : stripUnderscores text = text := by
    rw [stripUnderscores, (hdrop text h).1, (hdrop _ hreverse).1, List.reverse_reverse]
  rw [snakeChars, hstrip]
  split
  next hempty => rw [hempty, words_nil]; rfl
  next =>
    rw [leadingUnderscores, trailingUnderscores, (hdrop text h).2, (hdrop _ hreverse).2,
      List.nil_append, List.append_nil]

theorem joinUnderscore_eq_intercalate (pieces : List (List Char)) :
    joinUnderscore pieces = ['_'].intercalate pieces := by
  induction pieces with
  | nil => rfl
  | cons piece rest ih =>
    cases rest with
    | nil => simp [joinUnderscore, List.intercalate]
    | cons next more =>
      rw [joinUnderscore, ih]
      simp [List.intercalate]
      simp

/-- Camel case puts the pieces together again. -/
theorem camelChars_joinUnderscore {first : List Char} {later : List (List Char)}
    (h : ∀ piece ∈ first :: later, '_' ∉ piece) :
    camelChars (joinUnderscore (first :: later)) = first ++ later.flatMap camelPiece := by
  rw [camelChars, joinUnderscore_eq_intercalate, List.splitOn_intercalate '_' h (by simp)]

/-- A text of letters and digits is restored exactly if its words are those of camel case. -/
theorem camelChars_snakeChars {text : List Char} (h : ∀ c ∈ text, isWordChar c) :
    camelChars (snakeChars text) = text ↔ hasCamelWords text := by
  rw [snakeChars_of_isWordChar h, hasCamelWords]
  have htext := words_flatten h
  have hwords := words_isWordChar text
  cases hcases : words text with
  | nil =>
    rw [hcases] at htext
    rw [← htext]
    simp [joinUnderscore, camelChars]
  | cons first later =>
    rw [hcases] at htext hwords
    -- The pieces have no underscores, so splitting at these finds the words again.
    have hpieces : ∀ piece ∈ first.map Char.toLower :: later.map (·.map Char.toLower),
        '_' ∉ piece := by
      intro piece hpiece hmem
      obtain ⟨word, hword, rfl⟩ : ∃ word ∈ first :: later, word.map Char.toLower = piece :=
        List.mem_map.mp hpiece
      obtain ⟨c, hc, hlower⟩ := List.mem_map.mp hmem
      exact ne_underscore_toLower (hwords word hword c hc) hlower
    -- No word is empty, so each of them is capitalised.
    have hlater : (later.map (·.map Char.toLower)).flatMap camelPiece =
        later.flatMap fun word => capitalise (word.map Char.toLower) := by
      rw [List.flatMap_map]
      refine List.flatMap_congr fun word hword => ?_
      have hne := words_ne_nil text word (by rw [hcases]; exact List.mem_cons_of_mem _ hword)
      simp only [camelPiece, List.isEmpty_iff, List.map_eq_nil_iff, if_neg hne]
    rw [List.map_cons, camelChars_joinUnderscore hpieces, hlater, ← htext, List.flatten_cons]
    simp only [Bool.and_eq_true, decide_eq_true_eq, List.all_eq_true]
    rw [← flatMap_eq_flatten_iff fun word => by rw [length_capitalise, List.length_map]]
    constructor
    · intro heq
      exact List.append_inj heq (List.length_map ..)
    · rintro ⟨hfirst, hrest⟩
      rw [hfirst, hrest]

/-- A name in camel case comes back from lower case with underscores. -/
theorem camelCase_snakeCase {name : String} (h : ∀ c ∈ name.toList, isWordChar c) :
    camelCase (snakeCase name) = name ↔ hasCamelWords name.toList := by
  rw [← camelChars_snakeChars h, camelCase, snakeCase, String.toList_ofList, ← String.toList_inj,
    String.toList_ofList]

end SchemaClasses.Text
