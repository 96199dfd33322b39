import SchemaClasses.Text.Lines

/-!
# Words

The words of a mixed-case text, and its form in lower case with underscores between words.
-/

namespace SchemaClasses.Text

/-! ## Splitting into words -/

/-- Words start at these characters; every character that is neither a letter nor a digit of ASCII
    only separates words. -/
def isWordChar (c : Char) : Bool :=
  c.isUpper || c.isLower || c.isDigit

/-- The word at the front of a text and what follows it. A run of capitals is one word up to the
    capital that starts a word in lower case; digits belong to the word that they follow. -/
def takeWord : List Char → Option (List Char × List Char)
  | [] => none
  | c :: rest =>
    if c.isUpper then
      let capitals := c :: rest.takeWhile Char.isUpper
      let after := rest.dropWhile Char.isUpper
      if (after.head?.any Char.isLower) then
        if capitals.length = 1 then
          let lower := after.takeWhile Char.isLower
          let tail := after.dropWhile Char.isLower
          some (c :: (lower ++ tail.takeWhile Char.isDigit), tail.dropWhile Char.isDigit)
        else
          some (capitals.dropLast, capitals.getLast?.toList ++ after)
      else
        some (capitals ++ after.takeWhile Char.isDigit, after.dropWhile Char.isDigit)
    else if c.isLower then
      let lower := c :: rest.takeWhile Char.isLower
      let after := rest.dropWhile Char.isLower
      some (lower ++ after.takeWhile Char.isDigit, after.dropWhile Char.isDigit)
    else if c.isDigit then
      some (c :: rest.takeWhile Char.isDigit, rest.dropWhile Char.isDigit)
    else
      none

/-- Nothing is lost: the word and the rest make up the text. -/
theorem takeWord_append {text word rest : List Char} (h : takeWord text = some (word, rest)) :
    word ++ rest = text := by
  cases text with
  | nil => simp [takeWord] at h
  | cons c tail =>
    simp only [takeWord] at h
    split at h
    · split at h
      · split at h
        · obtain ⟨rfl, rfl⟩ := by simpa using h
          rename_i hlen
          have hnil : tail.takeWhile Char.isUpper = [] := by simpa using hlen
          have hdrop : tail.dropWhile Char.isUpper = tail := by
            have := List.takeWhile_append_dropWhile (p := Char.isUpper) (l := tail)
            rwa [hnil, List.nil_append] at this
          simp [hdrop]
        -- The last capital is given back to the word after it.
        · obtain ⟨rfl, rfl⟩ := by simpa using h
          have hne : (c :: tail.takeWhile Char.isUpper) ≠ [] := by simp
          rw [List.getLast?_eq_some_getLast hne, ← List.append_assoc, Option.toList_some,
            List.dropLast_concat_getLast hne]
          simp
      · obtain ⟨rfl, rfl⟩ := by simpa using h
        simp
    · split at h
      · obtain ⟨rfl, rfl⟩ := by simpa using h
        simp
      · split at h
        · obtain ⟨rfl, rfl⟩ := by simpa using h
          simp
        · simp at h

theorem takeWord_ne_nil {text word rest : List Char} (h : takeWord text = some (word, rest)) :
    word ≠ [] := by
  cases text with
  | nil => simp [takeWord] at h
  | cons c tail =>
    simp only [takeWord] at h
    split at h
    · split at h
      · split at h
        · obtain ⟨rfl, rfl⟩ := by simpa using h
          simp
        · obtain ⟨rfl, rfl⟩ := by simpa using h
          rename_i hlen
          intro hnil
          apply hlen
          have := congrArg List.length hnil
          simp at this
          simp [this]
      · obtain ⟨rfl, rfl⟩ := by simpa using h
        simp
    · split at h
      · obtain ⟨rfl, rfl⟩ := by simpa using h
        simp
      · split at h
        · obtain ⟨rfl, rfl⟩ := by simpa using h
          simp
        · simp at h

theorem takeWord_length {text word rest : List Char} (h : takeWord text = some (word, rest)) :
    rest.length < text.length := by
  have happ := congrArg List.length (takeWord_append h)
  have hpos := List.length_pos_iff.2 (takeWord_ne_nil h)
  rw [List.length_append] at happ
  omega

/-- The words of a text in order; what stands between them is left out. -/
def words (text : List Char) : List (List Char) :=
  match _taken : takeWord text with
  | some (word, rest) => word :: words rest
  | none =>
    match text with
    | [] => []
    | _ :: rest => words rest
termination_by text.length
decreasing_by
  · exact takeWord_length ‹_›
  · simp

/-! ## Lower case with underscores -/

def leadingUnderscores (text : List Char) : List Char :=
  text.takeWhile (· == '_')

def trailingUnderscores (text : List Char) : List Char :=
  text.reverse.takeWhile (· == '_')

/-- The text between its leading and its trailing underscores. -/
def stripUnderscores (text : List Char) : List Char :=
  ((text.dropWhile (· == '_')).reverse.dropWhile (· == '_')).reverse

/-- The pieces in order with one underscore between neighbours. -/
def joinUnderscore : List (List Char) → List Char
  | [] => []
  | [piece] => piece
  | piece :: rest => piece ++ '_' :: joinUnderscore rest

/-- The words of a text in lower case, joined by underscores, between the underscores that the text
    starts and ends with. A text of underscores alone stays as it is. -/
def snakeChars (text : List Char) : List Char :=
  if stripUnderscores text = [] then text
  else
    leadingUnderscores text
      ++ joinUnderscore ((words (stripUnderscores text)).map (·.map Char.toLower))
      ++ trailingUnderscores text

/-- The words of `text` in lower case, joined by underscores. -/
def snakeCase (text : String) : String :=
  String.ofList (snakeChars text.toList)

end SchemaClasses.Text
