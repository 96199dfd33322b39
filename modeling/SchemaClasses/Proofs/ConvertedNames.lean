import SchemaClasses.Proofs.WordBoundaries

/-!
# Converted names

The texts that conversion to lower case leaves as they are, told by their characters alone. Whatever
is converted becomes one of them, so converting it again changes nothing. The underscores that
keywords get keep the form, too.
-/

namespace SchemaClasses.Text

/-! ## The form -/

/-- A small letter, a digit or an underscore. -/
def isConvertedChar (c : Char) : Bool :=
  c.isLower || c.isDigit || c == '_'

/-- Whether a character may stand right after another one inside a converted text: no underscore
    after an underscore, and no letter after a digit. -/
def mayFollow (first second : Char) : Bool :=
  !(first == '_' && second == '_') && !(first.isDigit && second.isLower)

/-- The text has small letters, digits and underscores only. Between the underscores at its ends,
    each character may follow the one before it. -/
structure IsConverted (text : List Char) : Prop where
  chars : ∀ c ∈ text, isConvertedChar c
  adjacent : (stripUnderscores text).IsChain (mayFollow · ·)

/-! ## Characters -/

theorem isWordChar_of_isConvertedChar {c : Char} (h : isConvertedChar c) (hc : c ≠ '_') :
    isWordChar c := by
  have h : c.isLower ∨ c.isDigit := by simpa [isConvertedChar, hc] using h
  rcases h with h | h <;> simp [isWordChar, h]

theorem isUpper_of_isConvertedChar {c : Char} (h : isConvertedChar c) : c.isUpper = false := by
  cases classified c with
  | upper _ hl hd =>
    obtain rfl : c = '_' := by simpa [isConvertedChar, hl, hd] using h
    rfl
  | lower hu _ _ | digit hu _ _ | other hu _ _ => exact hu

theorem toLower_of_isConvertedChar {c : Char} (h : isConvertedChar c) : c.toLower = c :=
  Char.toLower_eq_of_not_isUpper (by simp [isUpper_of_isConvertedChar h])

theorem isDigit_toLower (c : Char) : c.toLower.isDigit = c.isDigit := by
  cases classified c with
  | upper hu _ hd =>
    -- A capital becomes a small letter, which is no digit.
    have hlower : c.toLower.isLower := by simp [Char.isAlpha, hu]
    cases classified c.toLower with
    | digit _ hl _ => simp [hl] at hlower
    | upper _ _ hd' | lower _ _ hd' | other _ _ hd' => rw [hd, hd']
  | lower hu _ _ | digit hu _ _ | other hu _ _ =>
    rw [Char.toLower_eq_of_not_isUpper (by simp [hu])]

theorem isConvertedChar_toLower {c : Char} (h : isWordChar c) : isConvertedChar c.toLower := by
  have hclass : c.isAlpha ∨ c.isDigit := by simpa [isWordChar, Char.isAlpha] using h
  rw [isConvertedChar, Char.isLower_toLower_eq_isAlpha, isDigit_toLower]
  rcases hclass with h | h <;> simp [h]

theorem isConvertedChar_replicate (count : Nat) :
    ∀ c ∈ List.replicate count '_', isConvertedChar c := by
  intro c hc
  rw [List.eq_of_mem_replicate hc]
  rfl

/-! ## A text of this form is spelt as it is -/

theorem getLast?_ne_of_cons {c last : Char} {rest : List Char}
    (h : (c :: rest).getLast? ≠ some last) : rest.getLast? ≠ some last := by
  intro hlast
  rw [List.getLast?_cons, hlast] at h
  exact h rfl

/-- A small letter or digit is written as it is. -/
theorem spell_convertedChar {c : Char} (h : isConvertedChar c) (hc : c ≠ '_') (passed : Passed)
    (rest : List Char) :
    spell passed (c :: rest) = separator passed c rest.head? ++ c :: spell (.beside c) rest := by
  rw [spell_cons (isWordChar_of_isConvertedChar h hc), toLower_of_isConvertedChar h]

/-- There is no boundary before a character that may follow. -/
theorem separator_beside {last c : Char} (hc : isConvertedChar c) (h : mayFollow last c)
    (after : Option Char) : separator (.beside last) c after = [] := by
  have hupper := isUpper_of_isConvertedChar hc
  have hdigit : (last.isDigit && c.isLower) = false := by
    simp only [mayFollow, Bool.and_eq_true, Bool.not_eq_true'] at h
    exact h.2
  simp [separator, Passed.separates, isBoundary, Char.isAlpha, hupper, hdigit]

/-- A converted text is spelled as it is, from any place in it on. -/
theorem spell_beside {last : Char} {text : List Char} (hchars : ∀ c ∈ text, isConvertedChar c)
    (hadjacent : (last :: text).IsChain (mayFollow · ·)) (hfinish : text.getLast? ≠ some '_') :
    spell (.beside last) text = text := by
  -- An underscore is written with the letter or digit after it, so the induction takes both.
  induction text using List.twoStepInduction generalizing last with
  | nil => rfl
  | singleton c =>
    rw [List.forall_mem_singleton] at hchars
    rw [List.isChain_cons_cons] at hadjacent
    have hc : c ≠ '_' := by simpa using hfinish
    rw [spell_convertedChar hchars hc, separator_beside hchars hadjacent.1]
    rfl
  | cons_cons c next rest ih ihnext =>
    rw [List.forall_mem_cons] at hchars
    rw [List.isChain_cons_cons] at hadjacent
    rw [List.getLast?_cons_cons] at hfinish
    by_cases hc : c = '_'
    · subst hc
      obtain ⟨hchar, hrestChars⟩ := List.forall_mem_cons.mp hchars.2
      obtain ⟨hfollows, hrest⟩ := List.isChain_cons_cons.mp hadjacent.2
      have hnext : next ≠ '_' := by rintro rfl; simp [mayFollow] at hfollows
      calc spell (.beside last) ('_' :: next :: rest)
        _ = spell .apart (next :: rest) := spell_skip rfl _ _
        _ = '_' :: next :: spell (.beside next) rest := spell_convertedChar hchar hnext _ _
        _ = '_' :: next :: rest := by rw [ih hrestChars hrest (getLast?_ne_of_cons hfinish)]
    · rw [spell_convertedChar hchars.1 hc, separator_beside hchars.1 hadjacent.1,
        ihnext next hchars.2 hadjacent.2 hfinish]
      rfl

/-- A converted text that has no underscores at its ends is its own spelling. -/
theorem spell_of_converted {text : List Char} (hchars : ∀ c ∈ text, isConvertedChar c)
    (hadjacent : text.IsChain (mayFollow · ·)) (hstart : text.head? ≠ some '_')
    (hfinish : text.getLast? ≠ some '_') : spell .nothing text = text := by
  cases text with
  | nil => rfl
  | cons c rest =>
    rw [List.forall_mem_cons] at hchars
    have hc : c ≠ '_' := by simpa using hstart
    rw [spell_convertedChar hchars.1 hc,
      spell_beside hchars.2 hadjacent (getLast?_ne_of_cons hfinish)]
    rfl

/-! ## What is spelt has the form -/

/-- Only converted characters are spelled. -/
theorem isConvertedChar_spell (passed : Passed) (text : List Char) :
    ∀ c ∈ spell passed text, isConvertedChar c := by
  intro c hc
  by_cases hunderscore : c = '_'
  · subst hunderscore
    rfl
  · -- All other characters are letters and digits of the text in lower case.
    have hmem : c ∈ (spell passed text).filter (· ≠ '_') :=
      List.mem_filter.mpr ⟨hc, by simpa using hunderscore⟩
    rw [filter_spell] at hmem
    obtain ⟨d, hd, rfl⟩ := List.mem_map.mp hmem
    exact isConvertedChar_toLower (List.mem_filter.mp hd).2

theorem mayFollow_underscore {c : Char} (h : isWordChar c) :
    mayFollow c.toLower '_' ∧ mayFollow '_' c.toLower := by
  have hne := ne_underscore_toLower h
  have hdigit : Char.isDigit '_' = false := rfl
  have hlower : Char.isLower '_' = false := rfl
  simp [mayFollow, hne, hdigit, hlower]

/-- Where no boundary is, the second of two letters or digits may follow the first. -/
theorem mayFollow_toLower {first second : Char} {after : Option Char} (hfirst : isWordChar first)
    (h : isBoundary first second after = false) : mayFollow first.toLower second.toLower := by
  have hdigit : (first.isDigit && second.isAlpha) = false := by
    simp only [isBoundary, Bool.or_eq_false_iff] at h
    exact h.1.1
  simp [mayFollow, ne_underscore_toLower hfirst, isDigit_toLower, hdigit]

/-- Whatever is spelt after a letter or digit, beside it or apart from it, may stand there. -/
theorem isChain_spell {c : Char} (hc : isWordChar c) {passed : Passed}
    (hpassed : passed = .beside c ∨ passed = .apart) (text : List Char) :
    (c.toLower :: spell passed text).IsChain (mayFollow · ·) := by
  -- The last character written stays general, and so does whether a gap has followed it.
  induction text generalizing c passed with
  | nil => exact List.isChain_singleton _
  | cons next rest ih =>
    cases hnext : isWordChar next with
    | true =>
      have hrest := ih hnext (.inl rfl)
      have hbetween := mayFollow_underscore hc
      rw [spell_cons hnext, separator]
      split
      case isTrue =>
        exact List.isChain_cons_cons.mpr ⟨hbetween.1,
          List.isChain_cons_cons.mpr ⟨(mayFollow_underscore hnext).2, hrest⟩⟩
      case isFalse hnone =>
        rcases hpassed with rfl | rfl
        · have hboundary : isBoundary c next rest.head? = false := by
            simpa [Passed.separates] using hnone
          exact List.isChain_cons_cons.mpr ⟨mayFollow_toLower hc hboundary, hrest⟩
        · exact absurd rfl hnone
    | false =>
      have hskip : passed.skip = .apart := by rcases hpassed with rfl | rfl <;> rfl
      rw [spell_skip hnext, hskip]
      exact ih hc (.inr rfl)

/-- In a spelling no two underscores stand side by side, and no letter follows a digit. -/
theorem isChain_spell_nothing (text : List Char) :
    (spell .nothing text).IsChain (mayFollow · ·) := by
  induction text with
  | nil => exact List.isChain_nil
  | cons c rest ih =>
    cases hc : isWordChar c with
    | true =>
      rw [spell_cons hc]
      exact isChain_spell hc (.inl rfl) rest
    | false =>
      rw [spell_skip hc]
      exact ih

/-! ## Underscores at the ends -/

theorem dropWhile_underscores {text : List Char} (h : text.head? ≠ some '_') (count : Nat) :
    (List.replicate count '_' ++ text).dropWhile (· == '_') = text := by
  rw [List.dropWhile_append_of_pos (by simp)]
  cases text with
  | nil => rfl
  | cons c rest => exact List.dropWhile_cons_of_neg (by simpa using h)

/-- Underscores at the ends of a text that has none there are found again. -/
theorem stripUnderscores_append {core : List Char} (hstart : core.head? ≠ some '_')
    (hfinish : core.getLast? ≠ some '_') (front back : Nat) :
    stripUnderscores (List.replicate front '_' ++ core ++ List.replicate back '_') = core := by
  by_cases hcore : core = []
  · subst hcore
    simp [stripUnderscores]
  · have hhead : (core ++ List.replicate back '_').head? ≠ some '_' := by
      rwa [List.head?_append_of_ne_nil _ hcore]
    have hlast : core.reverse.head? ≠ some '_' := by rwa [List.head?_reverse]
    rw [stripUnderscores, List.append_assoc, dropWhile_underscores hhead, List.reverse_append,
      List.reverse_replicate, dropWhile_underscores hlast, List.reverse_reverse]

/-- More underscores at the end of a text do not change what is between those at its ends. -/
theorem stripUnderscores_append_replicate (text : List Char) (count : Nat) :
    stripUnderscores (text ++ List.replicate count '_') = stripUnderscores text := by
  by_cases hstrip : stripUnderscores text = []
  · have htext : text = List.replicate text.length '_' :=
      List.eq_replicate_of_mem (eq_underscore_of_stripUnderscores hstrip)
    have hall := @stripUnderscores_append [] (by simp) (by simp) text.length count
    rwa [List.append_nil, ← htext, ← hstrip] at hall
  · obtain ⟨front, back, -, -, htext⟩ := eq_append_stripUnderscores hstrip
    have hlonger : text ++ List.replicate count '_' =
        List.replicate front '_' ++ stripUnderscores text ++ List.replicate (back + count) '_' := by
      conv_lhs => rw [htext]
      rw [List.append_assoc, List.replicate_append_replicate]
    rw [hlonger]
    exact stripUnderscores_append (head?_stripUnderscores text) (getLast?_stripUnderscores text) _ _

/-- A converted text stays one with underscores after it. -/
theorem IsConverted.append_replicate {text : List Char} (h : IsConverted text) (count : Nat) :
    IsConverted (text ++ List.replicate count '_') where
  chars := by
    rw [List.forall_mem_append]
    exact ⟨h.chars, isConvertedChar_replicate count⟩
  adjacent := by
    rw [stripUnderscores_append_replicate]
    exact h.adjacent

/-! ## Conversion -/

/-- A text is all underscores and stays, or it is spelt between the underscores at its ends. -/
theorem snakeChars_cases (text : List Char) :
    stripUnderscores text = [] ∧ snakeChars text = text ∨
      ∃ front back, text =
          List.replicate front '_' ++ stripUnderscores text ++ List.replicate back '_' ∧
        snakeChars text = List.replicate front '_' ++ spell .nothing (stripUnderscores text)
          ++ List.replicate back '_' := by
  by_cases hstrip : stripUnderscores text = []
  · exact .inl ⟨hstrip, by rw [snakeChars, if_pos hstrip]⟩
  · obtain ⟨front, back, hfront, hback, htext⟩ := eq_append_stripUnderscores hstrip
    refine .inr ⟨front, back, htext, ?_⟩
    rw [snakeChars, if_neg hstrip, hfront, hback, joinUnderscore_words]

/-- Conversion gives a converted text. -/
theorem isConverted_snakeChars (text : List Char) : IsConverted (snakeChars text) := by
  rcases snakeChars_cases text with ⟨hstrip, hsame⟩ | ⟨front, back, -, hspelt⟩
  · rw [hsame]
    refine ⟨fun c hc => ?_, hstrip ▸ List.isChain_nil⟩
    rw [eq_underscore_of_stripUnderscores hstrip c hc]
    rfl
  · rw [hspelt]
    constructor
    case chars =>
      simp only [List.forall_mem_append]
      exact ⟨⟨isConvertedChar_replicate front, isConvertedChar_spell _ _⟩,
        isConvertedChar_replicate back⟩
    case adjacent =>
      rw [stripUnderscores_append (head?_spell _) (getLast?_spell _ _)]
      exact isChain_spell_nothing _

/-- Conversion leaves a converted text as it is. -/
theorem snakeChars_of_isConverted {text : List Char} (h : IsConverted text) :
    snakeChars text = text := by
  rcases snakeChars_cases text with ⟨-, hsame⟩ | ⟨front, back, htext, hspelt⟩
  · exact hsame
  · have hchars : ∀ c ∈ stripUnderscores text, isConvertedChar c := by
      intro c hc
      refine h.chars c ?_
      rw [htext]
      exact List.mem_append_left _ (List.mem_append_right _ hc)
    rw [hspelt, spell_of_converted hchars h.adjacent (head?_stripUnderscores text)
      (getLast?_stripUnderscores text), ← htext]

/-- Conversion leaves a text as it is if and only if the text has the form of converted ones. -/
theorem snakeCase_eq_self_iff (text : String) :
    snakeCase text = text ↔ IsConverted text.toList := by
  constructor
  · intro hsame
    rw [← hsame, snakeCase, String.toList_ofList]
    exact isConverted_snakeChars _
  · intro h
    rw [snakeCase, snakeChars_of_isConverted h, String.ofList_toList]

theorem isConverted_snakeCase (text : String) : IsConverted (snakeCase text).toList := by
  rw [snakeCase, String.toList_ofList]
  exact isConverted_snakeChars _

/-! ## Identifiers -/

/-- The underscore after a keyword keeps a text converted. -/
theorem isConverted_escapeKeyword {name : String} (h : IsConverted name.toList) :
    IsConverted (escapeKeyword name).toList := by
  rw [escapeKeyword_eq, Assignment.toList_underscored]
  exact h.append_replicate _

/-- Every name of the generated code is converted if the settings ask for it. -/
theorem isConverted_identifier (name : String) : IsConverted (identifier name true).toList :=
  isConverted_escapeKeyword (isConverted_snakeCase name)

/-- A name is its own identifier if and only if it is no keyword and, where names are converted, has
    the form of converted ones. -/
theorem identifier_eq_self_iff (name : String) (convert : Bool) :
    identifier name convert = name ↔
      isKeyword name = false ∧ (convert = true → IsConverted name.toList) := by
  constructor
  · intro hsame
    refine ⟨?_, ?_⟩
    · rw [← hsame]
      exact isKeyword_escapeKeyword _
    · rintro rfl
      rw [← hsame]
      exact isConverted_identifier name
  · rintro ⟨hkeyword, hconverted⟩
    have hname : (if convert then snakeCase name else name) = name := by
      split
      case isTrue hconvert => exact (snakeCase_eq_self_iff name).mpr (hconverted hconvert)
      case isFalse => rfl
    rw [identifier, hname, escapeKeyword, hkeyword]
    rfl

/-- Names that are converted or escaped are never altered again. A second conversion changes
    nothing, for the texts that conversion leaves as they are have one form and all results have it.
    Identifiers stay as they are under the same setting, and under both settings if they have been
    converted. -/
theorem identifier_settled (text : String) :
    snakeCase (snakeCase text) = snakeCase text ∧
      (snakeCase text = text ↔ IsConverted text.toList) ∧
      (∀ convert, identifier (identifier text convert) convert = identifier text convert) ∧
      identifier (identifier text true) false = identifier text true ∧
      ∀ convert, identifier text convert = text ↔
        isKeyword text = false ∧ (convert = true → IsConverted text.toList) := by
  have hkeyword (convert : Bool) : isKeyword (identifier text convert) = false :=
    isKeyword_escapeKeyword _
  refine ⟨(snakeCase_eq_self_iff _).mpr (isConverted_snakeCase text), snakeCase_eq_self_iff text,
    fun convert => ?_, ?_, identifier_eq_self_iff text⟩
  · refine (identifier_eq_self_iff _ _).mpr ⟨hkeyword convert, ?_⟩
    rintro rfl
    exact isConverted_identifier text
  · exact (identifier_eq_self_iff _ _).mpr ⟨hkeyword true, by simp⟩

/-- Digits stay with the word before them, also the second time. -/
example : snakeCase (snakeCase "_getHTTP2Go_") = "_get_http2_go_" := by
  cbv

end SchemaClasses.Text
