import SchemaClasses.Proofs.CamelCase

/-!
# Word boundaries

Where the words of a text part can be told from any two letters or digits in a row and the character
after them. Lower case with underscores is the letters and digits of a text with an underscore at
each of these places, and at no other.
-/

namespace SchemaClasses.Text

/-! ## The rule -/

/-- Whether the second of two letters or digits side by side starts a word, given the character
    after it. -/
def isBoundary (first second : Char) (after : Option Char) : Bool :=
  first.isDigit && second.isAlpha
    || first.isLower && second.isUpper
    || first.isUpper && second.isUpper && after.any Char.isLower

/-- What has been passed of a text: no letter or digit, one as the last character, or one with other
    characters since. -/
inductive Passed
  | nothing
  | beside (last : Char)
  | apart

namespace Passed

/-- Whether an underscore goes in front of a letter or digit. -/
def separates : Passed → Char → Option Char → Bool
  | nothing, _, _ => false
  | beside last, c, after => isBoundary last c after
  | apart, _, _ => true

/-- The same, and then a character that is no letter or digit. -/
def skip : Passed → Passed
  | nothing => nothing
  | beside _ | apart => apart

@[simp] theorem skip_skip (passed : Passed) : passed.skip.skip = passed.skip := by
  cases passed <;> rfl

end Passed

/-- The underscore in front of a letter or digit, where one goes there. -/
def separator (passed : Passed) (c : Char) (after : Option Char) : List Char :=
  if passed.separates c after then ['_'] else []

/-- The letters and digits of a text in lower case, separated by the rule. -/
def spell (passed : Passed) : List Char → List Char
  | [] => []
  | c :: rest =>
    if isWordChar c then
      separator passed c rest.head? ++ c.toLower :: spell (.beside c) rest
    else spell passed.skip rest

@[simp] theorem spell_nil (passed : Passed) : spell passed [] = [] := rfl

/-- A letter or digit is spelled in lower case, after the separator that belongs in front of it. -/
theorem spell_cons {c : Char} (h : isWordChar c) (passed : Passed) (rest : List Char) :
    spell passed (c :: rest) =
      separator passed c rest.head? ++ c.toLower :: spell (.beside c) rest := by
  rw [spell, if_pos h]

/-- What separates words is not spelled. -/
theorem spell_skip {c : Char} (h : isWordChar c = false) (passed : Passed) (rest : List Char) :
    spell passed (c :: rest) = spell passed.skip rest := by
  rw [spell, h]
  rfl

/-! ## Words by the rule -/

/-- The class of a character, which is one of four. -/
inductive Classified (c : Char) : Prop
  | upper (upper : c.isUpper = true) (lower : c.isLower = false) (digit : c.isDigit = false)
  | lower (upper : c.isUpper = false) (lower : c.isLower = true) (digit : c.isDigit = false)
  | digit (upper : c.isUpper = false) (lower : c.isLower = false) (digit : c.isDigit = true)
  | other (upper : c.isUpper = false) (lower : c.isLower = false) (digit : c.isDigit = false)

theorem classified (c : Char) : Classified c := by
  have hupper : c.isUpper = true → c.isLower = false ∧ c.isDigit = false := by
    simp only [Char.isUpper, Char.isLower, Char.isDigit]
    grind
  have hlower : c.isLower = true → c.isDigit = false := by
    simp only [Char.isLower, Char.isDigit]
    grind
  cases hu : c.isUpper with
  | true => exact .upper hu (hupper hu).1 (hupper hu).2
  | false =>
    cases hl : c.isLower with
    | true => exact .lower hu hl (hlower hl)
    | false =>
      cases hd : c.isDigit with
      | true => exact .digit hu hl hd
      | false => exact .other hu hl hd

/-- A word starts with a letter or a digit. -/
theorem isWordChar_of_takeWord {c : Char} {rest : List Char} {taken : List Char × List Char}
    (h : takeWord (c :: rest) = some taken) : isWordChar c := by
  cases classified c with
  | upper hu _ _ => simp [isWordChar, hu]
  | lower _ hl _ => simp [isWordChar, hl]
  | digit _ _ hd => simp [isWordChar, hd]
  | other hu hl hd => simp [takeWord, hu, hl, hd] at h

/-- Digits that start a word make it up. -/
theorem takeWord_digit {c : Char} (h : c.isDigit) (rest : List Char) :
    takeWord (c :: rest) =
      some (c :: rest.takeWhile Char.isDigit, rest.dropWhile Char.isDigit) := by
  cases classified c with
  | digit hu hl _ => simp [takeWord, hu, hl, h]
  | upper _ _ hd | lower _ _ hd | other _ _ hd => simp [hd] at h

/-- Small letters that start a word take digits after them along. -/
theorem takeWord_lower {c : Char} (h : c.isLower) (rest : List Char) :
    takeWord (c :: rest) =
      some (c :: (rest.takeWhile Char.isLower
        ++ (rest.dropWhile Char.isLower).takeWhile Char.isDigit),
        (rest.dropWhile Char.isLower).dropWhile Char.isDigit) := by
  cases classified c with
  | lower hu _ _ => simp [takeWord, hu, h]
  | upper _ hl _ | digit _ hl _ | other _ hl _ => simp [hl] at h

theorem takeWord_singleton {c : Char} (h : isWordChar c) : takeWord [c] = some ([c], []) := by
  cases classified c with
  | upper hu _ _ => simp [takeWord, hu]
  | lower _ hl _ => simp [takeWord_lower hl]
  | digit _ _ hd => simp [takeWord_digit hd]
  | other hu hl hd => simp [isWordChar, hu, hl, hd] at h

/-- A capital before a small letter starts a word, which goes on over the small letter. -/
theorem takeWord_upper_lower {first second : Char} (hfirst : first.isUpper)
    (hsecond : second.isLower) (rest : List Char) :
    takeWord (first :: second :: rest) =
      (takeWord (second :: rest)).map fun (word, after) => (first :: word, after) := by
  have hupper : second.isUpper = false := by simpa using Char.not_isUpper_of_isLower hsecond
  simp [takeWord, hfirst, hupper, hsecond]

/-- A capital goes with a capital after it, unless that one stands before a small letter. -/
theorem takeWord_upper_upper {first second : Char} (hfirst : first.isUpper)
    (hsecond : second.isUpper) (rest : List Char) :
    takeWord (first :: second :: rest) =
      if rest.head?.any Char.isLower then some ([first], second :: rest)
      else (takeWord (second :: rest)).map fun (word, after) => (first :: word, after) := by
  cases hcapitals : rest.takeWhile Char.isUpper with
  | nil =>
    -- The run of capitals ends with the second one, and the next character decides.
    have hdrop : rest.dropWhile Char.isUpper = rest := by
      simpa [hcapitals] using List.takeWhile_append_dropWhile (p := Char.isUpper) (l := rest)
    simp only [takeWord, hfirst, hsecond, hcapitals, hdrop, List.takeWhile_cons_of_pos,
      List.dropWhile_cons_of_pos, if_true]
    split <;> simp
  | cons third capitals =>
    -- The third capital is no small letter, and the run ends in one way with and without the first.
    have hnext : rest.head?.any Char.isLower = false := by
      cases rest with
      | nil => rfl
      | cons c more =>
        have hc : c.isUpper := by
          by_contra hc
          simp [hc] at hcapitals
        simpa using Char.not_isLower_of_isUpper hc
    simp only [takeWord, hfirst, hsecond, hcapitals, hnext, List.takeWhile_cons_of_pos,
      List.dropWhile_cons_of_pos, if_true, Bool.false_eq_true, if_false]
    split <;> simp

/-- A word goes on over the next character if that is a letter or digit and there is no boundary
    before it, and else it ends. -/
theorem takeWord_cons_cons {first : Char} (h : isWordChar first) (second : Char)
    (rest : List Char) :
    takeWord (first :: second :: rest) =
      if isWordChar second && !isBoundary first second rest.head? then
        (takeWord (second :: rest)).map fun (word, after) => (first :: word, after)
      else some ([first], second :: rest) := by
  -- What the pattern takes depends on the classes of the two characters alone, apart from two
  -- capitals, where the one after them decides.
  cases classified first with
  | upper hu hl hd =>
    cases classified second with
    | upper hu' hl' hd' =>
      rw [takeWord_upper_upper hu hu']
      cases hnext : rest.head?.any Char.isLower <;>
        simp [isWordChar, isBoundary, hu, hl, hd, hu', hnext]
    | lower hu' hl' hd' =>
      rw [takeWord_upper_lower hu hl']
      simp [isWordChar, isBoundary, hl, hd, hu', hl']
    | digit hu' hl' hd' =>
      simp [takeWord, isWordChar, isBoundary, hu, hl, hd, hu', hl', hd']
    | other hu' hl' hd' => simp [takeWord, isWordChar, hu, hu', hl', hd']
  | lower hu hl hd =>
    rw [takeWord_lower hl]
    cases classified second with
    | upper hu' hl' hd' => simp [isWordChar, isBoundary, hl, hu', hl', hd']
    | lower hu' hl' hd' =>
      simp [takeWord_lower hl', isWordChar, isBoundary, hu, hd, hu', hl']
    | digit hu' hl' hd' =>
      simp [takeWord_digit hd', isWordChar, isBoundary, hu, hd, hu', hl', hd']
    | other hu' hl' hd' => simp [isWordChar, hu', hl', hd']
  | digit hu hl hd =>
    rw [takeWord_digit hd]
    cases classified second with
    | upper hu' hl' hd' => simp [isBoundary, Char.isAlpha, hd, hu', hd']
    | lower hu' hl' hd' => simp [isBoundary, Char.isAlpha, hd, hl', hd']
    | digit hu' hl' hd' =>
      simp [takeWord_digit hd', isWordChar, isBoundary, Char.isAlpha, hu, hl, hu', hl', hd']
    | other hu' hl' hd' => simp [isWordChar, hu', hl', hd']
  | other hu hl hd => simp [isWordChar, hu, hl, hd] at h

/-! ## Spelling by words -/

/-- At the end of a word it does not matter any more what the last character was. -/
theorem spell_end {last next : Char} {rest : List Char}
    (h : (isWordChar next && !isBoundary last next rest.head?) = false) :
    spell (.beside last) (next :: rest) = spell .apart (next :: rest) := by
  cases hnext : isWordChar next with
  | true =>
    have hboundary : isBoundary last next rest.head? = true := by simpa [hnext] using h
    rw [spell_cons hnext, spell_cons hnext, separator, separator, Passed.separates, hboundary]
    rfl
  | false => rw [spell_skip hnext, spell_skip hnext, Passed.skip, Passed.skip]

/-- A word is spelt without a separator within it. -/
theorem spell_takeWord {c : Char} {rest word after : List Char}
    (h : takeWord (c :: rest) = some (word, after)) (passed : Passed) :
    spell passed (c :: rest) =
      separator passed c rest.head? ++ word.map Char.toLower ++ spell .apart after := by
  -- The word is taken one character at a time, each of them the next to be passed.
  induction rest generalizing c word passed with
  | nil =>
    have hc := isWordChar_of_takeWord h
    rw [takeWord_singleton hc] at h
    cases h
    simp [spell_cons hc]
  | cons next rest ih =>
    have hc := isWordChar_of_takeWord h
    rw [takeWord_cons_cons hc] at h
    split at h
    case isTrue hon =>
      obtain ⟨⟨word', after'⟩, hnext, heq⟩ := Option.map_eq_some_iff.mp h
      cases heq
      have hinside : separator (.beside c) next rest.head? = [] := by
        rw [Bool.and_eq_true, Bool.not_eq_true'] at hon
        simp [separator, Passed.separates, hon.2]
      rw [spell_cons hc, ih hnext, hinside]
      simp
    case isFalse hoff =>
      cases h
      rw [spell_cons hc, spell_end (by simpa using hoff)]
      simp

/-- No word starts with what separates them. -/
theorem words_skip {c : Char} (h : isWordChar c = false) (rest : List Char) :
    words (c :: rest) = words rest := by
  rw [words]
  split
  case h_1 taken =>
    rw [isWordChar_of_takeWord taken] at h
    cases h
  case h_2 => rfl

/-- After other characters, the first letter or digit is separated from what was passed. -/
theorem spell_apart (text : List Char) :
    spell .apart text = if words text = [] then [] else '_' :: spell .nothing text := by
  induction text with
  | nil => simp
  | cons c rest ih =>
    cases hc : isWordChar c with
    | true =>
      obtain ⟨tail, more, hwords⟩ := words_cons hc rest
      rw [hwords, if_neg (by simp), spell_cons hc, spell_cons hc]
      rfl
    | false =>
      rw [words_skip hc, spell_skip hc, spell_skip hc]
      exact ih

theorem joinUnderscore_cons (piece : List Char) (rest : List (List Char)) :
    joinUnderscore (piece :: rest) =
      piece ++ if rest = [] then [] else '_' :: joinUnderscore rest := by
  cases rest <;> simp [joinUnderscore]

/-- The words in lower case, joined by underscores, are what the rule spells. -/
theorem joinUnderscore_words (text : List Char) :
    joinUnderscore ((words text).map (·.map Char.toLower)) = spell .nothing text := by
  fun_induction words text with
  | case1 text word rest htaken ih =>
    cases text with
    | nil => simp [takeWord] at htaken
    | cons c tail =>
      rw [List.map_cons, joinUnderscore_cons, ih, spell_takeWord htaken, spell_apart]
      simp only [List.map_eq_nil_iff]
      rfl
  | case2 => rfl
  | case3 c rest hnone ih =>
    have hc : isWordChar c = false := by
      rw [Bool.eq_false_iff]
      intro hc
      simpa [hnone] using takeWord_isSome hc rest
    rw [ih, spell_skip hc]
    rfl

/-! ## Letters, digits and what is between them -/

/-- `spelt` has the letters and digits of `text` in lower case, and one underscore between two of
    them that follow each other, if other characters stand between them in `text` or there is a
    boundary. It has no underscore anywhere else. -/
structure IsSpelling (text spelt : List Char) : Prop where
  letters : spelt.filter (· ≠ '_') = (text.filter isWordChar).map Char.toLower
  between {front gap after : List Char} {first second : Char} :
    text = front ++ first :: (gap ++ second :: after) → isWordChar first → isWordChar second →
      (∀ c ∈ gap, isWordChar c = false) →
      ∃ left right, spelt = left ++ first.toLower ::
          ((if gap ≠ [] ∨ isBoundary first second after.head? then ['_'] else [])
            ++ second.toLower :: right) ∧
        left.filter (· ≠ '_') = (front.filter isWordChar).map Char.toLower
  start : spelt.head? ≠ some '_'
  finish : spelt.getLast? ≠ some '_'

theorem filter_separator (passed : Passed) (c : Char) (after : Option Char) :
    (separator passed c after).filter (· ≠ '_') = [] := by
  unfold separator
  split <;> simp

/-- But for underscores, the letters and digits of the text are spelled in lower case. -/
theorem filter_spell (passed : Passed) (text : List Char) :
    (spell passed text).filter (· ≠ '_') = (text.filter isWordChar).map Char.toLower := by
  induction text generalizing passed with
  | nil => rfl
  | cons c rest ih =>
    cases hc : isWordChar c with
    | true =>
      rw [spell_cons hc, List.filter_append, filter_separator, List.nil_append,
        List.filter_cons_of_pos (by simpa using ne_underscore_toLower hc),
        List.filter_cons_of_pos hc, List.map_cons, ih]
    | false => rw [spell_skip hc, List.filter_cons_of_neg (by simp [hc]), ih]

/-- Other characters are passed over together. -/
theorem spell_gap {gap : List Char} (h : ∀ c ∈ gap, isWordChar c = false) (passed : Passed)
    (text : List Char) :
    spell passed (gap ++ text) = spell (if gap = [] then passed else passed.skip) text := by
  induction gap generalizing passed with
  | nil => rfl
  | cons c gap ih =>
    rw [List.forall_mem_cons] at h
    rw [List.cons_append, spell_skip h.1, ih h.2]
    split <;> simp

/-- The separator between two letters or digits that follow each other. -/
theorem spell_between {front gap after : List Char} {first second : Char}
    (hfirst : isWordChar first) (hsecond : isWordChar second)
    (hgap : ∀ c ∈ gap, isWordChar c = false) (passed : Passed) :
    ∃ left right, spell passed (front ++ first :: (gap ++ second :: after)) =
        left ++ first.toLower ::
          ((if gap ≠ [] ∨ isBoundary first second after.head? then ['_'] else [])
            ++ second.toLower :: right) ∧
      left.filter (· ≠ '_') = (front.filter isWordChar).map Char.toLower := by
  -- What has been passed before the front stays general, since each letter of it changes that.
  induction front generalizing passed with
  | nil =>
    refine ⟨separator passed first (gap ++ second :: after).head?, spell (.beside second) after,
      ?_, filter_separator ..⟩
    rw [List.nil_append, spell_cons hfirst, spell_gap hgap, spell_cons hsecond]
    -- Without a gap the boundary between the two decides, with one the underscore is sure.
    by_cases hnil : gap = []
    · simp [hnil, separator, Passed.separates]
    · simp [hnil, separator, Passed.separates, Passed.skip]
  | cons c front ih =>
    cases hc : isWordChar c with
    | true =>
      obtain ⟨left, right, hspell, hleft⟩ := ih (.beside c)
      rw [List.cons_append, spell_cons hc, hspell]
      generalize (front ++ first :: (gap ++ second :: after)).head? = next
      refine ⟨separator passed c next ++ c.toLower :: left, right, by simp, ?_⟩
      rw [List.filter_append, filter_separator, List.nil_append,
        List.filter_cons_of_pos (by simpa using ne_underscore_toLower hc),
        List.filter_cons_of_pos hc, List.map_cons, hleft]
    | false =>
      rw [List.cons_append, spell_skip hc, List.filter_cons_of_neg (by simp [hc])]
      exact ih passed.skip

/-- No underscore comes first. -/
theorem head?_spell (text : List Char) : (spell .nothing text).head? ≠ some '_' := by
  induction text with
  | nil => simp
  | cons c rest ih =>
    cases hc : isWordChar c with
    | true => simpa [spell_cons hc, separator, Passed.separates] using ne_underscore_toLower hc
    | false =>
      rw [spell_skip hc]
      exact ih

/-- No underscore comes last. -/
theorem getLast?_spell (passed : Passed) (text : List Char) :
    (spell passed text).getLast? ≠ some '_' := by
  induction text generalizing passed with
  | nil => simp
  | cons c rest ih =>
    cases hc : isWordChar c with
    | true =>
      have hlast := ih (.beside c)
      rw [spell_cons hc, List.getLast?_append_cons, List.getLast?_cons, Ne, Option.some.injEq]
      cases hrest : (spell (.beside c) rest).getLast? with
      | none => exact ne_underscore_toLower hc
      | some last => simpa [hrest] using hlast
    | false =>
      rw [spell_skip hc]
      exact ih _

/-- Every text has the spelling that the rule on boundaries gives. -/
theorem isSpelling_spell (text : List Char) : IsSpelling text (spell .nothing text) where
  letters := filter_spell _ _
  between htext hfirst hsecond hgap := by
    subst htext
    exact spell_between hfirst hsecond hgap .nothing
  start := head?_spell text
  finish := getLast?_spell _ _

/-! ## Underscores at the ends -/

theorem takeWhile_underscore (text : List Char) :
    ∃ count, text.takeWhile (· == '_') = List.replicate count '_' := by
  refine ⟨_, List.eq_replicate_of_mem fun c hc => ?_⟩
  simpa using List.mem_takeWhile_imp hc

theorem head?_dropWhile_underscore (text : List Char) :
    (text.dropWhile (· == '_')).head? ≠ some '_' := by
  intro h
  have hnot := List.head?_dropWhile_not (· == '_') text
  simp [h] at hnot

/-- A text with something between its underscores is that with the underscores on either side. -/
theorem eq_append_stripUnderscores {text : List Char} (h : stripUnderscores text ≠ []) :
    ∃ front back, leadingUnderscores text = List.replicate front '_' ∧
      trailingUnderscores text = List.replicate back '_' ∧
      text = List.replicate front '_' ++ stripUnderscores text ++ List.replicate back '_' := by
  -- The underscores at the end are stripped from what is left after those at the start.
  set rest := text.dropWhile (· == '_') with hrest
  obtain ⟨front, hfront⟩ := takeWhile_underscore text
  obtain ⟨back, hback⟩ := takeWhile_underscore rest.reverse
  have htext : text = List.replicate front '_' ++ rest := by
    rw [← hfront, hrest, List.takeWhile_append_dropWhile]
  have hstrip : rest = stripUnderscores text ++ List.replicate back '_' := by
    have hsplit := List.takeWhile_append_dropWhile (p := (· == '_')) (l := rest.reverse)
    rw [hback] at hsplit
    have hreverse := congrArg List.reverse hsplit
    rw [List.reverse_append, List.reverse_replicate, List.reverse_reverse] at hreverse
    exact hreverse.symm
  refine ⟨front, back, hfront, ?_, ?_⟩
  · -- Not everything after the leading underscores is an underscore, so these play no part.
    have hlength : ¬ (rest.reverse.takeWhile (· == '_')).length = rest.reverse.length := by
      intro hlength
      rw [hback, List.length_replicate, List.length_reverse, hstrip, List.length_append,
        List.length_replicate] at hlength
      exact h (List.eq_nil_of_length_eq_zero (by omega))
    rw [trailingUnderscores, htext, List.reverse_append, List.takeWhile_append, if_neg hlength,
      hback]
  · rw [List.append_assoc, ← hstrip]
    exact htext

theorem getLast?_stripUnderscores (text : List Char) :
    (stripUnderscores text).getLast? ≠ some '_' := by
  rw [stripUnderscores, List.getLast?_reverse]
  exact head?_dropWhile_underscore _

theorem head?_stripUnderscores (text : List Char) :
    (stripUnderscores text).head? ≠ some '_' := by
  intro hhead
  have hfront : stripUnderscores text <+: text.dropWhile (· == '_') := List.rdropWhile_prefix _ _
  obtain ⟨more, hmore⟩ := hfront
  apply head?_dropWhile_underscore text
  rw [← hmore, List.head?_append, hhead]
  rfl

/-! ## Lower case with underscores -/

/-- Lower case with underscores follows the rule. A text of underscores alone stays as it is. Of any
    other, the underscores at both ends stay and what is between them is spelt. -/
theorem snakeCase_boundaries (text : String) :
    (∀ c ∈ text.toList, c = '_') ∧ snakeCase text = text ∨
      ∃ (front back : Nat) (core : List Char),
        text.toList = List.replicate front '_' ++ core ++ List.replicate back '_' ∧
        core ≠ [] ∧ core.head? ≠ some '_' ∧ core.getLast? ≠ some '_' ∧
        (snakeCase text).toList =
          List.replicate front '_' ++ spell .nothing core ++ List.replicate back '_' ∧
        IsSpelling core (spell .nothing core) := by
  by_cases hstrip : stripUnderscores text.toList = []
  · have hsame : snakeCase text = text := by
      rw [snakeCase, snakeChars, if_pos hstrip, String.ofList_toList]
    exact .inl ⟨eq_underscore_of_stripUnderscores hstrip, hsame⟩
  · obtain ⟨front, back, hfront, hback, htext⟩ := eq_append_stripUnderscores hstrip
    refine .inr ⟨front, back, _, htext, hstrip, head?_stripUnderscores _,
      getLast?_stripUnderscores _, ?_, isSpelling_spell _⟩
    rw [snakeCase, String.toList_ofList, snakeChars, if_neg hstrip, hfront, hback,
      joinUnderscore_words]

/-- Runs of capitals, digits and other characters within one text. -/
example : snakeCase "_getHTTPResponse2Go-é9__" = "_get_http_response2_go_9__" := by
  cbv

end SchemaClasses.Text
