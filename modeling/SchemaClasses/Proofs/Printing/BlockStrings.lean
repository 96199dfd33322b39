import SchemaClasses.Document.Layout
import SchemaClasses.Document.Lexer
import SchemaClasses.Proofs.SourceText

/-!
# Block strings that are read back

A text between triple quotes is read line by line, and what its lines share of indentation is
dropped. So a text whose first and last lines are not blank is read back from between triple quotes,
however far its lines are indented there.
-/

namespace SchemaClasses.BlockString

open Token (readBlockString)

/-! ## Escaped quotes -/

/-- The text ends neither with a quote nor with the mark of an escape. -/
def Closes (text : List Char) : Prop :=
  text.getLast? ≠ some '"' ∧ text.getLast? ≠ some '\\'

/-- A part at the end of a text ends as the text does. -/
theorem Closes.tail {c : Char} {rest : List Char} (h : Closes (c :: rest)) : Closes rest := by
  cases rest with
  | nil => exact ⟨by simp, by simp⟩
  | cons d more => simpa [Closes, List.getLast?_cons_cons] using h

theorem Closes.ne_nil {c : Char} {rest : List Char} (h : Closes (c :: rest))
    (hc : c = '"' ∨ c = '\\') : rest ≠ [] := by
  rintro rfl
  rcases hc with rfl | rfl
  · exact h.1 rfl
  · exact h.2 rfl

theorem escapeBlock_cons {c : Char} {rest : List Char}
    (h : ∀ more, c = '"' → rest ≠ '"' :: '"' :: more) :
    escapeBlock (c :: rest) = c :: escapeBlock rest := by
  rw [escapeBlock]
  rintro more rfl rfl
  exact h more rfl rfl

/-- Only quotes are ever escaped. -/
theorem escapeBlock_plain {c : Char} (h : c ≠ '"') (rest : List Char) :
    escapeBlock (c :: rest) = c :: escapeBlock rest :=
  escapeBlock_cons fun _ heq => absurd heq h

/-- After a quote that stays as it is no two quotes follow. -/
theorem escapeBlock_ne_two {rest : List Char} (hrest : ∀ more, rest ≠ '"' :: '"' :: more)
    (h : Closes ('"' :: rest)) (tail more : List Char) :
    escapeBlock rest ++ tail ≠ '"' :: '"' :: more := by
  match rest, hrest, h with
  | [], _, h => exact absurd rfl (h.ne_nil (.inl rfl))
  | c :: others, hrest, h =>
    by_cases hc : c = '"'
    · subst hc
      match others, hrest, h with
      | [], _, h => exact absurd rfl (h.tail.ne_nil (.inl rfl))
      | d :: others, hrest, h =>
        have hd : d ≠ '"' := fun heq => hrest others (by rw [heq])
        rw [escapeBlock_cons fun more _ heq => hd (List.cons.inj heq).1, escapeBlock_plain hd]
        simp [hd]
    · rw [escapeBlock_plain hc]
      simp [hc]

/-- No three quotes are left. -/
theorem escapeBlock_ne_three {text : List Char} (hne : text ≠ []) (h : Closes text)
    (tail more : List Char) : escapeBlock text ++ tail ≠ '"' :: '"' :: '"' :: more := by
  fun_cases escapeBlock text with
  | case1 => exact absurd rfl hne
  | case2 rest => simp
  | case3 c rest hthree =>
    intro heq
    rw [List.cons_append, List.cons.injEq] at heq
    obtain ⟨rfl, heq⟩ := heq
    exact escapeBlock_ne_two (fun more hmore => hthree more rfl hmore) h _ _ heq

/-! ## Lines of a block -/

/-- The lines that a block string has, if `line` is what was read of the first of them. -/
def linesAfter (line : List Char) (text : List Char) : List (List Char) :=
  (text.splitOn '\n').modifyHead (line.reverse ++ ·)

theorem linesAfter_nil (line : List Char) : linesAfter line [] = [line.reverse] := by
  simp [linesAfter]

/-- A line feed ends the line so far. -/
theorem linesAfter_feed (line rest : List Char) :
    linesAfter line ('\n' :: rest) = line.reverse :: linesAfter [] rest := by
  have hhead : List.modifyHead (fun text => ([] : List Char).reverse ++ text)
      (rest.splitOn '\n') = rest.splitOn '\n' := by
    cases rest.splitOn '\n' <;> rfl
  rw [linesAfter, linesAfter, hhead, List.splitOn, List.splitOnP_cons_eq_if_modifyHead,
    if_pos (by rfl), List.modifyHead_cons, List.append_nil]
  rfl

theorem linesAfter_cons {c : Char} (h : c ≠ '\n') (line rest : List Char) :
    linesAfter line (c :: rest) = linesAfter (c :: line) rest := by
  rw [linesAfter, linesAfter, List.splitOn, List.splitOnP_cons_eq_if_modifyHead,
    if_neg (by simpa using h), List.modifyHead_modifyHead]
  congr 1
  funext text
  simp

/-- A character that neither ends the string nor starts an escape. -/
theorem readBlockString_cons {c : Char} {text : List Char} (hreturn : c ≠ '\r')
    (hquotes : ∀ more, c = '"' → text ≠ '"' :: '"' :: more)
    (hescape : ∀ more, c = '\\' → text ≠ '"' :: '"' :: '"' :: more)
    (place : Nat) (line : List Char) (lines : List (List Char)) :
    readBlockString place line lines (c :: text) =
      if c = '\n' then readBlockString (place + 1) [] (line.reverse :: lines) text
      else readBlockString (place + 1) (c :: line) lines text := by
  have hend : Token.isLineEnd c = decide (c = '\n') := by simp [Token.isLineEnd, hreturn]
  rw [readBlockString, hend]
  · simp
  · exact fun more hc => hquotes more hc
  · exact fun more hc => hescape more hc
  · exact fun more hc => absurd hc hreturn

/-- A text with its triple quotes escaped is read up to the triple quotes behind it. -/
theorem readBlockString_escapeBlock {text : List Char} (hreturn : '\r' ∉ text)
    (hclose : Closes text) (place : Nat) (line : List Char) (lines : List (List Char))
    (rest : List Char) :
    readBlockString place line lines (escapeBlock text ++ '"' :: '"' :: '"' :: rest) =
      .ok (.blockString (content (lines.reverse ++ linesAfter line text)),
        place + (escapeBlock text).length + 3) := by
  -- The line and the lines before it stay general: a line feed moves the one to the other.
  fun_induction escapeBlock text generalizing place line lines with
  | case1 => simp [readBlockString, linesAfter_nil]
  | case2 more ih =>
    have hmore : '\r' ∉ more := fun hmem => hreturn (by simp [hmem])
    simp only [List.cons_append, readBlockString]
    rw [ih hmore hclose.tail.tail.tail, linesAfter_cons (by decide), linesAfter_cons (by decide),
      linesAfter_cons (by decide)]
    simp only [List.length_cons]
    congr 2
    omega
  | case3 c more hthree ih =>
    rw [List.mem_cons, not_or] at hreturn
    -- Neither a plain quote nor a plain backslash starts the end of the string.
    have hquotes : ∀ others, c = '"' → escapeBlock more ++ '"' :: '"' :: '"' :: rest ≠
        '"' :: '"' :: others := by
      rintro others rfl
      exact escapeBlock_ne_two (fun more hmore => hthree more rfl hmore) hclose _ _
    have hescape : ∀ others, c = '\\' → escapeBlock more ++ '"' :: '"' :: '"' :: rest ≠
        '"' :: '"' :: '"' :: others := by
      rintro others rfl
      exact escapeBlock_ne_three (hclose.ne_nil (.inr rfl)) hclose.tail _ _
    have hread := readBlockString_cons (Ne.symm hreturn.1) hquotes hescape place line lines
    rw [List.cons_append, hread]
    split
    next hfeed =>
      subst hfeed
      rw [ih hreturn.2 hclose.tail, linesAfter_feed, List.reverse_cons, List.append_assoc,
        List.length_cons]
      simp only [List.singleton_append]
      congr 2
      omega
    next hfeed =>
      rw [ih hreturn.2 hclose.tail, linesAfter_cons hfeed, List.length_cons]
      congr 2
      omega

/-! ## Lines and their indentation -/

/-- Lines with line feeds between them. -/
def joinLines (lines : List (List Char)) : List Char :=
  ['\n'].intercalate lines

@[simp] theorem joinLines_singleton (line : List Char) : joinLines [line] = line := by
  simp [joinLines]

@[simp] theorem joinLines_cons_cons (first second : List Char) (rest : List (List Char)) :
    joinLines (first :: second :: rest) = first ++ '\n' :: joinLines (second :: rest) := by
  simp [joinLines, List.intercalate]

theorem joinLines_concat (first : List Char) (rest : List (List Char)) (last : List Char) :
    joinLines (first :: rest ++ [last]) = joinLines (first :: rest) ++ '\n' :: last := by
  induction rest generalizing first with
  | nil => simp
  | cons second more ih =>
    rw [List.cons_append, List.cons_append, joinLines_cons_cons, ← List.cons_append, ih,
      joinLines_cons_cons, List.append_assoc, List.cons_append]

/-- Lines joined again are the text. -/
theorem joinLines_splitOn (text : List Char) : joinLines (text.splitOn '\n') = text :=
  List.intercalate_splitOn '\n'

/-- From the start of a line on, the lines are those between line feeds. -/
theorem linesAfter_empty (text : List Char) : linesAfter [] text = text.splitOn '\n' := by
  rw [linesAfter]
  cases text.splitOn '\n' <;> rfl

/-- Lines are found again where they were joined. -/
theorem linesAfter_joinLines {lines : List (List Char)} (hlines : ∀ line ∈ lines, '\n' ∉ line)
    (hne : lines ≠ []) : linesAfter [] (joinLines lines) = lines := by
  rw [linesAfter, joinLines, List.splitOn_intercalate '\n' hlines hne]
  cases lines <;> rfl

/-- A text with an indentation put after each line feed. -/
def indented (indent text : List Char) : List Char :=
  text.flatMap fun c => if c = '\n' then c :: indent else [c]

theorem indented_of_notMem {line : List Char} (h : '\n' ∉ line) (indent : List Char) :
    indented indent line = line := by
  induction line with
  | nil => rfl
  | cons c rest ih =>
    rw [List.mem_cons, not_or] at h
    have hrest := ih h.2
    rw [indented] at hrest ⊢
    rw [List.flatMap_cons, hrest, if_neg (Ne.symm h.1), List.singleton_append]

theorem indented_append (indent front back : List Char) :
    indented indent (front ++ back) = indented indent front ++ indented indent back :=
  List.flatMap_append

theorem indented_feed (indent rest : List Char) :
    indented indent ('\n' :: rest) = '\n' :: (indent ++ indented indent rest) := by
  simp [indented]

theorem indented_concat_feed (indent text : List Char) :
    indented indent (text ++ ['\n']) = indented indent text ++ '\n' :: indent := by
  rw [indented_append, indented_feed]
  simp [indented]

theorem joinLines_append_cons (front back : List Char) (rest : List (List Char)) :
    joinLines ((front ++ back) :: rest) = front ++ joinLines (back :: rest) := by
  cases rest with
  | nil => simp
  | cons second more => simp

/-- All lines but the first are indented. -/
theorem indented_joinLines {first : List Char} {rest : List (List Char)}
    (h : ∀ line ∈ first :: rest, '\n' ∉ line) (indent : List Char) :
    indented indent (joinLines (first :: rest)) =
      joinLines (first :: rest.map (indent ++ ·)) := by
  induction rest generalizing first with
  | nil =>
    rw [joinLines_singleton, List.map_nil, joinLines_singleton]
    exact indented_of_notMem (h first (by simp)) indent
  | cons second more ih =>
    rw [List.forall_mem_cons] at h
    rw [joinLines_cons_cons, indented_append, indented_of_notMem h.1, indented_feed, ih h.2,
      List.map_cons, joinLines_cons_cons, joinLines_append_cons]

theorem indented_cons {c : Char} (h : c ≠ '\n') (indent rest : List Char) :
    indented indent (c :: rest) = c :: indented indent rest := by
  simp [indented, h]

/-- A quote is where it was. -/
theorem eq_of_indented_eq_quote {indent text more : List Char}
    (h : indented indent text = '"' :: more) :
    ∃ rest, text = '"' :: rest ∧ indented indent rest = more := by
  cases text with
  | nil => cases h
  | cons c rest =>
    by_cases hfeed : c = '\n'
    · subst hfeed
      rw [indented_feed] at h
      cases h
    · rw [indented_cons hfeed, List.cons.injEq] at h
      obtain ⟨rfl, hmore⟩ := h
      exact ⟨rest, rfl, hmore⟩

/-- Quotes are escaped in the same way wherever the lines start. -/
theorem escapeBlock_indented {indent : List Char} (hindent : '"' ∉ indent) (text : List Char) :
    escapeBlock (indented indent text) = indented indent (escapeBlock text) := by
  have hblanks (rest : List Char) : escapeBlock (indent ++ rest) = indent ++ escapeBlock rest := by
    induction indent with
    | nil => rfl
    | cons c indent ih =>
      rw [List.mem_cons, not_or] at hindent
      rw [List.cons_append, escapeBlock_plain (Ne.symm hindent.1), ih hindent.2, List.cons_append]
  fun_induction escapeBlock text with
  | case1 => rfl
  | case2 more ih =>
    rw [indented_cons (by decide), indented_cons (by decide), indented_cons (by decide),
      escapeBlock, ih, indented_cons (by decide), indented_cons (by decide),
      indented_cons (by decide), indented_cons (by decide)]
  | case3 c more hthree ih =>
    by_cases hfeed : c = '\n'
    · subst hfeed
      rw [indented_feed, escapeBlock_plain (by decide), hblanks, ih, indented_feed]
    · rw [indented_cons hfeed, escapeBlock_cons, ih, indented_cons hfeed]
      -- Blanks come after line feeds only, so they make no triple of quotes where there was none.
      intro others hc heq
      obtain ⟨after, rfl, hafter⟩ := eq_of_indented_eq_quote heq
      obtain ⟨last, rfl, -⟩ := eq_of_indented_eq_quote hafter
      exact hthree last hc rfl

/-- Indenting adds nothing but the indentation. -/
theorem mem_indented {c : Char} {indent text : List Char} (h : c ∈ indented indent text) :
    c ∈ text ∨ c ∈ indent := by
  obtain ⟨d, hd, hc⟩ := List.mem_flatMap.mp h
  split at hc
  next hfeed =>
    rcases List.mem_cons.mp hc with rfl | hc
    · exact .inl (hfeed ▸ hd)
    · exact .inr hc
  next => exact .inl (List.mem_singleton.mp hc ▸ hd)

/-- A line feed at the end does not turn quotes into three in a row. -/
theorem escapeBlock_append_feed (text : List Char) :
    escapeBlock (text ++ ['\n']) = escapeBlock text ++ ['\n'] := by
  fun_induction escapeBlock text with
  | case1 => rfl
  | case2 rest ih => simp only [List.cons_append, escapeBlock, ih]
  | case3 c rest hthree ih =>
    rw [List.cons_append, escapeBlock_cons, ih, List.cons_append]
    intro more hc heq
    rcases rest with _ | ⟨d, _ | ⟨e, others⟩⟩
    · simp at heq
    · simp at heq
    · obtain ⟨rfl, rfl, -⟩ : d = '"' ∧ e = '"' ∧ _ := by simpa using heq
      exact hthree others hc rfl

/-! ## Dedenting -/

/-- Indentation does not make a line blank. -/
theorem isBlank_append {indent : List Char} (h : ∀ c ∈ indent, isIndent c) (line : List Char) :
    isBlank (indent ++ line) = isBlank line := by
  rw [isBlank, List.all_append, List.all_eq_true.mpr h, Bool.true_and]
  rfl

theorem indent_append {blanks : List Char} (h : ∀ c ∈ blanks, isIndent c) (line : List Char) :
    indent (blanks ++ line) = blanks.length + indent line := by
  rw [indent, List.takeWhile_append_of_pos h, List.length_append]
  rfl

/-- Lines that are indented alike, before a blank line, share just that if one of them starts at
    once. -/
theorem commonIndent?_indented {blanks : List Char} (hblanks : ∀ c ∈ blanks, isIndent c)
    {lines : List (List Char)} (h : ∃ line ∈ lines, isBlank line = false ∧ indent line = 0) :
    commonIndent? (lines.map (blanks ++ ·) ++ [blanks]) = some blanks.length := by
  have hblank : isBlank blanks = true := List.all_eq_true.mpr hblanks
  rw [commonIndent?, List.filter_append, List.filter_cons_of_neg (by simp [hblank]),
    List.filter_nil, List.append_nil, List.filter_map, List.map_map, List.min?_eq_some_iff]
  constructor
  · obtain ⟨line, hmem, hline, hzero⟩ := h
    refine List.mem_map.mpr ⟨line, List.mem_filter.mpr ⟨hmem, ?_⟩, ?_⟩
    · simp [isBlank_append hblanks, hline]
    · simp [indent_append hblanks, hzero]
  · intro size hsize
    obtain ⟨line, -, rfl⟩ := List.mem_map.mp hsize
    simp [indent_append hblanks]

/-- Blank lines around lines that neither start nor end with one are dropped. -/
theorem trimBlank_around {first : List Char} {rest front back : List (List Char)}
    (hfirst : isBlank first = false) (hlast : (first :: rest).getLast?.all (!isBlank ·))
    (hfront : ∀ line ∈ front, isBlank line) (hback : ∀ line ∈ back, isBlank line) :
    trimBlank (front ++ (first :: rest) ++ back) = first :: rest := by
  have hdrop {lines : List (List Char)} (h : lines.head?.all (!isBlank ·)) :
      lines.dropWhile isBlank = lines := by
    cases lines with
    | nil => rfl
    | cons line more => exact List.dropWhile_cons_of_neg (by simpa using h)
  have hleft : (front ++ (first :: rest) ++ back).dropWhile isBlank = (first :: rest) ++ back := by
    rw [List.append_assoc, List.dropWhile_append_of_pos hfront]
    exact hdrop (by simp [hfirst])
  have hright : ((first :: rest) ++ back).reverse.dropWhile isBlank = (first :: rest).reverse := by
    rw [List.reverse_append, List.dropWhile_append_of_pos (by simpa using hback)]
    exact hdrop (by rwa [List.head?_reverse])
  rw [trimBlank, hleft, hright, List.reverse_reverse]

theorem joinWith_ofList (lines : List (List Char)) :
    Text.joinWith "\n" (lines.map String.ofList) = String.ofList (joinLines lines) := by
  induction lines with
  | nil => rfl
  | cons first rest ih =>
    cases rest with
    | nil => simp
    | cons second more =>
      rw [List.map_cons, List.map_cons, Text.joinWith_cons_cons, ← List.map_cons, ih,
        joinLines_cons_cons, ← String.toList_inj]
      simp

/-- Lines of a block below its quotes are read back without their indentation. -/
theorem content_below {blanks : List Char} (hblanks : ∀ c ∈ blanks, isIndent c) {first : List Char}
    {rest : List (List Char)} (hfirst : isBlank first = false)
    (hlast : (first :: rest).getLast?.all (!isBlank ·))
    (h : ∃ line ∈ first :: rest, isBlank line = false ∧ indent line = 0) :
    content ([] :: ((first :: rest).map (blanks ++ ·) ++ [blanks])) =
      String.ofList (joinLines (first :: rest)) := by
  have hdedent : dedent ([] :: ((first :: rest).map (blanks ++ ·) ++ [blanks])) =
      [[]] ++ (first :: rest) ++ [[]] := by
    rw [dedent, commonIndent?_indented hblanks h]
    simp [Function.comp_def]
  rw [content, hdedent, trimBlank_around hfirst hlast (by simp [isBlank]) (by simp [isBlank]),
    joinWith_ofList]

/-- A single line is read back, also before a line with the closing quotes. -/
theorem content_line {line : List Char} (hline : isBlank line = false) {blanks : List Char}
    (hblanks : ∀ c ∈ blanks, isIndent c) :
    content [line] = String.ofList line ∧ content [line, blanks] = String.ofList line := by
  have hblank : isBlank blanks := List.all_eq_true.mpr hblanks
  have hlast : [line].getLast?.all (!isBlank ·) := by simp [hline]
  have htext : Text.joinWith "\n" ([line].map String.ofList) = String.ofList line := rfl
  have hdedent : dedent [line, blanks] = [] ++ [line] ++ [[]] := by
    simp [dedent, commonIndent?, hblank]
  constructor
  · have hone : dedent [line] = [] ++ [line] ++ [] := rfl
    rw [content, hone, trimBlank_around hline hlast (by simp) (by simp), htext]
  · rw [content, hdedent, trimBlank_around hline hlast (by simp) (by simp [isBlank]), htext]

/-! ## Printed block strings -/

theorem map_linesFrom {text : List Char} (h : '\r' ∉ text) (start offset : Nat)
    (line : List Char) :
    (Text.linesFrom start offset line text).map (·.2) = linesAfter line text := by
  fun_induction Text.linesFrom start offset line text with
  | case1 => simp [linesAfter_nil]
  | case2 | case3 => exact absurd List.mem_cons_self h
  | case4 start offset line rest ih =>
    rw [List.map_cons, ih fun hmem => h (List.mem_cons_of_mem _ hmem), linesAfter_feed]
  | case5 start offset line c rest hreturn hreturn' hfeed ih =>
    rw [ih fun hmem => h (List.mem_cons_of_mem _ hmem), linesAfter_cons hfeed]

/-- Without carriage returns, lines are what is between line feeds. -/
theorem map_numberedLines {text : List Char} (h : '\r' ∉ text) :
    (Text.numberedLines text).map (·.2) = linesAfter [] text :=
  map_linesFrom h 0 0 []

/-- Escapes add no carriage return. -/
theorem notMem_escapeBlock {text : List Char} (h : '\r' ∉ text) : '\r' ∉ escapeBlock text := by
  fun_induction escapeBlock text with
  | case1 => exact h
  | case2 rest ih =>
    have hrest : '\r' ∉ escapeBlock rest := ih fun hmem => h (by simp [hmem])
    simpa using hrest
  | case3 c rest _ ih =>
    rw [List.mem_cons, not_or] at h ⊢
    exact ⟨h.1, ih h.2⟩

/-- There are as many lines as before. -/
theorem length_linesAfter_escapeBlock (text line other : List Char) :
    (linesAfter line (escapeBlock text)).length = (linesAfter other text).length := by
  fun_induction escapeBlock text generalizing line other with
  | case1 => simp [linesAfter_nil]
  | case2 rest ih =>
    simp only [linesAfter_cons (show '"' ≠ '\n' by decide),
      linesAfter_cons (show '\\' ≠ '\n' by decide)]
    exact ih _ _
  | case3 c rest _ ih =>
    by_cases hfeed : c = '\n'
    · subst hfeed
      rw [linesAfter_feed, linesAfter_feed, List.length_cons, List.length_cons, ih [] []]
    · rw [linesAfter_cons hfeed, linesAfter_cons hfeed]
      exact ih _ _

/-- What a block text is: no carriage return, and it is empty or has lines of which the first and
    the last are not blank and, if there are several, one starts at once. -/
theorem lines_of_isBlockText {text : List Char} (h : isBlockText text) :
    '\r' ∉ text ∧ (text ≠ [] → ∃ first rest, linesAfter [] text = first :: rest ∧
      isBlank first = false ∧ (first :: rest).getLast?.all (!isBlank ·) ∧
      (rest ≠ [] → ∃ line ∈ first :: rest, isBlank line = false ∧ indent line = 0)) := by
  by_cases hempty : text = []
  · subst hempty
    exact ⟨by simp, fun hne => absurd rfl hne⟩
  simp only [isBlockText, Bool.or_eq_true, List.isEmpty_iff, hempty, false_or,
    Bool.and_eq_true] at h
  obtain ⟨⟨⟨hplain, hfirst⟩, hlast⟩, hindented⟩ := h
  -- A carriage return is not allowed in a block, so its lines end at line feeds only.
  have hreturn : '\r' ∉ text := fun hmem => by
    have := List.all_eq_true.mp hplain '\r' hmem
    cases this
  rw [map_numberedLines hreturn] at hfirst hlast hindented
  refine ⟨hreturn, fun _ => ?_⟩
  cases hlines : linesAfter [] text with
  | nil =>
    exact absurd (List.modifyHead_eq_nil_iff.mp hlines) (List.splitOnP_ne_nil _ _)
  | cons first rest =>
    rw [hlines] at hfirst hlast hindented
    refine ⟨first, rest, rfl, by simpa using hfirst, hlast, fun hrest => ?_⟩
    have hsome : ∃ line ∈ first :: rest, isBlank line = false ∧
        line.head?.any isIndent = false := by
      simpa [hrest] using hindented
    obtain ⟨line, hmem, hline, hhead⟩ := hsome
    refine ⟨line, hmem, hline, ?_⟩
    cases line with
    | nil => rfl
    | cons c more => simp [indent, show isIndent c = false by simpa using hhead]

/-- How a block string is printed: on the lines of its quotes, on that of the first quotes, or on
    lines of its own. -/
theorem printBlockString_cases {content : String} (hreturn : '\r' ∉ content.toList) :
    ∃ before after, (printBlockString content).toList =
        '"' :: '"' :: '"' :: (before ++ escapeBlock content.toList ++ after ++ ['"', '"', '"']) ∧
      (before = [] ∧ after = [] ∧ (linesAfter [] content.toList).length ≤ 1 ∧
          Closes content.toList ∨
        before = [] ∧ after = ['\n'] ∧ (linesAfter [] content.toList).length ≤ 1 ∨
        before = ['\n'] ∧ after = ['\n'] ∧ ((linesAfter [] content.toList).length = 1 →
          content.toList.head?.any isIndent = false)) := by
  have hlength := length_linesAfter_escapeBlock content.toList [] []
  have hescaped := map_numberedLines (notMem_escapeBlock hreturn)
  generalize hprinted : printBlockString content = printed
  unfold printBlockString at hprinted
  extract_lets chars escaped lines leading tripleEnd trailing several keepFirst before after
    at hprinted
  have hlines : lines.length = (linesAfter [] content.toList).length := by
    rw [← hlength, ← hescaped]
  subst hprinted
  refine ⟨before.toList, after.toList, by simp [escaped, chars], ?_⟩
  have hleading : lines.length ≤ 1 → leading = false := fun hone => by
    have hone : ¬ lines.length > 1 := by omega
    simp [leading, hone]
  rw [← hlines]
  cases hseveral : several with
  | false =>
    -- Nothing asks for more than one line, so the text does not end as quotes or escapes do.
    have hparts : (((lines.length ≤ 1 ∧ chars.length ≤ 70) ∧ trailing = false) ∧ leading = false) ∧
        ¬ tripleEnd := by simpa [several] using hseveral
    obtain ⟨⟨⟨⟨hone, -⟩, htrailing⟩, hnone⟩, htriple⟩ := hparts
    have hclose : ¬ chars.getLast? = some '"' ∧ ¬ chars.getLast? = some '\\' := by
      simpa [trailing, htriple] using htrailing
    refine .inl ⟨?_, ?_, hone, hclose⟩
    · simp [before, hseveral, hnone]
    · simp [after, hseveral]
  | true =>
    have hafter : after.toList = ['\n'] := by simp [after, hseveral]
    cases hkeep : keepFirst with
    | true =>
      have hone : lines.length = 1 := by
        simp only [keepFirst, Bool.and_eq_true, decide_eq_true_eq] at hkeep
        exact hkeep.1
      refine .inr (.inl ⟨?_, hafter, Nat.le_of_eq hone⟩)
      simp [before, hkeep, hleading (Nat.le_of_eq hone)]
    | false =>
      refine .inr (.inr ⟨by simp [before, hseveral, hkeep], hafter, fun hone => ?_⟩)
      simpa [keepFirst, hone, chars] using hkeep

theorem notMem_of_isIndent {blanks : List Char} (h : ∀ c ∈ blanks, isIndent c) {c : Char}
    (hc : isIndent c = false) : c ∉ blanks := by
  intro hmem
  rw [h c hmem] at hc
  cases hc

/-- A text with a last line of blanks. -/
theorem closes_append_blanks {blanks : List Char} (h : ∀ c ∈ blanks, isIndent c)
    (text : List Char) : Closes (text ++ '\n' :: blanks) := by
  have hends {c : Char} (hc : isIndent c = false) (hfeed : c ≠ '\n') :
      (text ++ '\n' :: blanks).getLast? ≠ some c := by
    rw [List.getLast?_append_of_ne_nil _ (List.cons_ne_nil _ _)]
    intro hlast
    rcases List.mem_cons.mp (List.mem_of_getLast? hlast) with heq | hmem
    · exact hfeed heq
    · exact notMem_of_isIndent h hc hmem
  exact ⟨hends rfl (by decide), hends rfl (by decide)⟩

/-- The lines of a block whose quotes stand on lines of their own. -/
theorem linesAfter_block {blanks : List Char} (hblanks : '\n' ∉ blanks) {first : List Char}
    {rest : List (List Char)} (h : ∀ line ∈ first :: rest, '\n' ∉ line) :
    linesAfter [] (indented blanks ('\n' :: (joinLines (first :: rest) ++ ['\n']))) =
      [] :: ((first :: rest).map (blanks ++ ·) ++ [blanks]) := by
  have htext : '\n' :: (joinLines (first :: rest) ++ ['\n']) =
      joinLines ([] :: (first :: rest ++ [[]])) := by
    have hconcat := joinLines_concat first rest []
    rw [List.cons_append] at hconcat ⊢
    rw [joinLines_cons_cons, hconcat, List.nil_append]
  have hlines : ∀ line ∈ [] :: (first :: rest ++ [[]]), '\n' ∉ line := by
    rw [List.forall_mem_cons, List.forall_mem_append]
    exact ⟨by simp, h, by simp⟩
  have hindented : ∀ line ∈ [] :: (first :: rest ++ [[]]).map (blanks ++ ·), '\n' ∉ line := by
    rw [List.forall_mem_cons, List.forall_mem_map]
    refine ⟨by simp, fun line hline => ?_⟩
    simp [hblanks, hlines line (List.mem_cons_of_mem _ hline)]
  rw [htext, indented_joinLines hlines, linesAfter_joinLines hindented (by simp), List.map_append,
    List.map_singleton, List.append_nil]

/-- Between its quotes a printed block string is a text that is read back as its content, also with
    its lines indented. -/
theorem exists_printed {content : String} (h : isBlockText content.toList) {blanks : List Char}
    (hblanks : ∀ c ∈ blanks, isIndent c) :
    ∃ body, indented blanks (printBlockString content).toList =
        '"' :: '"' :: '"' :: (escapeBlock body ++ ['"', '"', '"']) ∧
      '\r' ∉ body ∧ Closes body ∧ BlockString.content (linesAfter [] body) = content := by
  by_cases hempty : content = ""
  · subst hempty
    exact ⟨[], rfl, by simp, ⟨by simp, by simp⟩, rfl⟩
  obtain ⟨hreturn, hlines⟩ := lines_of_isBlockText h
  obtain ⟨first, rest, hsplit, hfirst, hlast, hstart⟩ := hlines (by simpa using hempty)
  obtain ⟨before, after, hprinted, hcases⟩ := printBlockString_cases hreturn
  -- The content is its lines, none of which has a line feed.
  have hjoin : joinLines (first :: rest) = content.toList := by
    rw [← hsplit, linesAfter_empty, joinLines_splitOn]
  have hfeeds : ∀ line ∈ first :: rest, '\n' ∉ line := by
    intro line hline hmem
    rw [← hsplit, linesAfter_empty] at hline
    exact (Text.mem_of_mem_splitOn hline _ hmem).2 rfl
  have hblankfeed : '\n' ∉ blanks := notMem_of_isIndent hblanks rfl
  have hescape : escapeBlock (before ++ content.toList ++ after) =
      before ++ escapeBlock content.toList ++ after := by
    obtain ⟨rfl, rfl, -⟩ | ⟨rfl, rfl, -⟩ | ⟨rfl, rfl, -⟩ := hcases
    · simp
    · simp [escapeBlock_append_feed]
    · simp [escapeBlock_append_feed, escapeBlock_plain]
  have hbody : indented blanks (printBlockString content).toList =
      '"' :: '"' :: '"' :: (escapeBlock (indented blanks (before ++ content.toList ++ after)) ++
        ['"', '"', '"']) := by
    rw [hprinted, indented_cons (by decide), indented_cons (by decide), indented_cons (by decide),
      escapeBlock_indented (notMem_of_isIndent hblanks rfl), hescape, indented_append]
    rfl
  have hsingle (hone : (linesAfter [] content.toList).length ≤ 1) :
      rest = [] ∧ first = content.toList := by
    rw [hsplit] at hone
    have hrest : rest = [] := List.eq_nil_of_length_eq_zero (by simpa using hone)
    subst hrest
    exact ⟨rfl, by simpa using hjoin⟩
  refine ⟨_, hbody, fun hmem => ?_, ?_⟩
  · rcases mem_indented hmem with hmem | hmem
    · obtain ⟨rfl, rfl, -⟩ | ⟨rfl, rfl, -⟩ | ⟨rfl, rfl, -⟩ := hcases <;> simp [hreturn] at hmem
    · exact notMem_of_isIndent hblanks rfl hmem
  obtain ⟨rfl, rfl, hone, hclose⟩ | ⟨rfl, rfl, hone⟩ | ⟨rfl, rfl, hhead⟩ := hcases
  · obtain ⟨rfl, rfl⟩ := hsingle hone
    rw [List.nil_append, List.append_nil, indented_of_notMem (hfeeds _ List.mem_cons_self), hsplit,
      (content_line hfirst hblanks).1, String.ofList_toList]
    exact ⟨hclose, rfl⟩
  · obtain ⟨rfl, rfl⟩ := hsingle hone
    have hfeed := hfeeds _ List.mem_cons_self
    have htwo : content.toList ++ '\n' :: blanks = joinLines [content.toList, blanks] := by simp
    rw [List.nil_append, indented_concat_feed, indented_of_notMem hfeed]
    refine ⟨closes_append_blanks hblanks _, ?_⟩
    rw [htwo, linesAfter_joinLines (by simp [hfeed, hblankfeed]) (by simp),
      (content_line hfirst hblanks).2, String.ofList_toList]
  · constructor
    · rw [indented_concat_feed]
      exact closes_append_blanks hblanks _
    have honce : ∃ line ∈ first :: rest, isBlank line = false ∧ indent line = 0 := by
      by_cases hrest : rest = []
      · subst hrest
        -- The only line is the content, and it starts at once.
        have hline : first = content.toList := by simpa using hjoin
        have hhead := hhead (by rw [hsplit]; rfl)
        rw [← hline] at hhead
        refine ⟨first, List.mem_cons_self, hfirst, ?_⟩
        cases first with
        | nil => rfl
        | cons c more => simp [indent, show isIndent c = false by simpa using hhead]
      · exact hstart hrest
    rw [List.singleton_append, List.cons_append, ← hjoin, linesAfter_block hblankfeed hfeeds,
      content_below hblanks hfirst hlast honce, hjoin, String.ofList_toList]

end SchemaClasses.BlockString
