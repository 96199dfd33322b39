import SchemaClasses.Proofs.SourceText

/-!
# Brackets and quotes

A scanner that reads a line of the generated code from left to right. It knows which brackets are
open and whether it is within a string, and stops at a bracket that closes nothing. A text is closed
if the scanner leaves it as it entered it.
-/

namespace SchemaClasses.Scan

/-! ## The scanner -/

inductive Bracket
  | round
  | square
  | curly
deriving DecidableEq, Repr

def opening? : Char → Option Bracket
  | '(' => some .round
  | '[' => some .square
  | '\x7b' => some .curly
  | _ => none

def closing? : Char → Option Bracket
  | ')' => some .round
  | ']' => some .square
  | '\x7d' => some .curly
  | _ => none

/-- Where the scanner is: outside of strings, within a string, or behind a backslash there. -/
inductive Mode
  | code
  | text
  | escaped
deriving DecidableEq, Repr

/-- The mode and the brackets that are open, innermost first. -/
structure State where
  mode : Mode
  stack : List Bracket
deriving DecidableEq, Repr

def start : State := ⟨.code, []⟩

/-- One character outside of strings. -/
def stepCode (stack : List Bracket) (c : Char) : Option State :=
  if c = '"' then some ⟨.text, stack⟩
  else
    match opening? c, closing? c with
    | some bracket, _ => some ⟨.code, bracket :: stack⟩
    | none, some bracket => if stack.head? = some bracket then some ⟨.code, stack.tail⟩ else none
    | none, none => some ⟨.code, stack⟩

/-- One character within a string. -/
def stepText (stack : List Bracket) (c : Char) : State :=
  if c = '"' then ⟨.code, stack⟩
  else if c = '\\' then ⟨.escaped, stack⟩
  else ⟨.text, stack⟩

def step (s : State) (c : Char) : Option State :=
  match s.mode with
  | .code => stepCode s.stack c
  | .text => some (stepText s.stack c)
  | .escaped => some ⟨.text, s.stack⟩

/-- The scanner after a text, unless it stops within. -/
def run (s : State) (text : List Char) : Option State :=
  text.foldlM step s

@[simp] theorem run_nil (s : State) : run s [] = some s := rfl

theorem run_cons (s : State) (c : Char) (rest : List Char) :
    run s (c :: rest) = (step s c).bind fun s => run s rest := by
  simp [run]

theorem run_append (s : State) (front back : List Char) :
    run s (front ++ back) = (run s front).bind fun s => run s back := by
  simp [run]

/-! ## Brackets around -/

/-- The same place with more brackets open around it. -/
def State.within (s : State) (around : List Bracket) : State :=
  ⟨s.mode, s.stack ++ around⟩

/-- Brackets further out make no difference to a character. -/
theorem stepCode_within {stack : List Bracket} {c : Char} {s : State} (around : List Bracket)
    (h : stepCode stack c = some s) : stepCode (stack ++ around) c = some (s.within around) := by
  unfold stepCode at h ⊢
  split at h
  case isTrue hquote =>
    rw [if_pos hquote]
    cases h
    rfl
  case isFalse hquote =>
    rw [if_neg hquote]
    split at h
    case h_1 =>
      cases h
      rfl
    case h_2 bracket =>
      split at h
      case isTrue hhead =>
        -- The bracket that is closed is one of the inner ones.
        cases h
        cases stack with
        | nil => simp at hhead
        | cons top rest => simpa [State.within] using hhead
      case isFalse => cases h
    case h_3 =>
      cases h
      rfl

/-- Brackets further out make no difference to a step, within a string or not. -/
theorem step_within {s t : State} {c : Char} (around : List Bracket) (h : step s c = some t) :
    step (s.within around) c = some (t.within around) := by
  obtain ⟨mode, stack⟩ := s
  cases mode with
  | code => exact stepCode_within around h
  | text =>
    cases h
    simp only [step, stepText, State.within]
    split
    case isTrue => rfl
    case isFalse => split <;> rfl
  | escaped =>
    cases h
    rfl

/-- What a text does to the brackets it opens itself does not depend on those around it. -/
theorem run_within {s t : State} {text : List Char} (around : List Bracket)
    (h : run s text = some t) : run (s.within around) text = some (t.within around) := by
  induction text generalizing s with
  | nil =>
    cases h
    rfl
  | cons c rest ih =>
    rw [run_cons, Option.bind_eq_some_iff] at h
    obtain ⟨next, hstep, hrest⟩ := h
    rw [run_cons, step_within around hstep]
    exact ih hrest

/-! ## Closed texts -/

/-- The text is on one line, and the scanner leaves it as it entered it. -/
structure Closed (text : Text) : Prop where
  oneLine : ∀ c ∈ text.chars, c ≠ '\n' ∧ c ≠ '\r'
  balanced : run start text.chars = some start

/-- A closed text leaves the brackets around it as they were. -/
theorem Closed.run {text : Text} (h : Closed text) (around : List Bracket) :
    Scan.run ⟨.code, around⟩ text.chars = some ⟨.code, around⟩ :=
  run_within around h.balanced

theorem Closed.append {front back : Text} (hfront : Closed front) (hback : Closed back) :
    Closed (front ++ back) := by
  constructor
  · rw [Text.chars_append]
    exact List.forall_mem_append.mpr ⟨hfront.oneLine, hback.oneLine⟩
  · rw [Text.chars_append, run_append, hfront.balanced]
    exact hback.balanced

theorem Closed.ofString_append {front back : String} (hfront : Closed front)
    (hback : Closed back) : Closed (Text.ofString (front ++ back)) := by
  rw [Text.ofString_append]
  exact hfront.append hback

/-- The characters that open or close something outside of strings, or end a line. -/
def special : List Char :=
  ['"', '(', ')', '[', ']', '\x7b', '\x7d', '\n', '\r']

/-- Whether a character outside of strings has no effect. -/
def isPlain (c : Char) : Bool :=
  !special.contains c

theorem isPlain_of_class {p : Char → Bool} {c : Char} (hc : p c)
    (hp : special.all (fun d => !p d) = true) : isPlain c := by
  simp only [isPlain, Bool.not_eq_true', Bool.eq_false_iff]
  intro hmem
  have hnone := List.all_eq_true.mp hp c (List.contains_iff_mem.mp hmem)
  rw [hc] at hnone
  exact absurd hnone (by simp)

theorem stepCode_of_isPlain {c : Char} (h : isPlain c) (stack : List Bracket) :
    stepCode stack c = some ⟨.code, stack⟩ := by
  simp only [isPlain, special, List.contains_cons, List.contains_nil, Bool.or_false,
    Bool.not_eq_true', Bool.or_eq_false_iff, beq_eq_false_iff_ne] at h
  have hopening : opening? c = none := by
    unfold opening?
    split <;> simp_all
  have hclosing : closing? c = none := by
    unfold closing?
    split <;> simp_all
  simp [stepCode, h.1, hopening, hclosing]

/-- Characters without effect leave the scanner where it is. -/
theorem run_of_isPlain {text : List Char} (h : ∀ c ∈ text, isPlain c) (stack : List Bracket) :
    run ⟨.code, stack⟩ text = some ⟨.code, stack⟩ := by
  induction text with
  | nil => rfl
  | cons c rest ih =>
    rw [List.forall_mem_cons] at h
    have hstep : step ⟨.code, stack⟩ c = some ⟨.code, stack⟩ := stepCode_of_isPlain h.1 stack
    rw [run_cons, hstep]
    exact ih h.2

/-- Whether a text has no effect outside of strings. -/
def isPlainText (text : String) : Bool :=
  text.toList.all isPlain

@[simp] theorem isPlainText_append (front back : String) :
    isPlainText (front ++ back) = (isPlainText front && isPlainText back) := by
  simp [isPlainText]

theorem Closed.plain {text : String} (h : isPlainText text) : Closed text := by
  have h : ∀ c ∈ text.toList, isPlain c := List.all_eq_true.mp h
  rw [← Text.chars_ofString] at h
  refine ⟨fun c hc => ?_, run_of_isPlain h []⟩
  have hplain := h c hc
  simp only [isPlain, special, List.contains_cons, List.contains_nil, Bool.or_false,
    Bool.not_eq_true', Bool.or_eq_false_iff, beq_eq_false_iff_ne] at hplain
  exact hplain.2.2.2.2.2.2.2

/-- What opens and what closes a bracket. -/
def Bracket.texts : Bracket → String × String
  | .round => ("(", ")")
  | .square => ("[", "]")
  | .curly => ("\x7b", "\x7d")

theorem run_open (bracket : Bracket) (stack : List Bracket) :
    run ⟨.code, stack⟩ bracket.texts.1.toList = some ⟨.code, bracket :: stack⟩ := by
  cases bracket <;> rfl

theorem run_close (bracket : Bracket) (stack : List Bracket) :
    run ⟨.code, bracket :: stack⟩ bracket.texts.2.toList = some ⟨.code, stack⟩ := by
  cases bracket <;> rfl

/-- A bracket is closed by its partner if all is closed in between. -/
theorem Closed.bracketed {text : Text} (h : Closed text) (bracket : Bracket) :
    Closed (bracket.texts.1 ++ text ++ bracket.texts.2) := by
  constructor
  · have hends : (∀ c ∈ bracket.texts.1.toList, c ≠ '\n' ∧ c ≠ '\r') ∧
        ∀ c ∈ bracket.texts.2.toList, c ≠ '\n' ∧ c ≠ '\r' := by
      cases bracket <;> simp [Bracket.texts]
    simp only [Text.chars_append, Text.chars_ofString, List.forall_mem_append]
    exact ⟨⟨hends.1, h.oneLine⟩, hends.2⟩
  · have hopen : Scan.run start bracket.texts.1.toList = some ⟨.code, [bracket]⟩ :=
      run_open bracket []
    rw [Text.chars_append, Text.chars_append, Text.chars_ofString, Text.chars_ofString, run_append,
      run_append, hopen, Option.bind_some, h.run, Option.bind_some, run_close]
    rfl

theorem Closed.join {separator : String} (hseparator : Closed separator) {texts : List Text}
    (h : ∀ text ∈ texts, Closed text) : Closed (Text.join separator texts) := by
  fun_induction Text.join separator texts with
  | case1 => exact .plain rfl
  | case2 text => exact h text List.mem_cons_self
  | case3 text rest _ ih =>
    rw [List.forall_mem_cons] at h
    exact (h.1.append hseparator).append (ih h.2)

theorem Closed.joinWith {separator : String} (hseparator : Closed separator) {texts : List String}
    (h : ∀ text ∈ texts, Closed text) : Closed (Text.joinWith separator texts) := by
  rw [Text.ofString_joinWith]
  exact .join hseparator (List.forall_mem_map.mpr h)

/-! ## Strings -/

/-- The digits of an escape neither end a string nor start an escape. -/
theorem hexDigit_inert : ∀ n < 16, Text.hexDigit n ≠ '"' ∧ Text.hexDigit n ≠ '\\' ∧
    Text.hexDigit n ≠ '\n' ∧ Text.hexDigit n ≠ '\r' := by
  decide

theorem step_text {c : Char} (hquote : c ≠ '"') (hbackslash : c ≠ '\\') (stack : List Bracket) :
    step ⟨.text, stack⟩ c = some ⟨.text, stack⟩ := by
  simp [step, stepText, hquote, hbackslash]

/-- A character within a string does not end it, however it is written. -/
theorem run_quoteChar (c : Char) (stack : List Bracket) :
    run ⟨.text, stack⟩ (Text.quoteChar c) = some ⟨.text, stack⟩ := by
  rcases Text.quoteChar_cases c with ⟨heq, hquote, hbackslash, -⟩ | ⟨letter, heq, -⟩ |
    ⟨high, hhigh, low, hlow, heq⟩
  · rw [heq, run_cons, step_text hquote hbackslash]
    rfl
  · rw [heq]
    rfl
  · have hhigh := hexDigit_inert high hhigh
    have hlow := hexDigit_inert low hlow
    -- The backslash hides the letter, and no digit has a meaning within a string.
    have hletter : run ⟨.text, stack⟩ ['\\', 'u', '0', '0'] = some ⟨.text, stack⟩ := rfl
    rw [heq, show ['\\', 'u', '0', '0', Text.hexDigit high, Text.hexDigit low] =
      ['\\', 'u', '0', '0'] ++ [Text.hexDigit high, Text.hexDigit low] from rfl, run_append, hletter,
      Option.bind_some, run_cons, step_text hhigh.1 hhigh.2.1, Option.bind_some, run_cons,
      step_text hlow.1 hlow.2.1]
    rfl

/-- However a character is escaped, the scanner stays within the string. -/
theorem run_flatMap_quoteChar (text : List Char) (stack : List Bracket) :
    run ⟨.text, stack⟩ (text.flatMap Text.quoteChar) = some ⟨.text, stack⟩ := by
  induction text with
  | nil => rfl
  | cons c rest ih =>
    rw [List.flatMap_cons, run_append, run_quoteChar]
    exact ih

/-- No character is written with a line end. -/
theorem quoteChar_oneLine (c : Char) : ∀ d ∈ Text.quoteChar c, d ≠ '\n' ∧ d ≠ '\r' := by
  rcases Text.quoteChar_cases c with ⟨heq, -, -, hends⟩ | ⟨letter, heq, hends⟩ |
    ⟨high, hhigh, low, hlow, heq⟩
  · simpa [heq] using hends
  · simpa [heq] using hends
  · simpa [heq] using ⟨(hexDigit_inert high hhigh).2.2, (hexDigit_inert low hlow).2.2⟩

/-- A string is closed, whatever its content. -/
theorem Closed.quoted (content : Text) : Closed content.quoted := by
  have hchars : content.quoted.chars = '"' :: (content.chars.flatMap Text.quoteChar ++ ['"']) :=
    Text.chars_quoted content
  constructor
  · rw [hchars]
    simp only [List.forall_mem_cons, List.forall_mem_append, List.mem_flatMap]
    refine ⟨by decide, ?_, by simp⟩
    rintro d ⟨c, -, hd⟩
    exact quoteChar_oneLine c d hd
  -- The first quote opens the string, nothing within ends it, and the last quote closes it.
  · have hopen : step start '"' = some ⟨.text, []⟩ := rfl
    rw [hchars, run_cons, hopen, Option.bind_some, run_append, run_flatMap_quoteChar]
    rfl

/-- A quoted text is closed, whatever it says. -/
theorem Closed.quote (content : String) : Closed (Text.quote content) :=
  Text.quoted_ofString content ▸ .quoted content

/-! ## Closed lines -/

/-- The line opens a parenthesis before any other bracket or string, which only its last character
    closes. -/
structure ClosedLine (line : Text) : Prop where
  closed : Closed line
  paren : ∃ front body, line.chars = front ++ '(' :: (body ++ [')']) ∧
    (∀ c ∈ front, isPlain c) ∧
    ∀ before, before <+: body → ∃ mode stack,
      run start (front ++ '(' :: before) = some ⟨mode, stack ++ [.round]⟩

/-- A text before and a closed text within parentheses make up a closed line. -/
theorem ClosedLine.paren_of_closed {front : String} {body : Text} (hfront : isPlainText front)
    (hbody : Closed body) : ClosedLine (front ++ "(" ++ body ++ ")") := by
  have hchars : ∀ c ∈ front.toList, isPlain c := List.all_eq_true.mp hfront
  constructor
  · have := (Closed.plain hfront).append (hbody.bracketed .round)
    simpa [Bracket.texts, Text.append_assoc] using this
  · refine ⟨front.toList, body.chars, by simp, hchars, ?_⟩
    rintro before ⟨after, hsplit⟩
    -- The scanner gets through the body, so it gets through every part at its front, and the
    -- parenthesis stays open around what that part has opened.
    have hbefore : ∃ s, run start before = some s := by
      have hrun := hbody.balanced
      rw [← hsplit, run_append, Option.bind_eq_some_iff] at hrun
      obtain ⟨s, hs, -⟩ := hrun
      exact ⟨s, hs⟩
    obtain ⟨⟨mode, stack⟩, hs⟩ := hbefore
    have hopen : step start '(' = some (start.within [.round]) := rfl
    refine ⟨mode, stack, ?_⟩
    rw [run_append, show run start front.toList = some start from run_of_isPlain hchars [],
      Option.bind_some, run_cons, hopen]
    exact run_within [.round] hs

end SchemaClasses.Scan
