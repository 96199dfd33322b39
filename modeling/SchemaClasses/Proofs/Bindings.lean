import SchemaClasses.Proofs.References

/-!
# Bindings

Which names generated code binds, and where. A scanner reads the code line by line: a line binds a
name if it is the head of a class or an assignment, and the blanks before it say how deep within
classes that is. Documentation strings are passed over with the line that they end on.

What a text binds is told before whatever may follow it.
-/

namespace SchemaClasses.Text

open Literal (Stops)
open Token (isNameChar)

/-! ## The scanner -/

/-- A name that is bound, and how many blanks the line that binds it starts with. -/
structure Binding where
  depth : Nat
  name : String
deriving DecidableEq, Repr

/-- What follows the line that a text starts within. -/
def afterLine (text : List Char) : List Char :=
  (text.dropWhile (· != '\n')).tail

/-- The name that a line binds from behind its blanks on, if it binds one. -/
def boundName? (line : List Char) : Option String :=
  let word := line.takeWhile isNameChar
  let after := line.dropWhile isNameChar
  if isBinding after then some (String.ofList word)
  else if String.ofList word = "class" then
    some (String.ofList ((after.dropWhile (· == ' ')).takeWhile isNameChar))
  else none

theorem length_afterLine_le (text : List Char) : (afterLine text).length ≤ text.length - 1 := by
  have hdrop := (List.dropWhile_sublist (l := text) (· != '\n')).length_le
  rw [afterLine, List.length_tail]
  omega

def bindingsIn : List Char → List Binding
  | [] => []
  | c :: more =>
    let blanks := (c :: more).takeWhile (· == ' ')
    let line := (c :: more).dropWhile (· == ' ')
    if line.take 3 = ['"', '"', '"'] then bindingsIn (afterLine (afterDocstring (line.drop 3)))
    else
      (boundName? (line.takeWhile (· != '\n'))).toList.map (Binding.mk blanks.length)
        ++ bindingsIn (afterLine line)
termination_by text => text.length
decreasing_by
  all_goals have hline := (List.dropWhile_sublist (l := c :: more) (· == ' ')).length_le
  · have hdocstring := length_afterDocstring_le (((c :: more).dropWhile (· == ' ')).drop 3)
    have hafter := length_afterLine_le (afterDocstring (((c :: more).dropWhile (· == ' ')).drop 3))
    simp only [List.length_drop, List.length_cons] at *
    omega
  · have hafter := length_afterLine_le ((c :: more).dropWhile (· == ' '))
    simp only [List.length_cons] at *
    omega

/-- The names that a text binds, in order. -/
def bindings (text : Text) : List Binding :=
  bindingsIn text.chars

example : bindings ("class A(Union):\n    \"\"\"B = 1\nC = 2\"\"\"\n"
      ++ "    class Meta:\n        types = (A,)\n\nD = 3\n" : String) =
    [⟨0, "A"⟩, ⟨4, "Meta"⟩, ⟨8, "types"⟩, ⟨0, "D"⟩] := by
  cbv

/-! ## One line -/

/-- The text starts with a character that neither a blank nor a documentation string starts with. -/
def StartsLine (text : List Char) : Prop :=
  ∃ c more, text = c :: more ∧ c ≠ ' ' ∧ c ≠ '"'

theorem afterLine_append {line : List Char} (h : ∀ c ∈ line, c ≠ '\n') (rest : List Char) :
    afterLine (line ++ '\n' :: rest) = rest := by
  have hstops : Stops (· != '\n') ('\n' :: rest) := stops_cons rfl rest
  rw [afterLine, Literal.dropWhile_append_of_stops (by simpa using h) hstops, List.tail_cons]

/-- Blanks before other text. -/
theorem bindingsIn_blanks {text : List Char} (h : Stops (· == ' ') text) (hne : text ≠ [])
    (depth : Nat) :
    bindingsIn (List.replicate depth ' ' ++ text) =
      if text.take 3 = ['"', '"', '"'] then bindingsIn (afterLine (afterDocstring (text.drop 3)))
      else
        (boundName? (text.takeWhile (· != '\n'))).toList.map (Binding.mk depth)
          ++ bindingsIn (afterLine text) := by
  have hblanks : ∀ c ∈ List.replicate depth ' ', (c == ' ') = true := fun c hc => by
    rw [List.eq_of_mem_replicate hc]
    rfl
  cases hsplit : List.replicate depth ' ' ++ text with
  | nil => exact absurd (List.append_eq_nil_iff.mp hsplit).2 hne
  | cons c more =>
    rw [bindingsIn, ← hsplit, Literal.takeWhile_append_of_stops hblanks h,
      Literal.dropWhile_append_of_stops hblanks h, List.length_replicate]

/-- A line binds what it says, whatever follows it. -/
theorem bindingsIn_line {line : List Char} (hfeed : ∀ c ∈ line, c ≠ '\n') (hstart : StartsLine line)
    (depth : Nat) (rest : List Char) :
    bindingsIn (List.replicate depth ' ' ++ (line ++ '\n' :: rest)) =
      (boundName? line).toList.map (Binding.mk depth) ++ bindingsIn rest := by
  obtain ⟨c, more, rfl, hblank, hquote⟩ := hstart
  have hstops : Stops (· == ' ') (c :: more ++ '\n' :: rest) := stops_cons (by simpa using hblank) _
  have hcode : (c :: more ++ '\n' :: rest).take 3 ≠ ['"', '"', '"'] := by
    simp [hquote]
  have hfeeds : Stops (· != '\n') ('\n' :: rest) := stops_cons rfl rest
  have hline : (c :: more ++ '\n' :: rest).takeWhile (· != '\n') = c :: more :=
    Literal.takeWhile_append_of_stops (by simpa using hfeed) hfeeds
  rw [bindingsIn_blanks hstops (by simp), if_neg hcode, hline, afterLine_append hfeed]

/-- An empty line binds nothing. -/
theorem bindingsIn_empty (rest : List Char) : bindingsIn ('\n' :: rest) = bindingsIn rest := by
  have hstops : Stops (· == ' ') ('\n' :: rest) := stops_cons rfl rest
  have hnone : boundName? [] = none := rfl
  have hempty := bindingsIn_blanks hstops (by simp) 0
  rw [List.replicate_zero, List.nil_append, if_neg (by simp)] at hempty
  rw [hempty, List.takeWhile_cons_of_neg (by simp), hnone]
  rfl

/-- A documentation string binds nothing, even if a quote of it is left over. -/
theorem bindingsIn_docstring (depth : Nat) (text : String) (rest : List Char) :
    bindingsIn (List.replicate depth ' ' ++ ((docstring text).toList ++ '\n' :: rest)) =
      bindingsIn rest := by
  have hchars : (docstring text).toList ++ '\n' :: rest = '"' :: '"' :: '"' ::
      (escapeLastQuote (escapeDoc text.toList) ++ '"' :: '"' :: '"' :: '\n' :: rest) := by
    simp [docstring, docstringChars]
  rw [hchars, bindingsIn_blanks (stops_cons rfl _) (by simp)]
  simp only [List.take_succ_cons, List.take_zero, if_true, List.drop_succ_cons, List.drop_zero]
  rcases Uses.afterDocstring_body text.toList ('\n' :: rest) with heq | heq
  · have hafter : afterLine ('\n' :: rest) = rest := rfl
    rw [heq, hafter]
  · have hafter : afterLine ('"' :: '\n' :: rest) = rest := rfl
    rw [heq, hafter]

/-! ## Heads of classes and assignments -/

/-- A name starts neither like a blank nor like a documentation string. -/
theorem isIdentifier.startsLine {name : String} (h : isIdentifier name) (rest : List Char) :
    StartsLine (name.toList ++ rest) := by
  obtain ⟨c, more, heq, hc⟩ := isIdentifier.exists_cons h
  refine ⟨c, more ++ rest, by rw [heq, List.cons_append], ?_, ?_⟩
  all_goals
    rintro rfl
    exact absurd hc (by decide)

theorem isIdentifier.ne_feed {name : String} (h : isIdentifier name) :
    ∀ c ∈ name.toList, c ≠ '\n' := by
  rintro c hc rfl
  exact absurd (isIdentifierChars.nameChars h _ hc) (by decide)

/-- What stands before an equals sign is bound. -/
theorem boundName?_assignment {name : String} (h : isIdentifier name) (value : List Char) :
    boundName? (name.toList ++ (" = ".toList ++ value)) = some name := by
  have hchars := isIdentifierChars.nameChars h
  have hstops : Stops isNameChar (" = ".toList ++ value) := stops_cons rfl _
  have hbinding : isBinding (" = ".toList ++ value) = true := rfl
  simp only [boundName?, Literal.takeWhile_append_of_stops hchars hstops,
    Literal.dropWhile_append_of_stops hchars hstops, hbinding, if_true, String.ofList_toList]

/-- The head of a class binds the name of the class. -/
theorem boundName?_class {name : String} (h : isIdentifier name) {tail : List Char}
    (htail : Stops isNameChar tail) :
    boundName? ("class".toList ++ ([' '] ++ (name.toList ++ tail))) = some name := by
  have hclass : ∀ c ∈ "class".toList, isNameChar c := List.all_eq_true.mp rfl
  have hblank : ∀ c ∈ [' '], (c == ' ') = true := by simp
  have hname := isIdentifierChars.nameChars h
  have hafterClass : Stops isNameChar ([' '] ++ (name.toList ++ tail)) := stops_cons rfl _
  have hafterBlank : Stops (· == ' ') (name.toList ++ tail) := by
    obtain ⟨c, more, heq, hne, -⟩ := isIdentifier.startsLine h tail
    rw [heq]
    exact stops_cons (by simpa using hne) more
  have hbinding : isBinding ([' '] ++ (name.toList ++ tail)) = false := by
    have hunbinding : Unbinding (name.toList ++ tail) := unbinding_identifier h tail
    simpa [Unbinding, isBinding] using hunbinding
  simp only [boundName?, Literal.takeWhile_append_of_stops hclass hafterClass,
    Literal.dropWhile_append_of_stops hclass hafterClass, hbinding, Bool.false_eq_true, if_false,
    String.ofList_toList, if_true, Literal.dropWhile_append_of_stops hblank hafterBlank,
    Literal.takeWhile_append_of_stops hname htail]

/-! ## Lines and blocks -/

/-- The name behind so many blanks more. -/
def Binding.within (depth : Nat) (b : Binding) : Binding :=
  ⟨depth + b.depth, b.name⟩

/-- Within how many blanks the line ever stands, it binds these names there, whatever follows it. -/
def LineBinds (line : Text) (bound : List Binding) : Prop :=
  ∀ depth rest, bindingsIn (List.replicate depth ' ' ++ (line.chars ++ '\n' :: rest)) =
    bound.map (Binding.within depth) ++ bindingsIn rest

/-- The text consists of whole lines that bind these names, whatever follows them. -/
def Binds (text : Text) (bound : List Binding) : Prop :=
  ∀ rest, bindingsIn (text.chars ++ rest) = bound ++ bindingsIn rest

namespace LineBinds

theorem line {line : Text} (hfeed : ∀ c ∈ line.chars, c ≠ '\n')
    (hstart : StartsLine line.chars) :
    LineBinds line ((boundName? line.chars).toList.map (Binding.mk 0)) := by
  intro depth rest
  have hdepth : Binding.within depth ∘ Binding.mk 0 = Binding.mk depth := rfl
  rw [bindingsIn_line hfeed hstart, List.map_map, hdepth]

theorem assignment {name : String} {value : Text} (hname : isIdentifier name)
    (hvalue : ∀ c ∈ value.chars, c ≠ '\n') : LineBinds (name ++ " = " ++ value) [⟨0, name⟩] := by
  have hchars : (name ++ " = " ++ value : Text).chars =
      name.toList ++ (" = ".toList ++ value.chars) := by
    simp
  have hfeed : ∀ c ∈ (name ++ " = " ++ value : Text).chars, c ≠ '\n' := by
    rw [hchars]
    simp only [List.forall_mem_append]
    exact ⟨isIdentifier.ne_feed hname, by simp, hvalue⟩
  have hstart : StartsLine (name ++ " = " ++ value : Text).chars := by
    rw [hchars]
    exact isIdentifier.startsLine hname _
  have hline := line hfeed hstart
  rwa [hchars, boundName?_assignment hname] at hline

theorem classHead {name tail : String} (hname : isIdentifier name)
    (hstops : Stops isNameChar tail.toList) (htail : ∀ c ∈ tail.toList, c ≠ '\n') :
    LineBinds ("class " ++ name ++ tail : String) [⟨0, name⟩] := by
  have hchars : (Text.ofString ("class " ++ name ++ tail)).chars =
      "class".toList ++ ([' '] ++ (name.toList ++ tail.toList)) := by
    simp
  have hclass : isIdentifier "class" := rfl
  have hfeed : ∀ c ∈ (Text.ofString ("class " ++ name ++ tail)).chars, c ≠ '\n' := by
    rw [hchars]
    simp only [List.forall_mem_append]
    exact ⟨isIdentifier.ne_feed hclass, by simp, isIdentifier.ne_feed hname, htail⟩
  have hstart : StartsLine (Text.ofString ("class " ++ name ++ tail)).chars := by
    rw [hchars]
    exact isIdentifier.startsLine hclass _
  have hline := line hfeed hstart
  rwa [hchars, boundName?_class hname hstops] at hline

/-- No line within a documentation string binds anything, whatever its text. -/
theorem docstring (text : String) : LineBinds (Text.docstring text) [] := by
  intro depth rest
  rw [chars_ofString, bindingsIn_docstring]
  rfl

/-- A line that is indented binds the same names, so many blanks further in. -/
theorem indented {line : Text} {bound : List Binding} (h : LineBinds line bound) :
    LineBinds ("    " ++ line) (bound.map (Binding.within 4)) := by
  intro depth rest
  have hchars : List.replicate depth ' ' ++ (("    " ++ line : Text).chars ++ '\n' :: rest) =
      List.replicate (depth + 4) ' ' ++ (line.chars ++ '\n' :: rest) := by
    rw [← List.replicate_append_replicate]
    simp
  have hdepth : Binding.within depth ∘ Binding.within 4 = Binding.within (depth + 4) :=
    funext fun b => congrArg (Binding.mk · b.name) (Nat.add_assoc depth 4 b.depth).symm
  rw [hchars, h, List.map_map, hdepth]

theorem binds {line : Text} {bound : List Binding} (h : LineBinds line bound) :
    Binds (line ++ "\n") bound := by
  intro rest
  have hline := h 0 rest
  have hdepth : Binding.within 0 = id :=
    funext fun b => congrArg (Binding.mk · b.name) b.depth.zero_add
  rw [List.replicate_zero, List.nil_append, hdepth, List.map_id] at hline
  simpa using hline

end LineBinds

namespace Binds

variable {text front back : Text} {bound more : List Binding}

/-- The names that whole lines bind are those found in the text. -/
theorem bindings_eq (h : Binds text bound) : bindings text = bound := by
  have hall := h []
  rwa [List.append_nil, bindingsIn, List.append_nil] at hall

theorem empty : Binds "" [] := fun _ => rfl

theorem emptyLine : Binds "\n" [] := bindingsIn_empty

theorem append (hfront : Binds front bound) (hback : Binds back more) :
    Binds (front ++ back) (bound ++ more) := by
  intro rest
  rw [chars_append, List.append_assoc, hfront, hback, List.append_assoc]

/-- Lines bind what each of them does, in order. -/
theorem lines {lines : List Text} {bound : List (List Binding)} (hne : lines ≠ [])
    (h : List.Forall₂ LineBinds lines bound) :
    Binds (join "\n" lines ++ "\n") bound.flatten := by
  induction h with
  | nil => exact absurd rfl hne
  | @cons line bound lines more hline hrest ih =>
    cases hrest with
    | nil =>
      rw [join_singleton, List.flatten_singleton]
      exact hline.binds
    | cons hsecond hmore =>
      rw [join_cons_cons, Text.append_assoc, List.flatten_cons]
      exact hline.binds.append (ih (List.cons_ne_nil _ _))

end Binds

end SchemaClasses.Text
