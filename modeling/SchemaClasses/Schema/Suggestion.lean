import SchemaClasses.Text.Lines

/-!
# Suggestions

Names that are close to an unknown one. Closeness counts insertions, deletions, replacements and
swaps of neighbours; a name that differs in case alone is one step away.
-/

namespace SchemaClasses.Suggestion

/-! ## Distance -/

def lower (text : String) : List Char :=
  text.toList.map Char.toLower

/-- The cells of a row of the distance table that follow the cell `left`, one for each character of
    the columns left over. The row is the one of the character `a`, which comes after `previous`;
    `before` is the character of the column of `left`. The row above is given from the column of
    `left` on, the one above that from the column before that of `left` on. -/
def cells (a : Char) (previous : Option Char) (left : Nat) (before : Option Char) :
    (columns : List Char) → (up upTwo : List Nat) → List Nat
  | b :: columns, diagonal :: above :: up, upTwo =>
    let plain := min (min above left + 1) (diagonal + if a = b then 0 else 1)
    let cell :=
      if before = some a && previous = some b then min plain (upTwo.headD 0 + 1) else plain
    cell :: cells a previous cell (some b) columns (above :: up)
      (if before.isSome then upTwo.tail else upTwo)
  | _, _, _ => []

/-- The last row of the distance table, from the row `up` for the characters so far, the last of
    which is `previous`, and the row above that. -/
def lastRow (columns : List Char) (number : Nat) (previous : Option Char) (up upTwo : List Nat) :
    List Char → List Nat
  | [] => up
  | a :: rest =>
    let row := number :: cells a previous number none columns up upTwo
    lastRow columns (number + 1) (some a) row up rest

/-- How many steps lead from one text to the other. -/
def editDistance (a b : List Char) : Nat :=
  (lastRow b 1 none (List.range (b.length + 1)) [] a).getLast?.getD 0

/-- How far an option is from the unknown name. -/
def distance (unknown option : String) : Nat :=
  if unknown = option then 0
  else if lower unknown = lower option then 1
  else editDistance (lower option) (lower unknown)

/-- How far an option may be from the unknown name. -/
def threshold (unknown : String) : Nat :=
  unknown.length * 2 / 5 + 1

/-- How far an option is from the unknown name, if that is not too far. The lengths of two texts
    differ by no more than their distance. -/
def distance? (unknown option : String) : Option Nat :=
  let limit := threshold unknown
  if limit < max unknown.length option.length - min unknown.length option.length then none
  else
    let steps := distance unknown option
    if steps ≤ limit then some steps else none

/-! ## Order -/

/-- A run of characters without digits, or a run of digits. -/
inductive Chunk
  | text (chars : List Char)
  | number (value : Nat) (digits : List Char)

/-- The runs of a text, runs with and without digits in turn, the first without. -/
def chunksFrom (current : List Char) (numeric : Bool) : List Char → List Chunk
  | [] => [close current numeric]
  | c :: rest =>
    if c.isDigit = numeric then chunksFrom (c :: current) numeric rest
    else close current numeric :: chunksFrom [c] (!numeric) rest
where
  /-- The run that was collected, last character first. -/
  close (current : List Char) (numeric : Bool) : Chunk :=
    if numeric then .number (Nat.ofDigitChars 10 current.reverse 0) current.reverse
    else .text current.reverse

def chunksOf (text : String) : List Chunk :=
  chunksFrom [] false text.toList

/-- Order of two lists of characters by code point. -/
def compareChars (a b : List Char) : Ordering :=
  if a = b then .eq else if a < b then .lt else .gt

def compareChunk : Chunk → Chunk → Ordering
  | .text a, .text b => compareChars a b
  | .number m a, .number n b => (compare m n).then (compareChars a b)
  | .text _, .number _ _ => .lt
  | .number _ _, .text _ => .gt

/-- Order of two names, runs of digits by their value. -/
def compareChunks : List Chunk → List Chunk → Ordering
  | [], [] => .eq
  | [], _ => .lt
  | _, [] => .gt
  | a :: as, b :: bs => (compareChunk a b).then (compareChunks as bs)

/-- The list without repetitions, the first of equal elements kept. -/
def distinct : List String → List String
  | [] => []
  | a :: rest => a :: (distinct rest).filter (· ≠ a)

/-- The options that are close to the unknown name, the closest first. -/
def suggestions (unknown : String) (options : List String) : List String :=
  let close := (distinct options).filterMap fun option =>
    (distance? unknown option).map (·, option)
  let sorted := close.mergeSort fun (m, a) (n, b) =>
    ((compare m n).then (compareChunks (chunksOf a) (chunksOf b))) != .gt
  sorted.map (·.2)

/-! ## Wording -/

def choice : List String → String
  | [] => ""
  | [a] => a
  | [a, b] => a ++ " or " ++ b
  | names => Text.joinWith ", " names.dropLast ++ ", or " ++ names.getLast?.getD ""

/-- The question that follows a message on an unknown name; at most five names are offered. -/
def didYouMean (names : List String) : String :=
  if names.isEmpty then ""
  else " Did you mean " ++ choice ((names.take 5).map fun name => "'" ++ name ++ "'") ++ "?"

/-- The question with the options that are close to the unknown name. -/
def question (unknown : String) (options : List String) : String :=
  didYouMean (suggestions unknown options)

end SchemaClasses.Suggestion
