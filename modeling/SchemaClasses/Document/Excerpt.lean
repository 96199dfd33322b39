import SchemaClasses.Text.Lines

/-!
# Excerpts

A place in a text as line and column, and the lines around it with a caret below the place.
-/

namespace SchemaClasses

/-- A line and a column, both counted from one. -/
structure Location where
  line : Nat
  column : Nat
deriving DecidableEq, Repr

namespace Location

/-- The place of the character with `offset` characters before it. -/
def ofOffset (text : List Char) (offset : Nat) : Location :=
  let begun := (Text.numberedLines text).filter fun (start, _) => start ≤ offset
  let start := (begun.getLast?.map (·.1)).getD 0
  ⟨begun.length, offset - start + 1⟩

end Location

/-! ## Numbered rows -/

/-- A row of an excerpt: the mark before it and its text. -/
abbrev Row := String × List Char

/-- `width` columns wide, the text at the right. -/
def padStart (width : Nat) (text : List Char) : List Char :=
  List.replicate (width - text.length) ' ' ++ text

/-- The rows with their marks in one column; an empty text leaves no blank behind its mark. -/
def printRows (rows : List Row) : String :=
  let width := rows.foldl (fun w (mark, _) => max w mark.length) 0
  Text.joinWith "\n" (rows.map fun (mark, text) =>
    String.ofList (padStart width mark.toList ++ (if text.isEmpty then [] else ' ' :: text)))

/-- The text in pieces of `size` characters, the last one shorter if need be. -/
def chunks (size : Nat) (text : List Char) : List (List Char) :=
  (List.range ((text.length + size - 1) / size)).map fun i => (text.drop (i * size)).take size

/-! ## Excerpts -/

/-- A line of more than this many characters is shown in pieces. -/
def longLine : Nat := 120

/-- How many characters a piece of a long line has. -/
def pieceLength : Nat := 80

/-- The place, and the line that it is on with its neighbours. A long line is shown without its
    neighbours, in pieces up to the one with the place and one more. -/
def excerpt (text : List Char) (offset : Nat) : String :=
  let place := Location.ofOffset text offset
  let lines := (Text.numberedLines text).map (·.2)
  let line := lines[place.line - 1]?.getD []
  let mark (number : Nat) : String := s!"{number} |"
  let caret (column : Nat) : List Char := padStart column ['^']
  let rows : List Row :=
    if line.length > longLine then
      let pieces := chunks pieceLength line
      let last := place.column / pieceLength
      [(mark place.line, pieces.headD [])]
        ++ ((pieces.drop 1).take last).map (("|", ·))
        ++ [("|", caret (place.column % pieceLength))]
        ++ (pieces.drop (last + 1)).head?.toList.map (("|", ·))
    else
      (if place.line = 1 then []
        else [(mark (place.line - 1), lines[place.line - 2]?.getD [])])
        ++ [(mark place.line, line), ("|", caret place.column)]
        ++ (lines[place.line]?.toList.map ((mark (place.line + 1), ·)))
  s!"GraphQL request:{place.line}:{place.column}\n{printRows rows}"

end SchemaClasses
