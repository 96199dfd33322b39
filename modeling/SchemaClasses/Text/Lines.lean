import SchemaClasses.Text.Basic

/-!
# Lines

Joining pieces, and what counts as the end of a line.
-/

namespace SchemaClasses.Text

/-! ## Joining -/

/-- The pieces in order with `separator` between neighbours. -/
def joinWith (separator : String) : List String → String
  | [] => ""
  | [piece] => piece
  | piece :: rest => piece ++ separator ++ joinWith separator rest

@[simp] theorem joinWith_nil (separator : String) : joinWith separator [] = "" := rfl
@[simp] theorem joinWith_singleton (separator piece : String) :
    joinWith separator [piece] = piece := rfl
@[simp] theorem joinWith_cons_cons (separator a b : String) (rest : List String) :
    joinWith separator (a :: b :: rest) = a ++ separator ++ joinWith separator (b :: rest) := rfl

def concat : List String → String
  | [] => ""
  | piece :: rest => piece ++ concat rest

@[simp] theorem concat_nil : concat [] = "" := rfl
@[simp] theorem concat_cons (piece : String) (rest : List String) :
    concat (piece :: rest) = piece ++ concat rest := rfl

/-- The texts in order with `separator` between neighbours. -/
def join (separator : String) : List Text → Text
  | [] => ""
  | [text] => text
  | text :: rest => text ++ separator ++ join separator rest

@[simp] theorem join_nil (separator : String) : join separator [] = "" := rfl
@[simp] theorem join_singleton (separator : String) (text : Text) :
    join separator [text] = text := rfl
@[simp] theorem join_cons_cons (separator : String) (a b : Text) (rest : List Text) :
    join separator (a :: b :: rest) = a ++ separator ++ join separator (b :: rest) := rfl

/-- Strings are joined alike as texts. -/
theorem ofString_joinWith (separator : String) (pieces : List String) :
    ofString (joinWith separator pieces) = join separator (pieces.map ofString) := by
  fun_induction joinWith separator pieces with
  | case1 => rfl
  | case2 piece => rfl
  | case3 piece rest hrest ih =>
    cases rest with
    | nil => exact absurd rfl hrest
    | cons next more => simp [ih]

/-- The code points of joined texts are those of the texts and of what is between them. -/
theorem forall_mem_join {P : CodePoint → Prop} {separator : String}
    (h : ∀ point ∈ (ofString separator).points, P point) (texts : List Text) :
    (∀ point ∈ (join separator texts).points, P point) ↔
      ∀ text ∈ texts, ∀ point ∈ text.points, P point := by
  fun_induction join separator texts with
  | case1 => simp
  | case2 text => simp
  | case3 text rest _ ih =>
    rw [points_append, points_append, List.forall_mem_append, List.forall_mem_append, ih,
      List.forall_mem_cons]
    exact and_congr_left fun _ => and_iff_left h

def flatten : List Text → Text
  | [] => ""
  | text :: rest => text ++ flatten rest

@[simp] theorem flatten_nil : flatten [] = "" := rfl
@[simp] theorem flatten_cons (text : Text) (rest : List Text) :
    flatten (text :: rest) = text ++ flatten rest := rfl

/-! ## Line ends -/

/-- Every line end becomes a line feed: a carriage return with the line feed that may follow it is
    one line end, and so is a carriage return alone. -/
def unifyLineEnds : List Char → List Char
  | [] => []
  | '\r' :: '\n' :: rest => '\n' :: unifyLineEnds rest
  | '\r' :: rest => '\n' :: unifyLineEnds rest
  | c :: rest => c :: unifyLineEnds rest

/-- The lines of a text, without their ends; a text always has at least one line. Each line comes
    with the offset of its first character, counted from `start`. -/
def linesFrom (start : Nat) (offset : Nat) (line : List Char) :
    List Char → List (Nat × List Char)
  | [] => [(start, line.reverse)]
  | '\r' :: '\n' :: rest => (start, line.reverse) :: linesFrom (offset + 2) (offset + 2) [] rest
  | '\r' :: rest => (start, line.reverse) :: linesFrom (offset + 1) (offset + 1) [] rest
  | '\n' :: rest => (start, line.reverse) :: linesFrom (offset + 1) (offset + 1) [] rest
  | c :: rest => linesFrom start (offset + 1) (c :: line) rest

/-- The lines of a text, each with the offset of its first character. -/
def numberedLines (text : List Char) : List (Nat × List Char) :=
  linesFrom 0 0 [] text

/-- The text without the line feeds at its end. -/
def dropEndLineFeeds (text : Text) : Text :=
  ⟨(text.points.reverse.dropWhile (· == CodePoint.char '\n')).reverse⟩

/-- The text without the line feeds at either end. -/
def trimLineFeeds (text : Text) : Text :=
  dropEndLineFeeds ⟨text.points.dropWhile (· == CodePoint.char '\n')⟩

end SchemaClasses.Text
