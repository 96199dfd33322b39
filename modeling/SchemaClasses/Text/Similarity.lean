/-!
# Similarity

How much two texts have in common: the longest block that both share, and what the parts before it
and the parts after it share in turn.
-/

namespace SchemaClasses.Text

/-- How long the texts agree from their fronts on. -/
def commonLength : List Char → List Char → Nat
  | a :: as, b :: bs => if a = b then commonLength as bs + 1 else 0
  | _, _ => 0

/-- A block that two texts share: where it starts in each, and its size. -/
structure Block where
  left : Nat
  right : Nat
  size : Nat
deriving DecidableEq, Repr

/-- The longest shared block; of several the one that starts first in `a`, then in `b`. -/
def longestBlock (a b : List Char) : Block :=
  let places := (List.range a.length).flatMap fun i => (List.range b.length).map fun j => (i, j)
  places.foldl (fun best (i, j) =>
    let size := commonLength (a.drop i) (b.drop j)
    if best.size < size then ⟨i, j, size⟩ else best) ⟨0, 0, 0⟩

/-- How many characters are in shared blocks. Each level of recursion takes a block away, so the
    length of a text is fuel enough. -/
def sharedLength : (fuel : Nat) → List Char → List Char → Nat
  | 0, _, _ => 0
  | fuel + 1, a, b =>
    let block := longestBlock a b
    if block.size = 0 then 0
    else
      sharedLength fuel (a.take block.left) (b.take block.right) + block.size
        + sharedLength fuel (a.drop (block.left + block.size)) (b.drop (block.right + block.size))

/-- How many characters are in shared blocks. -/
def shared (a b : String) : Nat :=
  sharedLength a.length a.toList b.toList

/-- Whether at least six tenths of the characters of two texts are in shared blocks. No more
    characters can be shared than the shorter text has. -/
def isClose (a b : String) : Bool :=
  6 * (a.length + b.length) ≤ 20 * min a.length b.length
    && 6 * (a.length + b.length) ≤ 20 * shared a b

/-- The texts that are close to a word, the closest first and at most three. -/
def closeMatches (word : String) (options : List String) : List String :=
  let close := options.filter (isClose · word)
  -- the order of two ratios is the order of the crossed products
  let sorted := close.mergeSort fun a b =>
    let left := shared a word * (b.length + word.length)
    let right := shared b word * (a.length + word.length)
    left > right || (left == right && b ≤ a)
  sorted.take 3

end SchemaClasses.Text
