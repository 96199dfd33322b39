import SchemaClasses.Text.Lines
import SchemaClasses.Keyed

/-!
# Calls

Calls of the generated code, kept as trees until they are rendered, so that keywords can be added
and replaced.
-/

namespace SchemaClasses

/-! ## Expressions -/

/-- Source text, or a call with positional and keyword parts. -/
inductive Expr
  | source (text : Text)
  | call (callee : String) (args : List Expr) (keywords : List (String × Expr))
deriving Repr, Inhabited

namespace Expr

mutual

def decEq : (a b : Expr) → Decidable (a = b)
  | .source s, .source t =>
    if h : s = t then isTrue (by rw [h]) else isFalse (by simpa using h)
  | .source _, .call .. => isFalse (by simp)
  | .call .., .source _ => isFalse (by simp)
  | .call f as ks, .call g bs ls =>
    if h : f = g then
      match decEqArgs as bs, decEqKeywords ks ls with
      | isTrue ha, isTrue hk => isTrue (by rw [h, ha, hk])
      | isFalse ha, _ => isFalse (by simp [ha])
      | _, isFalse hk => isFalse (by simp [hk])
    else isFalse (by simp [h])

def decEqArgs : (as bs : List Expr) → Decidable (as = bs)
  | [], [] => isTrue rfl
  | [], _ :: _ => isFalse (by simp)
  | _ :: _, [] => isFalse (by simp)
  | a :: as, b :: bs =>
    match decEq a b, decEqArgs as bs with
    | isTrue h, isTrue hs => isTrue (by rw [h, hs])
    | isFalse h, _ => isFalse (by simp [h])
    | _, isFalse hs => isFalse (by simp [hs])

def decEqKeywords : (ks ls : List (String × Expr)) → Decidable (ks = ls)
  | [], [] => isTrue rfl
  | [], _ :: _ => isFalse (by simp)
  | _ :: _, [] => isFalse (by simp)
  | (k, a) :: ks, (l, b) :: ls =>
    if h : k = l then
      match decEq a b, decEqKeywords ks ls with
      | isTrue ha, isTrue hs => isTrue (by rw [h, ha, hs])
      | isFalse ha, _ => isFalse (by simp [ha])
      | _, isFalse hs => isFalse (by simp [hs])
    else isFalse (by simp [h])

end

instance : DecidableEq Expr := decEq

mutual

def render : Expr → Text
  | .source text => text
  | .call callee args keywords =>
    callee ++ "(" ++ Text.join ", " (renderArgs args ++ renderKeywords keywords) ++ ")"

/-- The positional parts as source text. -/
def renderArgs : List Expr → List Text
  | [] => []
  | arg :: rest => render arg :: renderArgs rest

def renderKeywords : List (String × Expr) → List Text
  | [] => []
  | (key, value) :: rest => (key ++ "=" ++ render value) :: renderKeywords rest

end

def isEmpty : Expr → Bool
  | .source text => text.isEmpty
  | .call .. => false

end Expr

/-! ## Calls -/

/-- A call with positional parts and keyword parts. -/
structure Call where
  callee : String
  args : List Expr
  keywords : List (String × Expr)
deriving Repr, Inhabited, DecidableEq

namespace Call

/-- The call as an expression. -/
def toExpr (call : Call) : Expr :=
  .call call.callee call.args call.keywords

def render (call : Call) : Text :=
  call.toExpr.render

/-- The same parts with another callee. -/
def retarget (call : Call) (callee : String) : Call :=
  { call with callee }

/-- The value of a keyword. -/
def keyword? (call : Call) (key : String) : Option Expr :=
  call.keywords.lookup key

/-- The call with one keyword set: in place if it is there, else at the end. -/
def setKeyword (call : Call) (key : String) (value : Expr) : Call :=
  { call with keywords := Keyed.insert key value call.keywords }

/-- The call with one keyword set, unless there is no value for it or an empty one. -/
def mergeOne (call : Call) : String × Option Expr → Call
  | (key, some value) => if value.isEmpty then call else call.setKeyword key value
  | (_, none) => call

/-- The call with keywords set in order. -/
def merge (call : Call) (keywords : List (String × Option Expr)) : Call :=
  keywords.foldl mergeOne call

end Call

end SchemaClasses
