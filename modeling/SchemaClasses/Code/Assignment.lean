import SchemaClasses.Code.Call
import SchemaClasses.Code.Import
import SchemaClasses.Text.Identifier
import SchemaClasses.Text.Quoted

/-!
# Assignments

Lines `name = call` of a class body, and how names that are taken give way.
-/

namespace SchemaClasses

/-- A name bound to a call. -/
structure Assignment where
  name : String
  call : Call
  /-- The names of the class library that the call refers to. -/
  imports : List Import := []
  /-- The name in the schema; empty if it is the bound name. -/
  schemaName : String := ""
deriving Repr, Inhabited, DecidableEq

namespace Assignment

def render (a : Assignment) : Text :=
  a.name ++ " = " ++ a.call.render

/-- The keyword form within the call of a field. -/
def asArgument (a : Assignment) : String × Call :=
  (a.name, a.call.retarget "Argument")

/-- The name that the schema knows the assignment by. -/
def pinnedName (a : Assignment) : String :=
  if a.schemaName.isEmpty then a.name else a.schemaName

/-- The assignment under another name; a keyword keeps its name in the schema. -/
def renamed (a : Assignment) (name : String) : Assignment :=
  { a with name, call := a.call.merge [("name", some (.source (Text.quote a.pinnedName)))] }

/-! ## Names that are taken -/

def underscored (name : String) (count : Nat) : String :=
  name ++ String.ofList (List.replicate count '_')

/-- The name with as few underscores after it as make it differ from all names taken. One count
    more than there are names taken leaves one that is free. -/
def freshName (taken : List String) (name : String) : String :=
  let isFree (count : Nat) : Bool := !taken.contains (underscored name count)
  underscored name (((List.range (taken.length + 1)).find? isFree).getD 0)

/-- The assignment under a name that is free. -/
def avoiding (taken : List String) (a : Assignment) : Assignment :=
  let name := freshName taken a.name
  if name = a.name then a else a.renamed name

/-- The assignments in order, renamed where their name is taken by one before or is in `taken`. -/
def uniqueFrom (taken : List String) : List Assignment → List Assignment
  | [] => []
  | a :: rest =>
    let a := a.avoiding taken
    a :: uniqueFrom (a.name :: taken) rest

/-- The assignments in order, renamed where one before has their name. -/
def unique (assignments : List Assignment) : List Assignment :=
  uniqueFrom [] assignments

end Assignment

end SchemaClasses
