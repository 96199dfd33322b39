import SchemaClasses.Proofs.Naming
import SchemaClasses.Proofs.MergeLaws
import SchemaClasses.Proofs.Literals.Quotes

/-!
# Renaming

What an assignment under another name keeps: everything but its name and the keyword for its name in
the schema. Of several renamings only the last one shows. Where an assignment does not say what the
schema calls it, that is taken to be its name before the last renaming, which is no name of the
schema if it comes from a renaming itself.
-/

namespace SchemaClasses.Assignment

/-! ## One renaming -/

/-- `b` is `a` under the name `name`, and its call says that the schema calls it `pinned`, in the
    place where the call of `a` says what the schema calls that, else at the end. Nothing else
    differs. -/
structure IsRenaming (a b : Assignment) (name pinned : String) : Prop where
  name : b.name = name
  schemaName : b.schemaName = a.schemaName
  imports : b.imports = a.imports
  callee : b.call.callee = a.call.callee
  args : b.call.args = a.call.args
  pin : b.call.keyword? "name" = some (.source (Text.quote pinned))
  argument : b.asArgument.2.keyword? "name" = some (.source (Text.quote pinned))
  others : b.call.keywords.filter (·.1 ≠ "name") = a.call.keywords.filter (·.1 ≠ "name")
  keys : Keyed.keys b.call.keywords =
    if "name" ∈ Keyed.keys a.call.keywords then Keyed.keys a.call.keywords
    else Keyed.keys a.call.keywords ++ ["name"]

/-- The assignment under another name, with this one as its name in the schema. -/
def pinning (a : Assignment) (name pinned : String) : Assignment :=
  { a with name, call := a.call.setKeyword "name" (.source (Text.quote pinned)) }

/-- A renaming pins the name that the assignment has in the schema. -/
theorem renamed_eq (a : Assignment) (name : String) :
    a.renamed name = a.pinning name a.pinnedName := by
  simp only [renamed, pinning, Call.merge_cons, Call.mergeOne, quote_isEmpty, Bool.false_eq_true,
    if_false, Call.merge_nil]

theorem isRenaming_pinning (a : Assignment) (name pinned : String) :
    IsRenaming a (a.pinning name pinned) name pinned where
  name := rfl
  schemaName := rfl
  imports := rfl
  callee := rfl
  args := rfl
  pin := Keyed.lookup_insert_self _ _ _
  argument := Keyed.lookup_insert_self _ _ _
  others := Keyed.filter_insert
  keys := Keyed.keys_insert

/-- Of two renamings the last one counts. -/
@[simp] theorem pinning_pinning (a : Assignment) (first second pinned other : String) :
    (a.pinning first pinned).pinning second other = a.pinning second other := by
  simp only [pinning, Call.setKeyword, Keyed.insert_insert_self]

/-- Which name is pinned can be read off the call. -/
theorem pinning_inj {a : Assignment} {name pinned other : String} :
    a.pinning name pinned = a.pinning name other ↔ pinned = other := by
  constructor
  · intro h
    have hpin := (isRenaming_pinning a name pinned).pin
    rw [h, (isRenaming_pinning a name other).pin, Option.some.injEq, Expr.source.injEq,
      Text.ofString_inj] at hpin
    have hchars : (Text.quote other).toList ++ [] = (Text.quote pinned).toList ++ [] := by rw [hpin]
    exact (Literal.quote_append_inj hchars).1.symm
  · rintro rfl
    rfl

/-! ## Several renamings -/

/-- The assignment under one name after the other. -/
def renamedThrough (a : Assignment) (names : List String) : Assignment :=
  names.foldl renamed a

/-- The name in the schema as a renaming after these ones finds it: the name that is given or, where
    none is, the name that the assignment has then. -/
def pinAfter (a : Assignment) (names : List String) : String :=
  if a.schemaName.isEmpty then names.getLast?.getD a.name else a.schemaName

/-- A sequence of renamings comes to its last one, with the name that the others lead to. -/
theorem renamedThrough_concat (a : Assignment) (names : List String) (last : String) :
    a.renamedThrough (names ++ [last]) = a.pinning last (a.pinAfter names) := by
  induction names using List.reverseRecOn generalizing last with
  | nil => exact renamed_eq a last
  | append_singleton front name ih =>
    have hbefore : a.renamedThrough (front ++ [name]) = a.pinning name (a.pinAfter front) := ih name
    calc a.renamedThrough (front ++ [name] ++ [last])
      _ = (a.renamedThrough (front ++ [name])).renamed last := List.foldl_concat ..
      _ = (a.pinning name (a.pinAfter front)).renamed last := by rw [hbefore]
      _ = a.pinning last (a.pinning name (a.pinAfter front)).pinnedName := by
        rw [renamed_eq, pinning_pinning]
      _ = a.pinning last (a.pinAfter (front ++ [name])) := by
        simp [pinnedName, pinning, pinAfter]

/-- The name in the schema is kept if it is given, or if the last renaming gives the assignment its
    own name back. -/
theorem pinAfter_eq_pinnedName_iff (a : Assignment) (names : List String) :
    a.pinAfter names = a.pinnedName ↔
      a.schemaName ≠ "" ∨ names.getLast?.getD a.name = a.name := by
  by_cases h : a.schemaName = "" <;> simp [pinAfter, pinnedName, h]

/-- Of several renamings the last one gives the name, and nothing but that and the keyword for the
    name in the schema changes, also where the assignment is an argument. They come to the same as the
    last one alone if and only if they pin the same name, and that they do if and only if the name in
    the schema is given or the name right before the last is the first one. -/
theorem renamedThrough_pins (a : Assignment) (names : List String) (last : String) :
    IsRenaming a (a.renamedThrough (names ++ [last])) last (a.pinAfter names) ∧
      (a.renamedThrough (names ++ [last]) = a.renamed last ↔ a.pinAfter names = a.pinnedName) ∧
      (a.pinAfter names = a.pinnedName ↔
        a.schemaName ≠ "" ∨ names.getLast?.getD a.name = a.name) := by
  rw [renamedThrough_concat, renamed_eq]
  exact ⟨isRenaming_pinning a last _, pinning_inj, pinAfter_eq_pinnedName_iff a names⟩

/-- A field with the name of a keyword that does not say what the schema calls it. -/
def unnamedField : Assignment :=
  { name := "from", call := ⟨"Field", [.source "lambda: Int"], []⟩ }

/-- Escaped and then moved out of the way, the field pins the escaped name. -/
theorem renamedThrough_unnamedField :
    (unnamedField.renamedThrough ["from_", "from__"]).call.keyword? "name" =
        some (.source (Text.quote "from_")) ∧
      (unnamedField.renamed "from__").call.keyword? "name" =
        some (.source (Text.quote "from")) ∧
      unnamedField.renamedThrough ["from_", "from__"] ≠ unnamedField.renamed "from__" := by
  have htwice : unnamedField.renamedThrough ["from_", "from__"] =
      unnamedField.pinning "from__" "from_" := renamedThrough_concat unnamedField ["from_"] "from__"
  have honce : unnamedField.renamed "from__" = unnamedField.pinning "from__" "from" :=
    renamed_eq unnamedField "from__"
  rw [htwice, honce]
  exact ⟨(isRenaming_pinning ..).pin, (isRenaming_pinning ..).pin, fun h =>
    absurd (pinning_inj.mp h) (by decide)⟩

end SchemaClasses.Assignment
