import SchemaClasses.Code.Call
import Mathlib.Data.List.Nodup

/-!
# Merging keywords

What a merge does to the keywords of a call. Keywords that are new are added at the end in order,
and the one keyword at the end can be set again without anything else moving.
-/

namespace SchemaClasses

/-! ## Keys -/

namespace Keyed

variable {α : Type}

def keys (pairs : List (String × α)) : List String :=
  pairs.map Prod.fst

@[simp] theorem keys_nil : keys ([] : List (String × α)) = [] := rfl

@[simp] theorem keys_cons (pair : String × α) (rest : List (String × α)) :
    keys (pair :: rest) = pair.1 :: keys rest := rfl

@[simp] theorem keys_append (front back : List (String × α)) :
    keys (front ++ back) = keys front ++ keys back := by
  simp [keys]

/-- Insertion passes over pairs with other keys. -/
theorem insert_append {key : String} {value : α} {front : List (String × α)}
    (h : key ∉ keys front) (back : List (String × α)) :
    insert key value (front ++ back) = front ++ insert key value back := by
  induction front with
  | nil => rfl
  | cons pair rest ih =>
    obtain ⟨k, v⟩ := pair
    simp only [keys_cons, List.mem_cons, not_or] at h
    have hk : k ≠ key := fun heq => h.1 heq.symm
    simp only [List.cons_append, insert, if_neg hk, ih h.2]

/-- A new key goes to the end. -/
theorem insert_of_notMem {key : String} {value : α} {pairs : List (String × α)}
    (h : key ∉ keys pairs) : insert key value pairs = pairs ++ [(key, value)] := by
  have heq : insert key value (pairs ++ []) = pairs ++ insert key value [] := insert_append h []
  simpa using heq

/-- Looking a key up passes over pairs with other keys. -/
theorem lookup_append_of_notMem {key : String} {front : List (String × α)}
    (h : key ∉ keys front) (back : List (String × α)) :
    (front ++ back).lookup key = back.lookup key := by
  induction front with
  | nil => rfl
  | cons pair rest ih =>
    obtain ⟨k, v⟩ := pair
    simp only [keys_cons, List.mem_cons, not_or] at h
    rw [List.cons_append, List.lookup_cons, beq_false_of_ne h.1]
    exact ih h.2

end Keyed

/-! ## Calls -/

namespace Call

@[simp] theorem merge_nil (call : Call) : call.merge [] = call := rfl

theorem merge_cons (call : Call) (keyword : String × Option Expr)
    (rest : List (String × Option Expr)) :
    call.merge (keyword :: rest) = (call.mergeOne keyword).merge rest := rfl

def extend (call : Call) (keywords : List (String × Expr)) : Call :=
  { call with keywords := call.keywords ++ keywords }

@[simp] theorem extend_nil (call : Call) : call.extend [] = call := by
  simp [extend]

/-- Keywords can be added in two goes. -/
@[simp] theorem extend_extend (call : Call) (first second : List (String × Expr)) :
    (call.extend first).extend second = call.extend (first ++ second) := by
  simp [extend]

@[simp] theorem extend_keywords (call : Call) (keywords : List (String × Expr)) :
    (call.extend keywords).keywords = call.keywords ++ keywords := rfl

/-- Adding keywords does not depend on what is called. -/
@[simp] theorem retarget_extend (call : Call) (callee : String)
    (keywords : List (String × Expr)) :
    (call.extend keywords).retarget callee = (call.retarget callee).extend keywords := rfl

/-- Merging one new keyword adds it. -/
theorem merge_single {call : Call} {key : String} {value : Expr} (hvalue : value.isEmpty = false)
    (hkey : key ∉ Keyed.keys call.keywords) :
    call.merge [(key, some value)] = call.extend [(key, value)] := by
  simp only [merge_cons, mergeOne, hvalue, Bool.false_eq_true, if_false, merge_nil, setKeyword,
    extend, Keyed.insert_of_notMem hkey]

/-- Merging a keyword that only the last place has replaces its value. -/
theorem merge_single_again {call : Call} {key : String} {value : Expr}
    (hvalue : value.isEmpty = false) (hkey : key ∉ Keyed.keys call.keywords) (old : Expr) :
    (call.extend [(key, old)]).merge [(key, some value)] = call.extend [(key, value)] := by
  simp only [merge_cons, mergeOne, hvalue, Bool.false_eq_true, if_false, merge_nil, setKeyword,
    extend, Keyed.insert_append hkey, Keyed.insert, if_true]

/-- The keywords as a merge takes them, each with a value. -/
def given (keywords : List (String × Expr)) : List (String × Option Expr) :=
  keywords.map fun (key, value) => (key, some value)

/-- Merging new keywords with different keys adds them in order. -/
theorem merge_fresh (keywords : List (String × Expr)) {call : Call}
    (hvalue : ∀ keyword ∈ keywords, keyword.2.isEmpty = false)
    (hnodup : (Keyed.keys keywords).Nodup)
    (hnew : ∀ key ∈ Keyed.keys keywords, key ∉ Keyed.keys call.keywords) :
    call.merge (given keywords) = call.extend keywords := by
  induction keywords generalizing call with
  | nil => simp [given]
  | cons keyword rest ih =>
    obtain ⟨key, value⟩ := keyword
    simp only [Keyed.keys_cons, List.nodup_cons, List.mem_cons, forall_eq_or_imp] at hvalue hnodup hnew
    have hone : call.mergeOne (key, some value) = call.extend [(key, value)] :=
      merge_single hvalue.1 hnew.1
    rw [given, List.map_cons, merge_cons, hone, ← given, ih hvalue.2 hnodup.2, extend_extend,
      List.singleton_append]
    -- The keys that are left differ from the one just added.
    intro other hother
    simp only [extend_keywords, Keyed.keys_append, Keyed.keys_cons, Keyed.keys_nil,
      List.mem_append, List.mem_singleton, not_or]
    exact ⟨hnew.2 other hother, fun heq => hnodup.1 (heq ▸ hother)⟩

end Call

end SchemaClasses
