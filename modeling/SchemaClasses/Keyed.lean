/-!
# Keyed lists

Lists of values under keys. The order of the list is kept, and looking a key up finds its first
value.
-/

namespace SchemaClasses.Keyed

variable {κ α : Type} [DecidableEq κ]

/-- The list with `value` under `key`: in the place of the first value that is there, else at the
    end. -/
def insert (key : κ) (value : α) : List (κ × α) → List (κ × α)
  | [] => [(key, value)]
  | (k, v) :: rest => if k = key then (k, value) :: rest else (k, v) :: insert key value rest

/-- The list with one value for each key: in the place of the first, the last value. -/
def ofList (pairs : List (κ × α)) : List (κ × α) :=
  pairs.foldl (fun acc (key, value) => insert key value acc) []

@[simp] theorem insert_nil (key : κ) (value : α) : insert key value [] = [(key, value)] := rfl

/-- An inserted value is found under its key. -/
theorem lookup_insert_self (key : κ) (value : α) (pairs : List (κ × α)) :
    (insert key value pairs).lookup key = some value := by
  induction pairs with
  | nil => simp
  | cons pair rest ih =>
    obtain ⟨k, v⟩ := pair
    by_cases h : k = key
    · simp [insert, h]
    · have : (key == k) = false := by simp [Ne.symm h]
      simp [insert, h, List.lookup_cons, this, ih]

/-- Insertion leaves what is under other keys. -/
theorem lookup_insert_of_ne {key other : κ} (h : other ≠ key) (value : α)
    (pairs : List (κ × α)) :
    (insert key value pairs).lookup other = pairs.lookup other := by
  induction pairs with
  | nil => simp [List.lookup_cons, beq_false_of_ne h]
  | cons pair rest ih =>
    obtain ⟨k, v⟩ := pair
    by_cases hk : k = key
    · subst hk
      simp [insert, List.lookup_cons, beq_false_of_ne h]
    · by_cases ho : other = k
      · subst ho
        simp [insert, hk]
      · simp [insert, hk, List.lookup_cons, beq_false_of_ne ho, ih]

end SchemaClasses.Keyed
