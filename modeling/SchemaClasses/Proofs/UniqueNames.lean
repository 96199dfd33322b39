import SchemaClasses.Proofs.Renaming

/-!
# Names given in order

Each of several assignments keeps its name or gives way to those before it. The loop that looks for
a free name is bounded by the number of names given, and which name it finds depends on nothing that
comes later. So all names differ, more assignments at the end change nothing, and names that differ
already stay.
-/

namespace SchemaClasses.Assignment

/-! ## The loop -/

/-- The loop that adds an underscore to a name for as long as it is taken ends after `count` rounds
    with `result`. -/
inductive LoopEnds (taken : List String) : String → Nat → String → Prop
  | free {name : String} (h : name ∉ taken) : LoopEnds taken name 0 name
  | round {name result : String} {count : Nat} (h : name ∈ taken)
      (rest : LoopEnds taken (underscored name 1) count result) :
      LoopEnds taken name (count + 1) result

/-- The loop ends with the first name that is free, after as many rounds as there are underscores
    added. -/
theorem loopEnds_iff {taken : List String} {name result : String} {count : Nat} :
    LoopEnds taken name count result ↔
      result = underscored name count ∧ result ∉ taken ∧
        ∀ fewer < count, underscored name fewer ∈ taken := by
  constructor
  · intro h
    -- One round of the loop shifts the count of underscores by one.
    induction h with
    | free h => exact ⟨(underscored_zero _).symm, h, by simp⟩
    | @round name result count h _ ih =>
      obtain ⟨hresult, hfree, hfewer⟩ := ih
      rw [underscored_underscored, Nat.add_comm] at hresult
      refine ⟨hresult, hfree, fun fewer hlt => ?_⟩
      cases fewer with
      | zero => rwa [underscored_zero]
      | succ fewer =>
        have hmem := hfewer fewer (by omega)
        rwa [underscored_underscored, Nat.add_comm] at hmem
  · rintro ⟨rfl, hfree, hfewer⟩
    induction count generalizing name with
    | zero =>
      rw [underscored_zero] at hfree ⊢
      exact .free hfree
    | succ count ih =>
      have hsplit (more : Nat) : underscored name (more + 1) =
          underscored (underscored name 1) more := by
        rw [underscored_underscored, Nat.add_comm]
      have hname : name ∈ taken := by simpa using hfewer 0 (by omega)
      rw [hsplit] at hfree ⊢
      refine .round hname (ih hfree fun fewer hlt => ?_)
      rw [← hsplit]
      exact hfewer (fewer + 1) (by omega)

/-- The loop takes no more rounds than there are names taken. -/
theorem loopEnds_freshName (taken : List String) (name : String) :
    ∃ count ≤ taken.length, LoopEnds taken name count (freshName taken name) := by
  obtain ⟨count, hname, hfree, hfewer⟩ := freshName_eq taken name
  obtain ⟨enough, hbound, hfree'⟩ := exists_free taken name
  have hle : count ≤ enough := by
    by_contra hlt
    exact hfree' (hfewer enough (by omega))
  refine ⟨count, by omega, loopEnds_iff.mpr ⟨hname, ?_, hfewer⟩⟩
  rwa [hname]

/-! ## One assignment -/

/-- `b` is `a` under the first free name that the loop comes to where `taken` are the names given
    before: under its own name it is unchanged, and under another one it is a renaming that pins the
    name of `a` in the schema. -/
structure GivesWay (taken : List String) (a b : Assignment) : Prop where
  loop : ∃ count ≤ taken.length, LoopEnds taken a.name count b.name ∧
    b.name = underscored a.name count ∧ b.name ∉ taken ∧
    ∀ fewer < count, underscored a.name fewer ∈ taken
  kept : b.name = a.name → b = a
  changed : b.name ≠ a.name → IsRenaming a b b.name a.pinnedName

theorem avoiding_of_notMem {taken : List String} {a : Assignment} (h : a.name ∉ taken) :
    a.avoiding taken = a := by
  rw [avoiding, if_pos (freshName_of_notMem h)]

/-- The order of the names that are taken does not matter. -/
theorem givesWay_avoiding {taken given : List String} (a : Assignment)
    (hmem : ∀ name, name ∈ taken ↔ name ∈ given) (hlength : taken.length = given.length) :
    GivesWay given a (a.avoiding taken) where
  loop := by
    obtain ⟨count, hbound, hends⟩ := loopEnds_freshName taken a.name
    obtain ⟨hname, hfree, hfewer⟩ := loopEnds_iff.mp hends
    simp only [hmem] at hfree hfewer
    rw [avoiding_name]
    exact ⟨count, hlength ▸ hbound, loopEnds_iff.mpr ⟨hname, hfree, hfewer⟩, hname, hfree, hfewer⟩
  kept h := by
    rw [avoiding_name] at h
    rw [avoiding, if_pos h]
  changed h := by
    rw [avoiding_name] at h
    rw [avoiding_name, avoiding, if_neg h, renamed_eq]
    exact isRenaming_pinning a _ _

/-! ## Assignments in order -/

theorem length_uniqueFrom (taken : List String) (assignments : List Assignment) :
    (uniqueFrom taken assignments).length = assignments.length := by
  induction assignments generalizing taken with
  | nil => rfl
  | cons a rest ih => rw [uniqueFrom, List.length_cons, List.length_cons, ih]

/-- Each assignment avoids the names that are given before it. -/
theorem getElem?_uniqueFrom {assignments : List Assignment} {i : Nat} {a : Assignment}
    (h : assignments[i]? = some a) (taken : List String) :
    (uniqueFrom taken assignments)[i]? = some (a.avoiding
      ((((uniqueFrom taken assignments).take i).map Assignment.name).reverse ++ taken)) := by
  induction assignments generalizing taken i with
  | nil => simp at h
  | cons first rest ih =>
    cases i with
    | zero =>
      obtain rfl : first = a := by simpa using h
      rfl
    | succ i =>
      rw [List.getElem?_cons_succ] at h
      rw [uniqueFrom, List.getElem?_cons_succ, ih h]
      simp

/-- Each assignment gives way to the names of those before it. -/
theorem getElem?_unique {assignments : List Assignment} {i : Nat} {a : Assignment}
    (h : assignments[i]? = some a) :
    ∃ b, (unique assignments)[i]? = some b ∧
      GivesWay (((unique assignments).take i).map Assignment.name) a b := by
  refine ⟨_, getElem?_uniqueFrom h [], givesWay_avoiding a (fun name => ?_) ?_⟩
  · rw [List.append_nil, List.mem_reverse]
    rfl
  · rw [List.append_nil, List.length_reverse]
    rfl

/-- What comes later has no part in the names that are given. -/
theorem uniqueFrom_prefix (taken : List String) (front back : List Assignment) :
    uniqueFrom taken front <+: uniqueFrom taken (front ++ back) := by
  induction front generalizing taken with
  | nil => exact List.nil_prefix
  | cons a rest ih =>
    rw [List.cons_append, uniqueFrom, uniqueFrom]
    exact List.cons_prefix_cons.mpr ⟨rfl, ih _⟩

/-- Names that are free and differ are kept. -/
theorem uniqueFrom_of_nodup {taken : List String} {assignments : List Assignment}
    (hnodup : (assignments.map Assignment.name).Nodup)
    (hfree : ∀ a ∈ assignments, a.name ∉ taken) : uniqueFrom taken assignments = assignments := by
  induction assignments generalizing taken with
  | nil => rfl
  | cons a rest ih =>
    rw [List.map_cons, List.nodup_cons] at hnodup
    rw [List.forall_mem_cons] at hfree
    have hrest : ∀ other ∈ rest, other.name ∉ a.name :: taken := by
      intro other hother hmem
      rcases List.mem_cons.mp hmem with heq | hmem
      · exact hnodup.1 (heq ▸ List.mem_map_of_mem hother)
      · exact hfree.2 other hother hmem
    simp only [uniqueFrom, avoiding_of_notMem hfree.1, ih hnodup.2 hrest]

/-- The names in the end are distinct. -/
theorem nodup_unique (assignments : List Assignment) :
    ((unique assignments).map Assignment.name).Nodup := by
  rw [map_name_unique]
  exact freshNames_nodup _

/-- Assignments in order get names that all differ. Each of them ends the loop after at most as many
    rounds as there are assignments before it, under its own name with as few underscores as make it
    differ from the names given to these. It is unchanged if that is its own name, and otherwise
    nothing but its name and the keyword for its name in the schema changes. More assignments at the
    end change nothing for those before, and doing all this again changes nothing at all. -/
theorem unique_givesWay (assignments more : List Assignment) :
    (unique assignments).length = assignments.length ∧
      ((unique assignments).map Assignment.name).Nodup ∧
      (∀ i a, assignments[i]? = some a → ∃ b, (unique assignments)[i]? = some b ∧
        GivesWay (((unique assignments).take i).map Assignment.name) a b) ∧
      unique assignments <+: unique (assignments ++ more) ∧
      unique (unique assignments) = unique assignments :=
  ⟨length_uniqueFrom _ _, nodup_unique assignments, fun _ _ => getElem?_unique,
    uniqueFrom_prefix [] assignments more,
    uniqueFrom_of_nodup (nodup_unique assignments) fun _ _ => List.not_mem_nil⟩

/-- A field with this name here and in the schema. -/
def fieldCalled (name schemaName : String) : Assignment :=
  { name, call := ⟨"Field", [.source "lambda: ID"], []⟩, schemaName }

/-- The second of these fields takes the name of the third, and that one takes another, so that the
    last one needs three underscores. -/
def crowdedFields : List Assignment :=
  [fieldCalled "user_id" "userId", fieldCalled "user_id" "UserID",
    fieldCalled "user_id_" "userId_", fieldCalled "user_id" "user_id"]

/-- An assignment that must give way three times. -/
theorem unique_givesWay_crowdedFields :
    crowdedFields[3]? = some (fieldCalled "user_id" "user_id") ∧
      (∃ b, (unique crowdedFields)[3]? = some b ∧ b.name = "user_id___" ∧
        GivesWay ["user_id", "user_id_", "user_id__"] (fieldCalled "user_id" "user_id") b) ∧
      unique (unique crowdedFields) = unique crowdedFields := by
  have hlast : crowdedFields[3]? = some (fieldCalled "user_id" "user_id") := rfl
  obtain ⟨-, -, hgives, -, hagain⟩ := unique_givesWay crowdedFields []
  obtain ⟨b, hb, hway⟩ := hgives 3 (fieldCalled "user_id" "user_id") hlast
  have hnames : ((unique crowdedFields).take 3).map Assignment.name =
      ["user_id", "user_id_", "user_id__"] := rfl
  have hname : (unique crowdedFields)[3]?.map Assignment.name = some "user_id___" := rfl
  rw [hnames] at hway
  rw [hb] at hname
  exact ⟨hlast, ⟨b, hb, by simpa using hname, hway⟩, hagain⟩

end SchemaClasses.Assignment
