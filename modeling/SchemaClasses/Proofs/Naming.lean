import SchemaClasses.Code.Assignment
import SchemaClasses.Proofs.Merging
import Mathlib.Data.List.Perm.Subperm

/-!
# Names that are taken

Underscores are added to a name until nothing else has it. The names that assignments end up with
differ from each other, and an assignment keeps the name of the schema in its call exactly when its
own name is not the converted one.
-/

namespace SchemaClasses.Assignment

/-! ## Underscores -/

@[simp] theorem underscored_zero (name : String) : underscored name 0 = name := by
  simp [underscored]

@[simp] theorem toList_underscored (name : String) (count : Nat) :
    (underscored name count).toList = name.toList ++ List.replicate count '_' := by
  simp [underscored]

theorem getLast?_underscored (name : String) {count : Nat} (h : count ≠ 0) :
    (underscored name count).toList.getLast? = some '_' := by
  rw [toList_underscored, List.getLast?_append, List.getLast?_replicate, if_neg h]
  rfl

/-- Underscores add up. -/
theorem underscored_underscored (name : String) (first second : Nat) :
    underscored (underscored name first) second = underscored name (first + second) := by
  apply String.toList_inj.mp
  simp only [toList_underscored, List.append_assoc, List.replicate_append_replicate]

/-- The count can be read off the name. -/
theorem underscored_inj {name : String} {i j : Nat} (h : underscored name i = underscored name j) :
    i = j := by
  have := congrArg (fun text => text.toList.length) h
  simpa using this

theorem underscored_eq_self {name : String} {count : Nat} :
    underscored name count = name ↔ count = 0 := by
  constructor
  · intro h
    exact underscored_inj (h.trans (underscored_zero name).symm)
  · rintro rfl
    exact underscored_zero name

/-! ## Free names -/

/-- Among one count more than there are names taken, one gives a free name. -/
theorem exists_free (taken : List String) (name : String) :
    ∃ count < taken.length + 1, underscored name count ∉ taken := by
  -- Otherwise all of these names are taken, and no two of them are equal.
  by_contra hall
  push Not at hall
  have hnodup : ((List.range (taken.length + 1)).map (underscored name)).Nodup :=
    List.nodup_range.map fun _ _ h => underscored_inj h
  have hsub : (List.range (taken.length + 1)).map (underscored name) ⊆ taken := by
    intro other hother
    obtain ⟨count, hcount, rfl⟩ := List.mem_map.mp hother
    exact hall count (List.mem_range.mp hcount)
  have hlength := (hnodup.subperm hsub).length_le
  rw [List.length_map, List.length_range] at hlength
  omega

/-- A free name has the least number of underscores that makes it one. -/
theorem freshName_eq (taken : List String) (name : String) :
    ∃ count, freshName taken name = underscored name count ∧
      underscored name count ∉ taken ∧
      ∀ fewer < count, underscored name fewer ∈ taken := by
  have hfound : ((List.range (taken.length + 1)).find?
      fun count => !taken.contains (underscored name count)).isSome := by
    obtain ⟨count, hcount, hfree⟩ := exists_free taken name
    rw [List.find?_isSome]
    exact ⟨count, List.mem_range.mpr hcount, by simpa using hfree⟩
  obtain ⟨count, hcount⟩ := Option.isSome_iff_exists.mp hfound
  refine ⟨count, by simp only [freshName, hcount, Option.getD_some], ?_⟩
  -- The search goes up from zero, so it passes over names that are taken only.
  rw [List.find?_range_eq_some] at hcount
  obtain ⟨hfree, -, hfewer⟩ := hcount
  exact ⟨by simpa using hfree, by simpa using hfewer⟩

/-- A fresh name is new. -/
theorem freshName_notMem (taken : List String) (name : String) : freshName taken name ∉ taken := by
  obtain ⟨count, heq, hfree, -⟩ := freshName_eq taken name
  rwa [heq]

/-- A name that is free stays as it is. -/
theorem freshName_of_notMem {taken : List String} {name : String} (h : name ∉ taken) :
    freshName taken name = name := by
  obtain ⟨count, heq, -, hfewer⟩ := freshName_eq taken name
  rcases Nat.eq_zero_or_pos count with rfl | hpos
  · simpa using heq
  · exact absurd (by simpa using hfewer 0 hpos) h

/-- The names in order, each with as few underscores as make it differ from those before it and
    from those in `taken`. -/
def freshNamesFrom (taken : List String) : List String → List String
  | [] => []
  | name :: rest =>
    let name := freshName taken name
    name :: freshNamesFrom (name :: taken) rest

/-- The names in order, each with as few underscores as make it differ from those before it. -/
def freshNames (names : List String) : List String :=
  freshNamesFrom [] names

/-- No name is given twice, and none that was taken. -/
theorem freshNamesFrom_nodup (taken names : List String) :
    (freshNamesFrom taken names).Nodup ∧ ∀ name ∈ freshNamesFrom taken names, name ∉ taken := by
  induction names generalizing taken with
  | nil => simp [freshNamesFrom]
  | cons name rest ih =>
    -- The name that is given first is taken for all others.
    obtain ⟨hnodup, hfree⟩ := ih (freshName taken name :: taken)
    simp only [freshNamesFrom, List.nodup_cons, List.mem_cons, forall_eq_or_imp]
    refine ⟨⟨fun hmem => ?_, hnodup⟩, freshName_notMem taken name, fun other hother => ?_⟩
    · exact hfree _ hmem List.mem_cons_self
    · exact fun hmem => hfree other hother (List.mem_cons_of_mem _ hmem)

/-- No two names in the end are the same. -/
theorem freshNames_nodup (names : List String) : (freshNames names).Nodup :=
  (freshNamesFrom_nodup [] names).1

/-! ## Names without underscores at their end -/

/-- The name does not end with an underscore. -/
def IsBare (name : String) : Prop :=
  name.toList.getLast? ≠ some '_'

/-- No name with underscores after it is bare. -/
theorem IsBare.of_underscored {name : String} {count : Nat} (h : IsBare (underscored name count)) :
    underscored name count = name := by
  rw [underscored_eq_self]
  by_contra hcount
  exact h (getLast?_underscored name hcount)

/-- Giving way makes no bare name, and the first of several equal names keeps it. -/
theorem mem_freshNamesFrom {name : String} (h : IsBare name) (taken names : List String) :
    name ∈ freshNamesFrom taken names ∨ name ∈ taken ↔ name ∈ names ∨ name ∈ taken := by
  induction names generalizing taken with
  | nil => simp [freshNamesFrom]
  | cons first rest ih =>
    have hfirst : name = freshName taken first ∨ name ∈ taken ↔ name = first ∨ name ∈ taken := by
      constructor
      · rintro (heq | hmem)
        · obtain ⟨count, hcount, -, -⟩ := freshName_eq taken first
          rw [heq, hcount] at h
          exact .inl (heq.trans (hcount.trans h.of_underscored))
        · exact .inr hmem
      · rintro (rfl | hmem)
        · by_cases hmem : name ∈ taken
          · exact .inr hmem
          · exact .inl (freshName_of_notMem hmem).symm
        · exact .inr hmem
    have hrest := ih (freshName taken first :: taken)
    simp only [List.mem_cons] at hrest
    simp only [freshNamesFrom, List.mem_cons]
    tauto

/-- A bare name is given exactly if it is asked for. -/
theorem mem_freshNames {name : String} (h : IsBare name) (names : List String) :
    name ∈ freshNames names ↔ name ∈ names := by
  simpa [freshNames] using mem_freshNamesFrom h [] names

/-- The count of underscores after a bare name and the name itself can be told apart. -/
theorem underscored_eq_underscored {first second : String} {i : Nat} (hsecond : IsBare second)
    (h : underscored first i = underscored second 1) :
    (first = underscored second 1 ∧ i = 0) ∨ (first = second ∧ i = 1) := by
  have hchars := congrArg String.toList h
  simp only [toList_underscored] at hchars
  match i with
  | 0 => exact .inl ⟨by simpa using h, rfl⟩
  | 1 =>
    exact .inr ⟨String.toList_inj.mp (List.append_cancel_right hchars), rfl⟩
  | i + 2 =>
    -- Otherwise the bare name would end with an underscore.
    rw [List.replicate_succ', ← List.append_assoc, List.replicate_one] at hchars
    have hlast := congrArg List.getLast? (List.append_cancel_right hchars)
    rw [List.getLast?_append, List.getLast?_replicate, if_neg (Nat.succ_ne_zero i),
      Option.some_or] at hlast
    exact absurd hlast.symm hsecond

/-- A bare name with one underscore is given to a name that is written so, or to the second of two
    that are written without the underscore. -/
theorem mem_freshNamesFrom_underscored {name : String} (h : IsBare name) (taken names : List String) :
    underscored name 1 ∈ freshNamesFrom taken names ∨ underscored name 1 ∈ taken ↔
      underscored name 1 ∈ names ∨ underscored name 1 ∈ taken ∨
        2 ≤ names.count name + (if name ∈ taken then 1 else 0) := by
  induction names generalizing taken with
  | nil =>
    by_cases hmem : name ∈ taken <;> simp [freshNamesFrom, hmem]
  | cons first rest ih =>
    obtain ⟨count, hgiven, hfree, hfewer⟩ := freshName_eq taken first
    have hrest := ih (freshName taken first :: taken)
    have hzero : count ≠ 0 → first ∈ taken := fun hcount => by
      simpa using hfewer 0 (Nat.pos_of_ne_zero hcount)
    -- The bare name is given if it comes first and is free, and the longer one if it comes first and
    -- is free, or if the bare name comes first and only that is taken.
    have hbare : name = freshName taken first ↔ first = name ∧ name ∉ taken := by
      constructor
      · intro heq
        rw [heq, hgiven] at h
        have hname := heq.trans (hgiven.trans h.of_underscored)
        exact ⟨hname.symm, heq ▸ freshName_notMem taken first⟩
      · rintro ⟨rfl, hmem⟩
        exact (freshName_of_notMem hmem).symm
    have hlonger : underscored name 1 = freshName taken first ∨ underscored name 1 ∈ taken ↔
        underscored name 1 = first ∨ (first = name ∧ name ∈ taken) ∨ underscored name 1 ∈ taken := by
      constructor
      · rintro (heq | hmem)
        · have hsame := hgiven.symm.trans heq.symm
          rcases underscored_eq_underscored h hsame with ⟨hfirst, -⟩ | ⟨rfl, rfl⟩
          · exact .inl hfirst.symm
          · exact .inr (.inl ⟨rfl, hzero (by decide)⟩)
        · exact .inr (.inr hmem)
      · rintro (rfl | ⟨rfl, hmem⟩ | hmem)
        · by_cases hmem : underscored name 1 ∈ taken
          · exact .inr hmem
          · exact .inl (freshName_of_notMem hmem).symm
        · match count with
          | 0 => exact absurd hmem (by simpa using hfree)
          | 1 => exact .inl hgiven.symm
          | more + 2 => exact .inr (hfewer 1 (by omega))
        · exact .inr hmem
    simp only [freshNamesFrom, List.mem_cons, List.count_cons, beq_iff_eq] at hrest ⊢
    grind

/-- With one underscore it is given if it is asked for like this, or if the bare name is asked for
    twice. -/
theorem mem_freshNames_underscored {name : String} (h : IsBare name) (names : List String) :
    underscored name 1 ∈ freshNames names ↔ underscored name 1 ∈ names ∨ 2 ≤ names.count name := by
  simpa [freshNames] using mem_freshNamesFrom_underscored h [] names

/-! ## Assignments under free names -/

@[simp] theorem renamed_name (a : Assignment) (name : String) : (a.renamed name).name = name := rfl

@[simp] theorem avoiding_name (taken : List String) (a : Assignment) :
    (a.avoiding taken).name = freshName taken a.name := by
  simp only [avoiding]
  split
  case isTrue h => exact h.symm
  case isFalse => rfl

/-- Which names assignments end up with depends on their names alone. -/
theorem map_name_uniqueFrom (taken : List String) (assignments : List Assignment) :
    (uniqueFrom taken assignments).map Assignment.name =
      freshNamesFrom taken (assignments.map Assignment.name) := by
  induction assignments generalizing taken with
  | nil => rfl
  | cons a rest ih => simp [uniqueFrom, freshNamesFrom, ih]

/-- Making assignments unique gives them fresh names. -/
theorem map_name_unique (assignments : List Assignment) :
    (unique assignments).map Assignment.name = freshNames (assignments.map Assignment.name) :=
  map_name_uniqueFrom [] assignments

/-- What holds of assignments whichever names are taken holds of them under their final names. -/
theorem forall₂_unique {α : Type} {xs : List α} {assignments : List Assignment}
    {R S : α → Assignment → Prop} (h : List.Forall₂ R xs assignments)
    (hstep : ∀ x a taken, R x a → S x (a.avoiding taken)) :
    List.Forall₂ S xs (unique assignments) := by
  -- More names are taken at each step, so the induction is for any of them.
  suffices hfrom : ∀ taken, List.Forall₂ S xs (uniqueFrom taken assignments) from hfrom []
  induction h with
  | nil => exact fun _ => .nil
  | cons hhead _ ih => exact fun taken => .cons (hstep _ _ taken hhead) (ih _)

/-! ## The name of the schema -/

/-- The keyword for the name of the schema, which is there if the bound name is not the converted
    one. -/
def nameKeyword (schemaName converted name : String) : List (String × Expr) :=
  if name = converted then [] else [("name", .source (Text.quote schemaName))]

/-- The assignment has the call `core` and the keyword for its name in the schema at the end. Its
    own name is the converted one with underscores after it. -/
structure Pins (a : Assignment) (schemaName converted : String) (core : Call) : Prop where
  bound : ∃ count, a.name = underscored converted count
  call : a.call = core.extend (nameKeyword schemaName converted a.name)
  unnamed : "name" ∉ Keyed.keys core.keywords

/-- A quoted text counts as a value even if it is empty. -/
theorem quote_isEmpty (text : String) : (Expr.source (Text.quote text)).isEmpty = false := by
  simp [Expr.isEmpty, Text.isEmpty, Text.quote, Text.quoteChars]

/-- A longer name is pinned in the same place. -/
theorem Pins.renamed {a : Assignment} {schemaName converted : String} {core : Call} {count : Nat}
    (h : a.Pins schemaName converted core) (hpinned : a.pinnedName = schemaName)
    (hcount : count ≠ 0) : (a.renamed (underscored a.name count)).Pins schemaName converted core := by
  obtain ⟨before, hbound⟩ := h.bound
  have hname : underscored a.name count = underscored converted (before + count) := by
    rw [hbound, underscored_underscored]
  have hne : underscored a.name count ≠ converted := by
    rw [hname, Ne, underscored_eq_self]
    omega
  refine ⟨⟨before + count, hname⟩, ?_, h.unnamed⟩
  simp only [Assignment.renamed, hpinned, h.call, nameKeyword, if_neg hne]
  -- The call has the keyword already unless the name was still the converted one.
  by_cases hsame : a.name = converted
  · rw [if_pos hsame, Call.extend_nil, Call.merge_single (quote_isEmpty _) h.unnamed]
  · rw [if_neg hsame, Call.merge_single_again (quote_isEmpty _) h.unnamed]

/-- Giving way to names that are taken keeps the name of the schema pinned. -/
theorem Pins.avoiding {a : Assignment} {schemaName converted : String} {core : Call}
    (h : a.Pins schemaName converted core) (hpinned : a.pinnedName = schemaName)
    (taken : List String) : (a.avoiding taken).Pins schemaName converted core := by
  obtain ⟨count, heq, -, -⟩ := freshName_eq taken a.name
  simp only [Assignment.avoiding]
  split
  case isTrue => exact h
  case isFalse hne =>
    rw [heq] at hne ⊢
    exact h.renamed hpinned fun hzero => hne (by rw [hzero, underscored_zero])

end SchemaClasses.Assignment
