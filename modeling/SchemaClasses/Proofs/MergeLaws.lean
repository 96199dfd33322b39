import SchemaClasses.Proofs.Merging
import Mathlib

/-!
# Laws of merging

Maps of keywords act on calls: two merges are one with the second map laid over the first. A merge
keeps the keys of the call in front and adds those that are new, whether or not the call has a key
several times.
-/

namespace SchemaClasses

/-! ## Insertion -/

namespace Keyed

variable {α : Type} {key other : String} {value : α} {pairs base new : List (String × α)}

/-- A key keeps its place, and a new one comes last. -/
theorem keys_insert :
    keys (insert key value pairs) =
      if key ∈ keys pairs then keys pairs else keys pairs ++ [key] := by
  induction pairs with
  | nil => rfl
  | cons pair rest ih =>
    obtain ⟨k, v⟩ := pair
    by_cases hk : k = key
    · simp [insert, hk]
    · have hne : key ≠ k := Ne.symm hk
      by_cases hmem : key ∈ keys rest <;> simp [insert, hk, ih, hmem, hne]

theorem nodup_keys_insert (h : (keys pairs).Nodup) : (keys (insert key value pairs)).Nodup := by
  rw [keys_insert]
  split
  case isTrue => exact h
  case isFalse hnew => exact List.concat_eq_append ▸ h.concat hnew

/-- The pairs with other keys stay as they are. -/
theorem filter_insert :
    (insert key value pairs).filter (·.1 ≠ key) = pairs.filter (·.1 ≠ key) := by
  induction pairs with
  | nil => simp
  | cons pair rest ih =>
    obtain ⟨k, v⟩ := pair
    by_cases hk : k = key
    · simp [insert, hk]
    · rw [insert, if_neg hk, List.filter_cons_of_pos (by simpa using hk),
        List.filter_cons_of_pos (by simpa using hk), ih]

/-- The last of two values under one key stays. -/
theorem insert_insert_self (value' : α) :
    insert key value (insert key value' pairs) = insert key value pairs := by
  induction pairs with
  | nil => simp [insert]
  | cons pair rest ih =>
    obtain ⟨k, v⟩ := pair
    by_cases hk : k = key <;> simp [insert, hk, ih]

/-- A key that is there keeps its place, so that it does not matter when its value is replaced. -/
theorem insert_insert_of_mem {value' : α} (hne : key ≠ other) (hmem : key ∈ keys pairs) :
    insert key value (insert other value' pairs) =
      insert other value' (insert key value pairs) := by
  induction pairs with
  | nil => simp at hmem
  | cons pair rest ih =>
    obtain ⟨k, v⟩ := pair
    by_cases hk : k = key
    · subst hk
      simp [insert, hne]
    · have hrest : key ∈ keys rest := by simpa [Ne.symm hk] using hmem
      by_cases ho : k = other
      · simp [insert, ho, Ne.symm hne]
      · simp [insert, hk, ho, ih hrest]

/-- Inserting the value that is there changes nothing. -/
theorem insert_of_lookup (h : pairs.lookup key = some value) : insert key value pairs = pairs := by
  induction pairs with
  | nil => simp at h
  | cons pair rest ih =>
    obtain ⟨k, v⟩ := pair
    by_cases hk : k = key
    · subst hk
      have hv : v = value := by simpa using h
      simp [insert, hv]
    · have hrest : rest.lookup key = some value := by
        simpa [List.lookup_cons, beq_false_of_ne (Ne.symm hk)] using h
      simp [insert, hk, ih hrest]

theorem lookup_of_mem (hnodup : (keys pairs).Nodup) {pair : String × α} (hmem : pair ∈ pairs) :
    pairs.lookup pair.1 = some pair.2 := by
  induction pairs with
  | nil => simp at hmem
  | cons first rest ih =>
    rw [keys_cons, List.nodup_cons] at hnodup
    rcases List.mem_cons.mp hmem with rfl | hrest
    · exact List.lookup_cons_self
    · have hne : pair.1 ≠ first.1 := by
        intro heq
        exact hnodup.1 (heq ▸ List.mem_map_of_mem hrest)
      rw [List.lookup_cons, beq_false_of_ne hne]
      exact ih hnodup.2 hrest

theorem lookup_eq_none (h : key ∉ keys pairs) : pairs.lookup key = none := by
  simpa using lookup_append_of_notMem h []

/-! ## Insertion of a map -/

/-- The list with the pairs of a map inserted in order. -/
def insertAll (base new : List (String × α)) : List (String × α) :=
  new.foldl (fun pairs (key, value) => insert key value pairs) base

@[simp] theorem insertAll_nil : insertAll base [] = base := rfl

@[simp] theorem insertAll_cons (pair : String × α) :
    insertAll base (pair :: new) = insertAll (insert pair.1 pair.2 base) new := rfl

/-- The map with the values that another one has for its keys, and then the other's new keys. -/
def override (base new : List (String × α)) : List (String × α) :=
  base.map (fun (key, value) => (key, (new.lookup key).getD value))
    ++ new.filter fun (key, _) => key ∉ keys base

/-- New keys come after the old ones, in order. -/
theorem keys_insertAll (hnew : (keys new).Nodup) :
    keys (insertAll base new) = keys base ++ (keys new).filter (· ∉ keys base) := by
  induction new generalizing base with
  | nil => simp
  | cons pair rest ih =>
    rw [keys_cons, List.nodup_cons] at hnew
    rw [insertAll_cons, ih hnew.2, keys_insert, keys_cons]
    by_cases hmem : pair.1 ∈ keys base
    · rw [if_pos hmem, List.filter_cons_of_neg (by simpa using hmem)]
    · -- The keys that are left differ from the one just added.
      have hrest : (keys rest).filter (· ∉ keys base ++ [pair.1]) =
          (keys rest).filter (· ∉ keys base) := by
        refine List.filter_congr fun other hother => ?_
        have hne : other ≠ pair.1 := fun heq => hnew.1 (heq ▸ hother)
        simp [hne]
      rw [if_neg hmem, List.filter_cons_of_pos (by simpa using hmem), hrest, List.append_assoc,
        List.singleton_append]

theorem nodup_keys_insertAll (h : (keys base).Nodup) : (keys (insertAll base new)).Nodup := by
  induction new generalizing base with
  | nil => exact h
  | cons pair rest ih => exact ih (nodup_keys_insert h)

/-- A key has its new value, or else the old one. -/
theorem lookup_insertAll (hnew : (keys new).Nodup) (key : String) :
    (insertAll base new).lookup key = (new.lookup key).or (base.lookup key) := by
  induction new generalizing base with
  | nil => simp
  | cons pair rest ih =>
    obtain ⟨k, v⟩ := pair
    rw [keys_cons, List.nodup_cons] at hnew
    rw [insertAll_cons, ih hnew.2]
    by_cases hk : key = k
    · subst hk
      rw [lookup_eq_none hnew.1, lookup_insert_self]
      simp
    · rw [lookup_insert_of_ne hk, List.lookup_cons, beq_false_of_ne hk]

/-- Nothing changes exactly if all pairs are there already. -/
theorem insertAll_eq_self_iff (hnew : (keys new).Nodup) :
    insertAll base new = base ↔ ∀ pair ∈ new, base.lookup pair.1 = some pair.2 := by
  constructor
  · intro h pair hpair
    have hlookup : (insertAll base new).lookup pair.1 = _ := lookup_insertAll hnew pair.1
    rw [h, lookup_of_mem hnew hpair] at hlookup
    exact hlookup
  · intro h
    clear hnew
    induction new with
    | nil => rfl
    | cons pair rest ih =>
      rw [List.forall_mem_cons] at h
      rw [insertAll_cons, insert_of_lookup h.1, ih h.2]

/-- A key that is there and that the map does not have can be set before or after the map. -/
theorem insert_insertAll (hmem : key ∈ keys base) (hnew : key ∉ keys new) :
    insert key value (insertAll base new) = insertAll (insert key value base) new := by
  induction new generalizing base with
  | nil => rfl
  | cons pair rest ih =>
    rw [keys_cons, List.mem_cons, not_or] at hnew
    have hstill : key ∈ keys (insert pair.1 pair.2 base) := by
      rw [keys_insert]
      split <;> simp [hmem]
    rw [insertAll_cons, insertAll_cons, ih hstill hnew.2, insert_insert_of_mem hnew.1 hmem]

/-- Setting a key of a map before or after the map is inserted comes to the same. -/
theorem insertAll_insert (hnew : (keys new).Nodup) :
    insertAll base (insert key value new) = insert key value (insertAll base new) := by
  induction new generalizing base with
  | nil => rfl
  | cons pair rest ih =>
    obtain ⟨k, v⟩ := pair
    rw [keys_cons, List.nodup_cons] at hnew
    by_cases hk : k = key
    · subst hk
      have hmem : k ∈ keys (insert k v base) := by
        rw [keys_insert]
        split <;> simp [*]
      rw [insert, if_pos rfl, insertAll_cons, insertAll_cons, insert_insertAll hmem hnew.1,
        insert_insert_self]
    · rw [insert, if_neg hk, insertAll_cons, insertAll_cons, ih hnew.2]

/-- Inserting two maps one after the other is inserting the second into the first. -/
theorem insertAll_insertAll {first : List (String × α)} (hfirst : (keys first).Nodup) :
    insertAll (insertAll base first) new = insertAll base (insertAll first new) := by
  induction new generalizing first with
  | nil => rfl
  | cons pair rest ih =>
    rw [insertAll_cons, insertAll_cons, ← insertAll_insert hfirst, ih (nodup_keys_insert hfirst)]

/-- Where no key is there twice, a key that is there gets its value in its one place. -/
theorem insert_eq_map (hnodup : (keys pairs).Nodup) (hmem : key ∈ keys pairs) :
    insert key value pairs = pairs.map fun (k, v) => (k, if k = key then value else v) := by
  induction pairs with
  | nil => simp at hmem
  | cons pair rest ih =>
    obtain ⟨k, v⟩ := pair
    rw [keys_cons, List.nodup_cons] at hnodup
    -- The key is at the head, and then nowhere else, or it is further down.
    by_cases hk : k = key
    · subst hk
      have hrest : rest.map (fun (other, v) => (other, if other = k then value else v)) = rest := by
        refine (List.map_congr_left ?_).trans (List.map_id _)
        rintro ⟨other, v⟩ hother
        have hkey : other ∈ keys rest := List.mem_map_of_mem hother
        have hne : other ≠ k := fun heq => hnodup.1 (heq ▸ hkey)
        simp [hne]
      simp [insert, hrest]
    · have hrest : key ∈ keys rest := by simpa [Ne.symm hk] using hmem
      simp [insert, hk, ih hnodup.2 hrest]

theorem override_insert (hbase : (keys base).Nodup) (hnew : key ∉ keys new) :
    override (insert key value base) new = override base ((key, value) :: new) := by
  have hlookup (k : String) (v : α) :
      (((key, value) :: new).lookup k).getD v =
        (new.lookup k).getD (if k = key then value else v) := by
    by_cases hk : k = key
    · subst hk
      simp [lookup_eq_none hnew]
    · rw [List.lookup_cons, beq_false_of_ne hk, if_neg hk]
  -- A key that is there keeps its place; a new one goes to the end, before the rest of the new.
  by_cases hmem : key ∈ keys base
  · have hkeys : keys (insert key value base) = keys base := by rw [keys_insert, if_pos hmem]
    rw [override, override, hkeys, List.filter_cons_of_neg (by simpa using hmem),
      insert_eq_map hbase hmem, List.map_map]
    simp only [Function.comp_def, hlookup]
  · have hrest : new.filter (fun pair => pair.1 ∉ keys base ++ [key]) =
        new.filter fun pair => pair.1 ∉ keys base := by
      refine List.filter_congr fun pair hpair => ?_
      have hne : pair.1 ≠ key := fun heq => hnew (heq ▸ List.mem_map_of_mem hpair)
      simp [hne]
    have hfront : base.map (fun (k, v) => (k, (((key, value) :: new).lookup k).getD v)) =
        base.map fun (k, v) => (k, (new.lookup k).getD v) := by
      refine List.map_congr_left ?_
      rintro ⟨k, v⟩ hpair
      have hne : k ≠ key := fun heq => hmem (heq ▸ List.mem_map_of_mem hpair)
      simp [hlookup, hne]
    rw [override, override, insert_of_notMem hmem, keys_append, hfront, List.map_append,
      List.filter_cons_of_pos (by simpa using hmem)]
    simpa [lookup_eq_none hnew] using hrest

/-- Inserting one map into another overrides it. -/
theorem insertAll_eq_override (hbase : (keys base).Nodup) (hnew : (keys new).Nodup) :
    insertAll base new = override base new := by
  induction new generalizing base with
  | nil => simp [override]
  | cons pair rest ih =>
    rw [keys_cons, List.nodup_cons] at hnew
    rw [insertAll_cons, ih (nodup_keys_insert hbase) hnew.2, override_insert hbase hnew.1]

end Keyed

/-! ## Merging -/

namespace Call

/-- The keywords of a map that have a value, and one that is not empty. -/
def filled (map : List (String × Option Expr)) : List (String × Expr) :=
  map.filterMap fun (key, value) => (value.filter (!·.isEmpty)).map (key, ·)

/-- A merge inserts the keywords that have a value. -/
theorem merge_eq (call : Call) (map : List (String × Option Expr)) :
    call.merge map = { call with keywords := Keyed.insertAll call.keywords (filled map) } := by
  induction map generalizing call with
  | nil => rfl
  | cons keyword rest ih =>
    obtain ⟨key, value⟩ := keyword
    rw [merge_cons, ih]
    cases value with
    | none => simp [mergeOne, filled]
    | some value =>
      cases hvalue : value.isEmpty <;> simp [mergeOne, filled, setKeyword, hvalue]

theorem isEmpty_of_mem_filled {map : List (String × Option Expr)} {keyword : String × Expr}
    (h : keyword ∈ filled map) : keyword.2.isEmpty = false := by
  obtain ⟨⟨key, value⟩, -, hvalue⟩ := List.mem_filterMap.mp h
  obtain ⟨expr, hexpr, rfl⟩ := Option.map_eq_some_iff.mp hvalue
  simpa using (Option.filter_eq_some_iff.mp hexpr).2

theorem keys_filled_sublist (map : List (String × Option Expr)) :
    (Keyed.keys (filled map)).Sublist (Keyed.keys map) := by
  induction map with
  | nil => simp [filled]
  | cons keyword rest ih =>
    obtain ⟨key, value⟩ := keyword
    cases hvalue : value.filter (!·.isEmpty) with
    | none =>
      have hskip : filled ((key, value) :: rest) = filled rest := by simp [filled, hvalue]
      rw [hskip]
      exact ih.cons key
    | some expr =>
      have htake : filled ((key, value) :: rest) = (key, expr) :: filled rest := by
        simp [filled, hvalue]
      rw [htake]
      exact ih.cons_cons key

/-- Keywords that all have a value are taken as they are. -/
theorem filled_given {keywords : List (String × Expr)}
    (h : ∀ keyword ∈ keywords, keyword.2.isEmpty = false) : filled (given keywords) = keywords := by
  induction keywords with
  | nil => rfl
  | cons keyword rest ih =>
    rw [List.forall_mem_cons] at h
    have hrest : filled (given rest) = rest := ih h.2
    simpa [given, filled, h.1] using hrest

theorem isEmpty_of_mem_override {base new : List (String × Expr)}
    (hbase : ∀ keyword ∈ base, keyword.2.isEmpty = false)
    (hnew : ∀ keyword ∈ new, keyword.2.isEmpty = false) :
    ∀ keyword ∈ Keyed.override base new, keyword.2.isEmpty = false := by
  rw [Keyed.override, List.forall_mem_append, List.forall_mem_map]
  refine ⟨?_, fun keyword hmem => hnew keyword (List.mem_filter.mp hmem).1⟩
  rintro ⟨key, value⟩ hmem
  change ((new.lookup key).getD value).isEmpty = false
  cases hlookup : new.lookup key with
  | none => exact hbase _ hmem
  | some value' =>
    obtain ⟨front, back, rfl, -⟩ := List.lookup_eq_some_iff.mp hlookup
    exact hnew (key, value') (by simp)

/-- Two merges are one, with the second map laid over the first. -/
theorem merge_merge (call : Call) {first second : List (String × Option Expr)}
    (hfirst : (Keyed.keys first).Nodup) (hsecond : (Keyed.keys second).Nodup) :
    (call.merge first).merge second =
      call.merge (given (Keyed.override (filled first) (filled second))) := by
  have hfirst' := hfirst.sublist (keys_filled_sublist first)
  have hsecond' := hsecond.sublist (keys_filled_sublist second)
  have hvalues : ∀ keyword ∈ Keyed.override (filled first) (filled second),
      keyword.2.isEmpty = false :=
    isEmpty_of_mem_override (fun _ => isEmpty_of_mem_filled) fun _ => isEmpty_of_mem_filled
  rw [merge_eq, merge_eq, merge_eq, filled_given hvalues, Keyed.insertAll_insertAll hfirst',
    Keyed.insertAll_eq_override hfirst' hsecond']

/-- A map that has been merged does nothing more. -/
theorem merge_self (call : Call) {map : List (String × Option Expr)}
    (hmap : (Keyed.keys map).Nodup) : (call.merge map).merge map = call.merge map := by
  have hmap' := hmap.sublist (keys_filled_sublist map)
  have hself : Keyed.insertAll (filled map) (filled map) = filled map :=
    (Keyed.insertAll_eq_self_iff hmap').mpr fun _ => Keyed.lookup_of_mem hmap'
  rw [merge_eq, merge_eq, Keyed.insertAll_insertAll hmap', hself]

/-- A merge changes nothing exactly if the call has all keywords with their values. -/
theorem merge_eq_self_iff (call : Call) {map : List (String × Option Expr)}
    (hmap : (Keyed.keys map).Nodup) :
    call.merge map = call ↔
      ∀ keyword ∈ filled map, call.keyword? keyword.1 = some keyword.2 := by
  have hmap' := hmap.sublist (keys_filled_sublist map)
  rw [merge_eq]
  refine Iff.trans ?_ (Keyed.insertAll_eq_self_iff hmap')
  constructor
  · exact fun heq => congrArg Call.keywords heq
  · intro heq
    rw [heq]

/-- Maps of keywords act on calls, whether or not a call has a key several times. Two merges are
    one, with the second map laid over the first, so that merging a map again changes nothing. What
    a map gives a value is found afterwards, and everything else as before. The keys of the call
    stay in front, new ones are added in the order of the map, and none is there twice that was not
    before. Nothing but keywords changes, and not even they if the call has all values already. -/
theorem merge_action (call : Call) {first second : List (String × Option Expr)}
    (hfirst : (Keyed.keys first).Nodup) (hsecond : (Keyed.keys second).Nodup) :
    (call.merge first).merge second =
        call.merge (given (Keyed.override (filled first) (filled second))) ∧
      (Keyed.keys (Keyed.override (filled first) (filled second))).Nodup ∧
      (call.merge first).merge first = call.merge first ∧
      (∀ key, (call.merge first).keyword? key =
        ((filled first).lookup key).or (call.keyword? key)) ∧
      Keyed.keys (call.merge first).keywords = Keyed.keys call.keywords ++
        (Keyed.keys (filled first)).filter (· ∉ Keyed.keys call.keywords) ∧
      ((Keyed.keys call.keywords).Nodup → (Keyed.keys (call.merge first).keywords).Nodup) ∧
      ((call.merge first).callee = call.callee ∧ (call.merge first).args = call.args) ∧
      (call.merge first = call ↔
        ∀ keyword ∈ filled first, call.keyword? keyword.1 = some keyword.2) := by
  -- Leaving out what is not given keeps the keys distinct.
  have hfirst' := hfirst.sublist (keys_filled_sublist first)
  have hsecond' := hsecond.sublist (keys_filled_sublist second)
  refine ⟨merge_merge call hfirst hsecond, ?_, merge_self call hfirst, fun key => ?_, ?_,
    fun hnodup => ?_, ?_, merge_eq_self_iff call hfirst⟩
  · rw [← Keyed.insertAll_eq_override hfirst' hsecond']
    exact Keyed.nodup_keys_insertAll hfirst'
  · rw [merge_eq]
    exact Keyed.lookup_insertAll hfirst' key
  · rw [merge_eq]
    exact Keyed.keys_insertAll hfirst'
  · rw [merge_eq]
    exact Keyed.nodup_keys_insertAll hnodup
  · rw [merge_eq]
    exact ⟨rfl, rfl⟩

/-- A call that has a keyword twice. -/
def repeatingCall : Call :=
  ⟨"Field", [.source "lambda: Int"], [("a", .source "1"), ("b", .source "2"), ("a", .source "3")]⟩

/-- An empty value, a missing one, one for the keyword that is there twice, and a new keyword. -/
def firstMap : List (String × Option Expr) :=
  [("c", some (.source "")), ("a", some (.source "4")), ("d", none), ("e", some (.source "5"))]

/-- A value for what has been added, one for what was left out, and an empty one. -/
def secondMap : List (String × Option Expr) :=
  [("e", some (.source "6")), ("c", some (.source "7")), ("a", some (.source ""))]

/-- A call with a keyword twice, merged with empty, missing and new values. -/
theorem merge_action_repeatingCall :
    ((repeatingCall.merge firstMap).merge secondMap =
        repeatingCall.merge (given
          [("a", .source "4"), ("e", .source "6"), ("c", .source "7")])) ∧
      (repeatingCall.merge firstMap).merge firstMap = repeatingCall.merge firstMap ∧
      (repeatingCall.merge firstMap).keyword? "a" = some (.source "4") ∧
      (repeatingCall.merge firstMap).keyword? "b" = some (.source "2") ∧
      Keyed.keys (repeatingCall.merge firstMap).keywords = ["a", "b", "a", "e"] ∧
      (repeatingCall.merge firstMap).args = [.source "lambda: Int"] ∧
      repeatingCall.merge firstMap ≠ repeatingCall := by
  have hfirst : (Keyed.keys firstMap).Nodup := by decide
  have hsecond : (Keyed.keys secondMap).Nodup := by decide
  obtain ⟨hmerge, -, hagain, hlookup, hkeys, -, ⟨-, hargs⟩, hsame⟩ :=
    merge_action repeatingCall hfirst hsecond
  refine ⟨hmerge, hagain, hlookup "a", hlookup "b", hkeys, hargs, hsame.not.mpr ?_⟩
  intro hall
  have hlast := hall ("a", .source "4") (by simp [filled, firstMap, Expr.isEmpty, Text.isEmpty])
  exact absurd hlast (by decide)

end Call

end SchemaClasses
