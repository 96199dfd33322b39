import SchemaClasses.Code.Literal
import SchemaClasses.Json.Printer
import SchemaClasses.Proofs.Success

/-!
# Source text

How characters are written within quotes, how long joined texts are, what values are printed as, and
which texts are not empty: a merge leaves out what is empty, so it leaves out no literal and no
printed value.
-/

namespace SchemaClasses

/-! ## Quotes -/

/-- A character within quotes stands for itself, is escaped by one character, or by its number. -/
theorem Text.quoteChar_cases (c : Char) :
    (Text.quoteChar c = [c] ∧ c ≠ '"' ∧ c ≠ '\\' ∧ c ≠ '\n' ∧ c ≠ '\r') ∨
    (∃ letter, Text.quoteChar c = ['\\', letter] ∧ letter ≠ '\n' ∧ letter ≠ '\r') ∨
    ∃ high < 16, ∃ low < 16,
      Text.quoteChar c = ['\\', 'u', '0', '0', Text.hexDigit high, Text.hexDigit low] := by
  unfold Text.quoteChar
  split_ifs with hquote hbackslash hfeed hreturn _ _ _ hcontrol
  any_goals exact .inr (.inl ⟨_, rfl, by decide, by decide⟩)
  · exact .inr (.inr ⟨c.toNat / 16, by omega, c.toNat % 16, by omega, rfl⟩)
  · exact .inl ⟨rfl, hquote, hbackslash, hfeed, hreturn⟩

/-! ## Joined texts -/

/-- Joined texts that are not empty have one character each at least. -/
theorem Text.length_le_joinWith (separator : String) {texts : List String}
    (h : ∀ text ∈ texts, text ≠ "") :
    texts.length ≤ (Text.joinWith separator texts).toList.length := by
  have hpos : ∀ text ∈ texts, 0 < text.toList.length := by
    simpa [List.length_pos_iff] using h
  clear h
  fun_induction Text.joinWith separator texts with
  | case1 => simp
  | case2 text => exact hpos text List.mem_cons_self
  | case3 text rest hrest ih =>
    rw [List.forall_mem_cons] at hpos
    have hlength := ih hpos.2
    simp only [String.toList_append, List.length_append, List.length_cons]
    omega

/-- A piece is no longer than what it is joined into. -/
theorem Text.length_le_joinWith_of_mem (separator : String) {texts : List String} {text : String}
    (h : text ∈ texts) :
    text.toList.length ≤ (Text.joinWith separator texts).toList.length := by
  fun_induction Text.joinWith separator texts with
  | case1 => simp at h
  | case2 other =>
    obtain rfl : text = other := by simpa using h
    exact Nat.le_refl _
  | case3 other rest _ ih =>
    simp only [String.toList_append, List.length_append]
    rcases List.mem_cons.mp h with rfl | hrest
    · omega
    · have := ih hrest
      omega

/-- The pieces of a list consist of its elements, but for that at which it is split. -/
theorem Text.mem_of_mem_splitOn {α : Type} [DecidableEq α] {x : α} {list piece : List α}
    (h : piece ∈ list.splitOn x) : ∀ y ∈ piece, y ∈ list ∧ y ≠ x := by
  induction list generalizing piece with
  | nil =>
    obtain rfl : piece = [] := by simpa using h
    simp
  | cons first rest ih =>
    rw [List.splitOn, List.splitOnP_cons_eq_if_modifyHead] at h
    have hrest : ∀ other ∈ List.splitOnP (· == x) rest, ∀ y ∈ other, y ∈ first :: rest ∧ y ≠ x :=
      fun other hother y hy => (ih hother y hy).imp_left (List.mem_cons_of_mem first)
    split at h
    case isTrue =>
      rcases List.mem_cons.mp h with rfl | hmem
      · simp
      · exact hrest piece hmem
    case isFalse hne =>
      -- The first element is put in front of the first piece of the rest.
      obtain ⟨head, tail, hsplit⟩ := List.exists_cons_of_ne_nil (List.splitOnP_ne_nil (· == x) rest)
      rw [hsplit, List.forall_mem_cons] at hrest
      rw [hsplit, List.modifyHead_cons, List.mem_cons] at h
      rcases h with rfl | hmem
      · rw [List.forall_mem_cons]
        exact ⟨⟨List.mem_cons_self, by simpa using hne⟩, hrest.1⟩
      · exact hrest.2 piece hmem

/-! ## Printed values -/

namespace Json

/-- Induction on values: an array and an object have what all of their parts have. -/
theorem induction {τ : Type} {P : Json τ → Prop} (null : P .null) (bool : ∀ b, P (.bool b))
    (int : ∀ n, P (.int n)) (float : ∀ x, P (.float x)) (string : ∀ text, P (.string text))
    (array : ∀ items, (∀ item ∈ items, P item) → P (.array items))
    (object : ∀ members, (∀ entry ∈ members, P entry.2) → P (.object members)) (j : Json τ) :
    P j := by
  refine @Json.rec τ P (fun items => ∀ item ∈ items, P item)
    (fun members => ∀ entry ∈ members, P entry.2) (fun entry => P entry.2)
    null bool int float string array object ?_ ?_ ?_ ?_ ?_ j
  · simp
  · exact fun head tail hhead htail => List.forall_mem_cons.mpr ⟨hhead, htail⟩
  · simp
  · exact fun head tail hhead htail => List.forall_mem_cons.mpr ⟨hhead, htail⟩
  · exact fun _ _ h => h

theorem printItems_eq (items : List (Json Text)) : printItems items = items.map print := by
  induction items with
  | nil => rfl
  | cons item rest ih => rw [printItems, ih, List.map_cons]

theorem printMembers_eq (members : List (Text × Json Text)) :
    printMembers members = members.map fun (key, value) => key.quoted ++ ": " ++ value.print := by
  induction members with
  | nil => rfl
  | cons entry rest ih => rw [printMembers, ih, List.map_cons]

end Json

/-- An integer is shown as its numeral. -/
theorem Decimal.toString_eq_text (n : Int) :
    toString n = (Decimal.IntNumeral.mk (n < 0) n.natAbs).text := by
  apply String.toList_inj.mp
  cases n with
  | ofNat m =>
    simp [toString, Int.repr, Nat.repr_eq_ofList_toDigits, IntNumeral.text, IntNumeral.chars]
  | negSucc m =>
    simp [toString, Int.repr, Nat.repr_eq_ofList_toDigits, IntNumeral.text, IntNumeral.chars,
      Int.negSucc_lt_zero]

/-! ## Texts that are not empty -/

theorem Decimal.IntNumeral.text_ne_empty (n : Decimal.IntNumeral) : n.text ≠ "" := by
  simp [Decimal.IntNumeral.text, Decimal.IntNumeral.chars, Nat.toDigits_ne_nil]

theorem Decimal.FloatNumeral.text_ne_empty (n : Decimal.FloatNumeral) : n.text ≠ "" := by
  simp [Decimal.FloatNumeral.text, Decimal.FloatNumeral.chars, Nat.toDigits_ne_nil]

theorem Text.quote_ne_empty (text : String) : Text.quote text ≠ "" := by
  simp [Text.quote, Text.quoteChars]

/-- A literal has some text. -/
theorem Value.emit_ne_empty {value : Value} {text : String} (h : value.emit = .ok text) :
    text ≠ "" := by
  cases value with
  | «variable» name => simp [Value.emit] at h
  | int n => simp only [Value.emit, Except.ok.injEq] at h; exact h ▸ n.text_ne_empty
  | float n => simp only [Value.emit, Except.ok.injEq] at h; exact h ▸ n.text_ne_empty
  | string content block =>
    simp only [Value.emit, Except.ok.injEq] at h
    exact h ▸ Text.quote_ne_empty content
  | boolean b => cases b <;> simp [Value.emit, Value.boolText] at h <;> simp [← h]
  | null => simp only [Value.emit, Except.ok.injEq] at h; simp [← h]
  | enum name => simp only [Value.emit, Except.ok.injEq] at h; exact h ▸ Text.quote_ne_empty name
  | list items =>
    simp only [Value.emit, Success.bind_eq_ok, Success.pure_eq_ok] at h
    obtain ⟨texts, -, rfl⟩ := h
    simp
  | object fields =>
    simp only [Value.emit, Success.bind_eq_ok, Success.pure_eq_ok] at h
    obtain ⟨texts, -, rfl⟩ := h
    simp

/-- A double has a text if infinity and no number have one. -/
theorem Decimal.Binary64.textWith_ne_empty {x : Decimal.Binary64} {names : String × String}
    (h : names.1 ≠ "" ∧ names.2 ≠ "") : x.textWith names ≠ "" := by
  cases x with
  | finite negative significand shift =>
    simp only [Decimal.Binary64.textWith]
    split
    · simp
    case h_2 n _ => exact n.text_ne_empty
  | infinity negative => simp [Decimal.Binary64.textWith, h.1]
  | nan => exact h.2

/-- A printed value has some text. -/
theorem Json.print_ne_empty (j : Json Text) : j.print ≠ "" := by
  cases j with
  | null => simp [Json.print]
  | bool b => cases b <;> simp [Json.print]
  | int n =>
    rw [Json.print, Decimal.toString_eq_text, Ne, Text.ofString_inj]
    exact Decimal.IntNumeral.text_ne_empty _
  | float x =>
    rw [Json.print, Ne, Text.ofString_inj]
    exact x.textWith_ne_empty (by simp)
  | string text => simp [Json.print, Text.quoted, Text.ext_iff]
  | array items => simp [Json.print]
  | object members => simp [Json.print]

end SchemaClasses
