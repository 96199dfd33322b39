import SchemaClasses.Proofs.Literals.Reading
import Mathlib

/-!
# Reading quoted strings

A quoted text is one literal between double quotes, whatever source text comes after it, and is read
back as the text. So no text ends its literal early, and different texts are quoted differently.
-/

namespace SchemaClasses.Literal

open Text (hexDigit quote quoteChar quoteChars)

/-! ## The reader -/

/-- The content of the literal between double quotes at the front of a text. -/
def readShort : List Char → Reading (List Char)
  | '"' :: rest => readString rest
  | _ => none

theorem toList_quote_append (text : String) (rest : List Char) :
    (quote text).toList ++ rest = '"' :: (text.toList.flatMap quoteChar ++ '"' :: rest) := by
  simp [quote, quoteChars]

/-- A quoted text is read back, whatever follows. -/
theorem readShort_quote_append (text : String) (rest : List Char) :
    readShort ((quote text).toList ++ rest) = some (text.toList, rest) := by
  rw [toList_quote_append, readShort, readString_quoted]

/-! ## Literals with three quotes -/

/-- With literals between three quotes in the language, too, nothing is read differently but two
    quotes that a third one follows. -/
theorem readQuoted_body (text : String) (rest : List Char) :
    readQuoted (text.toList.flatMap quoteChar ++ '"' :: rest) =
      if text = "" ∧ rest.head? = some '"' then none else some (.string text, rest) := by
  split
  case isTrue h =>
    obtain ⟨more, rfl⟩ := List.head?_eq_some_iff.mp h.2
    rw [h.1]
    rfl
  case isFalse h =>
    have htwo : (text.toList.flatMap quoteChar ++ '"' :: rest).take 2 ≠ ['"', '"'] := by
      by_cases hrest : rest.head? = some '"'
      · -- The text is not empty, and its first character is written without a quote in front.
        have hne : text.toList ≠ [] := fun hnil => h ⟨by simpa using hnil, hrest⟩
        obtain ⟨c, more, htext⟩ := List.exists_cons_of_ne_nil hne
        obtain ⟨d, escaped, hchar, hd⟩ := quoteChar_head c
        simp [htext, hchar, hd]
      · exact take_two_quoted _ hrest
    rw [readQuoted, if_neg htwo, readString_quoted]
    simp

/-- As a literal it is read back before everything but a quote after the empty text, which would
    open a longer literal. -/
theorem readValue_quote_append (depth : Nat) (text : String) (rest : List Char) :
    readValue (depth + 1) ((quote text).toList ++ rest) =
      if text = "" ∧ rest.head? = some '"' then none else some (.string text, rest) := by
  rw [toList_quote_append, ← readQuoted_body text rest]
  rfl

/-! ## Control characters -/

theorem le_toNat_hexDigit : ∀ n < 16, 0x20 ≤ (hexDigit n).toNat := by
  decide

theorem le_toNat_quoteChar (c : Char) : ∀ d ∈ quoteChar c, 0x20 ≤ d.toNat := by
  unfold quoteChar
  split_ifs with _ _ _ _ _ _ _ hcontrol
  iterate 7 (· simp)
  · -- The number of a control character is below 32, so it has two digits.
    have hhigh := le_toNat_hexDigit (c.toNat / 16) (by omega)
    have hlow := le_toNat_hexDigit (c.toNat % 16) (by omega)
    simpa using ⟨hhigh, hlow⟩
  · simpa using hcontrol

/-- No character of a quoted text comes before the blank. -/
theorem le_toNat_quote (text : String) : ∀ c ∈ (quote text).toList, 0x20 ≤ c.toNat := by
  have hbody : ∀ c ∈ text.toList.flatMap quoteChar, 0x20 ≤ c.toNat := by
    intro c hc
    obtain ⟨d, -, hd⟩ := List.mem_flatMap.mp hc
    exact le_toNat_quoteChar d c hd
  have hquote : 0x20 ≤ '"'.toNat := by decide
  rw [quote, String.toList_ofList, quoteChars, List.forall_mem_cons, List.forall_mem_append,
    List.forall_mem_singleton]
  exact ⟨hquote, hbody, hquote⟩

/-! ## Quoted strings -/

/-- No quoted text is the start of another one. -/
theorem quote_append_inj {text other : String} {rest more : List Char}
    (h : (quote text).toList ++ rest = (quote other).toList ++ more) :
    text = other ∧ rest = more := by
  have hread := readShort_quote_append text rest
  rw [h, readShort_quote_append, Option.some.injEq, Prod.mk.injEq, String.toList_inj] at hread
  exact ⟨hread.1.symm, hread.2.symm⟩

/-- Before any source text, a quoted text is read to its own end and gives the text back, and it has
    no control character below the blank in it. So no quoted text is another one or the start of it.
    Where literals between three quotes are known, too, the one exception is an empty text right
    before a quote, for these three quotes open such a literal. -/
theorem readShort_quote (text : String) (rest : List Char) :
    readShort ((quote text).toList ++ rest) = some (text.toList, rest) ∧
      (∀ c ∈ (quote text).toList, 0x20 ≤ c.toNat) ∧
      (∀ (other : String) (more : List Char),
        (quote text).toList ++ rest = (quote other).toList ++ more → text = other ∧ rest = more) ∧
      ∀ depth, readValue (depth + 1) ((quote text).toList ++ rest) =
        if text = "" ∧ rest.head? = some '"' then none else some (.string text, rest) :=
  ⟨readShort_quote_append text rest, le_toNat_quote text, fun _ _ => quote_append_inj,
    fun depth => readValue_quote_append depth text rest⟩

end SchemaClasses.Literal
