import SchemaClasses.Proofs.Identifiers
import SchemaClasses.Proofs.Literals.Numerals

/-!
# Tokens of a text

The names that a text is split into are identifiers, and its numbers are complete. A place where no
token can be read is the last of them.
-/

namespace SchemaClasses

/-- The unit is as its class asks for: a name is an identifier, and a number has all its parts. -/
def TokenKind.WellFormed : TokenKind → Prop
  | .name text => Text.isIdentifier text
  | .float n => n.IsLexical
  | .punctuator _ | .int _ | .string _ | .blockString _ | .endOfText | .fault _ => True

/-- The unit is well-formed and no fault. -/
def TokenKind.IsComplete : TokenKind → Prop
  | .name text => Text.isIdentifier text
  | .float n => n.IsLexical
  | .punctuator _ | .int _ | .string _ | .blockString _ | .endOfText => True
  | .fault _ => False

theorem TokenKind.IsComplete.wellFormed {kind : TokenKind} (h : kind.IsComplete) :
    kind.WellFormed := by
  cases kind with
  | name | float => exact h
  | _ => trivial

namespace Token

open Literal (IsDigits)

/-! ## Numbers -/

theorem ofChar?_isSome {c : Char} (h : c.isDigit) : (Decimal.Digit.ofChar? c).isSome := by
  have hrange := Char.isDigit_iff_toNat.mp h
  have hzero : '0'.toNat = 48 := rfl
  have hnine : '9'.toNat = 57 := rfl
  unfold Decimal.Digit.ofChar?
  rw [dif_pos (by omega)]
  rfl

theorem filterMap_ofChar?_ne_nil {digits : List Char} (h : IsDigits digits) :
    digits.filterMap Decimal.Digit.ofChar? ≠ [] := by
  obtain ⟨c, rest, rfl⟩ := List.exists_cons_of_ne_nil h.1
  obtain ⟨d, hd⟩ := Option.isSome_iff_exists.mp (ofChar?_isSome (h.2 c List.mem_cons_self))
  simp [hd]

theorem isDigits_of_readDigits {place : Nat} {text digits : List Char}
    (h : readDigits place text = .ok digits) : IsDigits digits := by
  simp only [readDigits] at h
  split at h
  case isTrue => cases h
  case isFalse hne =>
    rw [Except.ok.injEq] at h
    subst h
    refine ⟨by simpa using hne, fun c hc => List.all_eq_true.mp List.all_takeWhile c hc⟩

/-- A fraction that is read has a digit, unless there is none. -/
theorem isDigits_of_readFraction {place size : Nat} {text digits : List Char}
    (h : readFraction place text = .ok (digits, size)) : digits = [] ∨ IsDigits digits := by
  unfold readFraction at h
  split at h
  · simp only [Success.bind_eq_ok, Success.pure_eq_ok, Prod.mk.injEq] at h
    obtain ⟨digits, hdigits, rfl, -⟩ := h
    exact .inr (isDigits_of_readDigits hdigits)
  · rw [Except.ok.injEq, Prod.mk.injEq] at h
    exact .inl h.1.symm

/-- An exponent that is read has a digit. -/
theorem digits_of_readExponent {place size : Nat} {text : List Char}
    {exponent : Option Decimal.ExponentPart} (h : readExponent place text = .ok (exponent, size)) :
    ∀ e ∈ exponent, e.digits ≠ [] := by
  unfold readExponent at h
  split at h
  · split at h
    case isTrue =>
      split at h
      all_goals
        simp only [Success.bind_eq_ok, Success.pure_eq_ok, Prod.mk.injEq] at h
        obtain ⟨digits, hdigits, _, rfl, rfl, -⟩ := h
        rintro e he
        obtain rfl := Option.some.inj he
        exact filterMap_ofChar?_ne_nil (isDigits_of_readDigits hdigits)
    case isFalse =>
      rw [Except.ok.injEq, Prod.mk.injEq] at h
      simp [← h.1]
  · rw [Except.ok.injEq, Prod.mk.injEq] at h
    simp [← h.1]

/-- A number that is read has all of its parts. -/
theorem readNumber_isComplete {text : List Char} {kind : TokenKind} {size : Nat}
    (h : readNumber text = .ok (kind, size)) : kind.IsComplete := by
  simp only [readNumber, Success.bind_eq_ok] at h
  obtain ⟨whole, -, ⟨fraction, fractionSize⟩, hfraction, ⟨exponent, exponentSize⟩, hexponent, h⟩ := h
  have hplaces := isDigits_of_readFraction hfraction
  have hpower := digits_of_readExponent hexponent
  -- Only the fraction and the exponent decide, wherever the number starts.
  generalize (if text.head? = some '-' then 1 else 0) = sign at h
  split at h
  case isTrue => cases h
  case isFalse =>
    split at h
    case isTrue =>
      cases h
      trivial
    case isFalse hparts =>
      simp only [Success.pure_eq_ok, Prod.mk.injEq] at h
      obtain ⟨rfl, -⟩ := h
      refine ⟨?_, hpower⟩
      rcases hplaces with rfl | hplaces
      · exact .inr (by simpa [Option.isSome_iff_ne_none] using hparts)
      · exact .inl (filterMap_ofChar?_ne_nil hplaces)

/-! ## Strings and names -/

/-- A string is read as a string. -/
theorem readString_isComplete {place size : Nat} {content text : List Char} {kind : TokenKind}
    (h : readString place content text = .ok (kind, size)) : kind.IsComplete := by
  fun_induction readString place content text with
  | case1 | case4 | case5 => cases h
  | case2 =>
    cases h
    trivial
  | case3 _ _ _ _ _ _ _ ih | case6 _ _ _ _ _ _ _ ih => exact ih h

theorem readBlockString_isComplete {place size : Nat} {line : List Char} {lines : List (List Char)}
    {text : List Char} {kind : TokenKind}
    (h : readBlockString place line lines text = .ok (kind, size)) : kind.IsComplete := by
  fun_induction readBlockString place line lines text with
  | case1 => cases h
  | case2 =>
    cases h
    trivial
  | case3 _ _ _ _ ih | case4 _ _ _ _ ih => exact ih h
  | case5 _ _ _ _ _ _ _ _ _ ih | case6 _ _ _ _ _ _ _ _ _ ih => exact ih h

/-- A name goes on for as long as it can. -/
theorem isIdentifier_of_takeWhile {c : Char} (h : isNameStart c) (rest : List Char) :
    Text.isIdentifier (String.ofList (c :: rest.takeWhile isNameChar)) := by
  rw [Text.isIdentifier, String.toList_ofList, Text.isIdentifierChars_cons]
  exact ⟨h, fun d hd => List.all_eq_true.mp List.all_takeWhile d hd⟩

/-- Only scanning as a whole makes tokens of faults. -/
theorem readToken_isComplete {c : Char} {rest : List Char} {kind : TokenKind} {size : Nat}
    (h : readToken c rest = .ok (kind, size)) : kind.IsComplete := by
  unfold readToken at h
  split at h
  case isTrue =>
    split at h
    · exact readBlockString_isComplete h
    · exact readString_isComplete h
  case isFalse =>
    split at h
    case isTrue hstart =>
      cases h
      exact isIdentifier_of_takeWhile hstart rest
    case isFalse =>
      split at h
      case isTrue => exact readNumber_isComplete h
      case isFalse =>
        split at h
        · cases h
          trivial
        · split at h
          · cases h
            trivial
          · split at h <;> cases h

/-- All tokens of a text are well-formed. -/
theorem scanFrom_wellFormed (offset : Nat) (text : List Char) :
    ∀ token ∈ scanFrom offset text, token.kind.WellFormed := by
  fun_induction scanFrom offset text with
  | case1 => simp [TokenKind.WellFormed]
  | case2 _ _ _ _ ih => exact ih
  | case3 _ _ _ _ ih => exact ih
  | case4 offset c rest _ _ kind size hread ih =>
    rw [List.forall_mem_cons]
    exact ⟨(readToken_isComplete hread).wellFormed, ih⟩
  | case5 => simp [TokenKind.WellFormed]

/-- All units of a text are well-formed. -/
theorem scan_wellFormed (text : String) : ∀ token ∈ scan text, token.kind.WellFormed :=
  scanFrom_wellFormed 0 text.toList

/-- After a place where no token can be read there is nothing. -/
theorem getLast?_scanFrom {offset : Nat} {text : List Char} {token : Token} {fault : LexicalFault}
    (hmem : token ∈ scanFrom offset text) (hkind : token.kind = .fault fault) :
    (scanFrom offset text).getLast? = some token := by
  fun_induction scanFrom offset text with
  | case1 =>
    obtain rfl := List.mem_singleton.mp hmem
    cases hkind
  | case2 _ _ _ _ ih => exact ih hmem
  | case3 _ _ _ _ ih => exact ih hmem
  | case4 offset c rest _ _ kind size hread ih =>
    rcases List.mem_cons.mp hmem with rfl | hmem
    · obtain rfl : kind = .fault fault := hkind
      exact (readToken_isComplete hread).elim
    · rw [List.getLast?_cons, ih hmem]
      rfl
  | case5 =>
    obtain rfl := List.mem_singleton.mp hmem
    rfl

end Token

end SchemaClasses
