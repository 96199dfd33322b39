import SchemaClasses.Proofs.Json.Grammar

/-!
# Reading strings

White space and the contents of strings are read as the grammar has them, and nothing else is.
-/

namespace SchemaClasses.Json

open Literal (Stops)

/-! ## White space -/

@[simp] theorem Cursor.advance_rest (c : Cursor) (count : Nat) :
    (c.advance count).rest = c.rest.drop count := rfl

theorem Cursor.skipBlanks_rest (c : Cursor) : c.skipBlanks.rest = c.rest.dropWhile isBlank := by
  have hsplit : c.rest = c.rest.takeWhile isBlank ++ c.rest.dropWhile isBlank :=
    List.takeWhile_append_dropWhile.symm
  rw [skipBlanks, advance_rest]
  nth_rewrite 2 [hsplit]
  rw [List.drop_left]

theorem blanks_skipBlanks (c : Cursor) : Blanks c.rest c.skipBlanks.rest := by
  refine ⟨c.rest.takeWhile isBlank, fun d hd => List.all_eq_true.mp List.all_takeWhile d hd, ?_⟩
  rw [Cursor.skipBlanks_rest, List.takeWhile_append_dropWhile]

/-- All white space is skipped, and no more. -/
theorem skipBlanks_of_blanks {c : Cursor} {rest : List Char} (h : Blanks c.rest rest)
    (hrest : Stops isBlank rest) : c.skipBlanks.rest = rest := by
  obtain ⟨blanks, hblanks, heq⟩ := h
  rw [Cursor.skipBlanks_rest, heq, Literal.dropWhile_append_of_stops hblanks hrest]

/-! ## Strings -/

/-- What is read up to the closing quote is the content of a string. -/
theorem readString_sound {opening offset : Nat} {content : List CodePoint} {text : List Char}
    {value : Text} {after : Cursor}
    (h : readString opening offset content text = .ok (value, after)) :
    ∃ more, WritesContent text more after.rest ∧
      value = ⟨content.reverse ++ more⟩ := by
  -- What was read before goes in front of what is still to come.
  have hfront {p : CodePoint} {content : List CodePoint} {text rest : List Char} {value : Text}
      (ih : ∃ more, WritesContent text more rest ∧ value = ⟨(p :: content).reverse ++ more⟩) :
      ∃ more, WritesContent text more rest ∧ value = ⟨content.reverse ++ p :: more⟩ := by
    simpa using ih
  fun_induction readString opening offset content text
  case case2 offset content rest =>
    cases h
    exact ⟨[], .close, by rw [List.append_nil]⟩
  case case6 hhigh hfirst _ hlow hsecond ih =>
    obtain ⟨more, hmore, hvalue⟩ := hfront (ih h)
    exact ⟨_, .pair hhigh hfirst hlow hsecond hmore, hvalue⟩
  case case7 hunit _ second hsecond hnot ih =>
    obtain ⟨more, hmore, hvalue⟩ := hfront (ih h)
    refine ⟨_, .unit hunit (fun _ => ?_) hmore, hvalue⟩
    rintro ⟨_, _, _, _, _, low, heq, hlow, his⟩
    cases heq
    rw [hsecond] at hlow
    cases hlow
    exact hnot his
  case case8 hunit hnot ih =>
    obtain ⟨more, hmore, hvalue⟩ := hfront (ih h)
    exact ⟨_, .unit hunit (absurd · hnot) hmore, hvalue⟩
  case case10 hend unit hunit ih =>
    obtain ⟨more, hmore, hvalue⟩ := hfront (ih h)
    refine ⟨_, .unit hunit (fun _ => ?_) hmore, hvalue⟩
    rintro ⟨a, b, c, d, rest, low, heq, -⟩
    rw [List.cons.injEq] at heq
    obtain ⟨rfl, rfl⟩ := heq
    cases rest with
    | nil => simp [readString] at h
    | cons last rest => exact hend a b c d last rest rfl rfl
  case case12 hletter ih =>
    obtain ⟨more, hmore, hvalue⟩ := hfront (ih h)
    exact ⟨_, .escape hletter hmore, hvalue⟩
  case case15 c text hquote hlast _ _ _ hbackslash hcontrol ih =>
    obtain ⟨more, hmore, hvalue⟩ := hfront (ih h)
    refine ⟨_, .plain hquote (fun heq => ?_) (Nat.not_lt.mp hcontrol) hmore, hvalue⟩
    cases text with
    | nil => exact hlast heq rfl
    | cons letter text => exact hbackslash letter text heq rfl
  all_goals cases h

/-- A code unit is read as one code point if it is not followed by the other half of a pair. -/
theorem readString_unit {opening offset unit : Nat} {a b c d next : Char} {rest : List Char}
    {content : List CodePoint} (hunit : hex4? a b c d = some unit)
    (hpair : isHighHalf unit → ∀ a' b' c' d' last beyond,
      next :: rest = '\\' :: 'u' :: a' :: b' :: c' :: d' :: last :: beyond →
      ∃ second, hex4? a' b' c' d' = some second ∧ isLowHalf second = false) :
    readString opening offset content ('\\' :: 'u' :: a :: b :: c :: d :: next :: rest) =
      readString opening (offset + 6) (unitPoint unit :: content) (next :: rest) := by
  by_cases hescape : ∃ a' b' c' d' last beyond,
      next :: rest = '\\' :: 'u' :: a' :: b' :: c' :: d' :: last :: beyond
  · obtain ⟨a', b', c', d', last, beyond, heq⟩ := hescape
    rw [heq, readString]
    simp only [hunit]
    split
    case isTrue hfirst =>
      obtain ⟨second, hsecond, hlow⟩ := hpair hfirst a' b' c' d' last beyond heq
      simp only [hsecond, hlow, Bool.false_eq_true, if_false]
    case isFalse => rfl
  · rw [readString]
    · simp only [hunit]
    · rintro a' b' c' d' last beyond rfl rfl
      exact hescape ⟨a', b', c', d', last, beyond, rfl⟩

/-- An escape by four digits in the content of a string has a value. -/
theorem WritesContent.exists_unit {a b c d : Char} {text rest : List Char}
    {content : List CodePoint}
    (h : WritesContent ('\\' :: 'u' :: a :: b :: c :: d :: text) content rest) :
    ∃ unit, hex4? a b c d = some unit := by
  cases h with
  | plain _ hbackslash => exact absurd rfl hbackslash
  | escape hletter => cases hletter
  | unit hunit => exact ⟨_, hunit⟩
  | pair hhigh => exact ⟨_, hhigh⟩

theorem WritesContent.ne_nil {text rest : List Char} {content : List CodePoint}
    (h : WritesContent text content rest) : text ≠ [] := by
  cases h <;> exact List.cons_ne_nil _ _

/-- What is read as one code point and the rest of a content is read as the content. -/
theorem readString_step {opening offset next : Nat} {p : CodePoint} {content more : List CodePoint}
    {text text' rest : List Char}
    (hone : readString opening offset content text = readString opening next (p :: content) text')
    (hread : ∃ after, readString opening next (p :: content) text' =
      .ok (⟨(p :: content).reverse ++ more⟩, after) ∧ after.rest = rest) :
    ∃ after, readString opening offset content text =
      .ok (⟨content.reverse ++ p :: more⟩, after) ∧ after.rest = rest := by
  rwa [hone, List.append_cons, ← List.reverse_cons]

/-- The content of a string is read up to its closing quote. -/
theorem readString_complete {text rest : List Char} {more : List CodePoint}
    (h : WritesContent text more rest) (opening offset : Nat) (content : List CodePoint) :
    ∃ after, readString opening offset content text =
      .ok (⟨content.reverse ++ more⟩, after) ∧ after.rest = rest := by
  -- The content before the place where reading goes on is kept reversed, so it stays general.
  induction h generalizing offset content with
  | close => exact ⟨_, by rw [readString, List.append_nil], rfl⟩
  | @plain c text rest more hquote hbackslash hcontrol _ ih =>
    refine readString_step ?_ (ih (offset + 1) (c :: content))
    rw [readString]
    · exact if_neg (Nat.not_lt.mpr hcontrol)
    all_goals
      intros
      contradiction
  | @escape letter c text rest more hletter _ ih =>
    refine readString_step ?_ (ih (offset + 2) (c :: content))
    have hunit : letter ≠ 'u' := by
      rintro rfl
      cases hletter
    rw [readString]
    · simp only [hletter]
    all_goals
      intros
      contradiction
  | @unit a b c d unit text rest more hunit hpair hmore ih =>
    obtain ⟨next, others, rfl⟩ := List.exists_cons_of_ne_nil hmore.ne_nil
    refine readString_step ?_ (ih (offset + 6) (unitPoint unit :: content))
    -- A first half of a pair stands alone only if no second half follows it.
    refine readString_unit hunit fun hfirst a' b' c' d' last beyond heq => ?_
    rw [heq] at hmore hpair
    obtain ⟨second, hsecond⟩ := hmore.exists_unit
    refine ⟨second, hsecond, ?_⟩
    rw [← Bool.not_eq_true]
    exact fun hlow => hpair hfirst ⟨_, _, _, _, _, second, rfl, hsecond, hlow⟩
  | @pair a b c d a' b' c' d' high low text rest more hhigh hfirst hlow hsecond hmore ih =>
    obtain ⟨next, others, rfl⟩ := List.exists_cons_of_ne_nil hmore.ne_nil
    refine readString_step ?_ (ih (offset + 12) (pairChar high low :: content))
    rw [readString]
    simp only [hhigh, hfirst, hlow, hsecond, if_true]

end SchemaClasses.Json
