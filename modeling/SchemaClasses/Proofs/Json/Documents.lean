import SchemaClasses.Proofs.Json.Reading

/-!
# Reading documents

A text is read as a value if and only if it is a document with that value within the limits of
reading. A document beyond them exceeds a limit, and so may a text that is no document, but only if
it has many digits or brackets.
-/

namespace SchemaClasses.Json

/-! ## Limits -/

/-- Whether a character opens an array or an object, unless it is within a string. -/
def isOpening (c : Char) : Bool :=
  c == '[' || c == '\x7b'

/-- The text has more brackets and braces than may nest, or more digits in a row than are read. -/
def Exceeds (depth : Nat) (text : List Char) : Prop :=
  depth < text.countP isOpening ∨
    ∃ run, run <:+: text ∧ (∀ c ∈ run, c.isDigit) ∧ Decimal.maxDigits < run.length

theorem Exceeds.of_suffix {depth : Nat} {text rest : List Char} (h : Exceeds depth rest)
    (hsuffix : rest <:+ text) : Exceeds depth text := by
  rcases h with hcount | ⟨run, hrun, hdigits, hlength⟩
  · exact .inl (hcount.trans_le (hsuffix.sublist.countP_le))
  · exact .inr ⟨run, hrun.trans hsuffix.isInfix, hdigits, hlength⟩

/-- A bracket in front takes one more level. -/
theorem Exceeds.of_opening {depth : Nat} {c : Char} {text rest : List Char} (h : Exceeds depth rest)
    (hsuffix : rest <:+ text) (hc : isOpening c) : Exceeds (depth + 1) (c :: text) := by
  rcases h.of_suffix hsuffix with hcount | ⟨run, hrun, hdigits, hlength⟩
  · left
    rw [List.countP_cons_of_pos hc]
    exact Nat.succ_lt_succ hcount
  · exact .inr ⟨run, hrun.trans (List.suffix_cons c text).isInfix, hdigits, hlength⟩

/-- What follows a separator is an end of the text before it. -/
theorem after_suffix {c : Cursor} {d : Char} {rest : List Char}
    (h : c.skipBlanks.rest = d :: rest) :
    (c.skipBlanks.advance 1).skipBlanks.rest <:+ c.rest :=
  ((blanks_after h).suffix.trans (List.suffix_cons d rest)).trans (blanks_upTo h).suffix

/-- No string exceeds a limit. -/
theorem readString_limit {opening offset : Nat} {content : List CodePoint} {text : List Char}
    {e : ReadError} (h : readString opening offset content text = .error e) :
    e.fault.isLimit = false := by
  fun_induction readString opening offset content text
  case case6 ih | case7 ih | case8 ih | case10 ih | case12 ih | case15 ih => exact ih h
  all_goals
    cases h
  all_goals rfl

/-- Of words and numbers only an integer of too many digits exceeds a limit. -/
theorem readAtom_limit {c : Cursor} {e : ReadError} (h : readAtom c = .error e)
    (hlimit : e.fault.isLimit) (depth : Nat) : Exceeds depth c.rest := by
  have hrun {negative : Bool} {place : Cursor} (hplace : place.rest <:+ c.rest)
      (hread : (readMagnitude negative place).mapError (fun fault => ReadError.mk fault c.offset) =
        .error e) : Exceeds depth c.rest := by
    obtain ⟨fault, hfault, rfl⟩ := Success.mapError_eq_error.mp hread
    refine .inr ⟨leadingWhole place.rest, ?_, isDigit_leadingWhole place.rest,
      readMagnitude_limit hfault hlimit⟩
    exact (leadingWhole_front place.rest).isInfix.trans hplace.isInfix
  unfold readAtom at h
  split at h
  case h_1 => cases h
  case h_2 =>
    dsimp only at h
    split at h
    case h_1 => exact hrun (List.drop_suffix 1 c.rest) h
    case h_2 => exact hrun (List.suffix_refl _) h

/-- Reading with this fuel exceeds a limit only on texts that may do so. -/
def Limited (fuel : Nat) : Prop :=
  (∀ depth c e, readValue fuel depth c = .error e → e.fault.isLimit → Exceeds depth c.rest) ∧
  (∀ depth c e, readItems fuel depth c = .error e → e.fault.isLimit → Exceeds depth c.rest) ∧
  (∀ depth c e, readMembers fuel depth c = .error e → e.fault.isLimit → Exceeds depth c.rest)

/-- A value exceeds a limit if one within it does, or if it opens one level too many. -/
theorem readValue_limit {fuel : Nat} (ih : Limited fuel) {depth : Nat} {c : Cursor} {e : ReadError}
    (h : readValue (fuel + 1) depth c = .error e) (hlimit : e.fault.isLimit) :
    Exceeds depth c.rest := by
  unfold readValue at h
  split at h
  case h_1 rest _ hquote =>
    rcases Success.bind_eq_error.mp h with hread | ⟨_, _, hread⟩
    · rw [readString_limit hread] at hlimit
      cases hlimit
    · cases hread
  -- The bracket is the one too many.
  case h_2 text hopen | h_4 text hopen =>
    left
    rw [hopen, List.countP_cons_of_pos rfl]
    exact Nat.succ_pos _
  case h_3 text inner hopen =>
    rw [hopen]
    dsimp only at h
    split at h
    case h_1 => cases h
    case h_2 =>
      rcases Success.bind_eq_error.mp h with hread | ⟨_, _, hread⟩
      · exact (ih.2.1 _ _ _ hread hlimit).of_opening (blanks_after hopen).suffix rfl
      · cases hread
  case h_5 text inner hopen =>
    rw [hopen]
    dsimp only at h
    split at h
    case h_1 => cases h
    case h_2 =>
      rcases Success.bind_eq_error.mp h with hread | ⟨_, _, hread⟩
      · exact (ih.2.2 _ _ _ hread hlimit).of_opening (blanks_after hopen).suffix rfl
      · cases hread
  case h_6 => exact readAtom_limit h hlimit _

theorem not_isLimit_fail {α : Type} {c : Cursor} {fault : Fault} {e : ReadError}
    (h : (c.fail fault : Except ReadError α) = .error e) (hlimit : e.fault.isLimit) :
    fault.isLimit := by
  cases h
  exact hlimit

theorem readItems_limit {fuel : Nat} (ih : Limited fuel) {depth : Nat} {c : Cursor} {e : ReadError}
    (h : readItems (fuel + 1) depth c = .error e) (hlimit : e.fault.isLimit) :
    Exceeds depth c.rest := by
  unfold readItems at h
  rcases Success.bind_eq_error.mp h with hread | ⟨⟨item, place⟩, hread, h⟩
  · exact ih.1 _ _ _ hread hlimit
  · have hplace : place.rest <:+ c.rest := ((sound fuel).1 _ _ _ _ hread).suffix
    dsimp only at h
    split at h
    case h_1 => cases h
    case h_2 rest hcomma =>
      rcases Success.bind_eq_error.mp h with hmore | ⟨_, _, hmore⟩
      · refine (ih.2.1 _ _ _ hmore hlimit).of_suffix ?_
        exact (after_suffix hcomma).trans hplace
      · cases hmore
    case h_3 => cases not_isLimit_fail h hlimit

theorem readMembers_limit {fuel : Nat} (ih : Limited fuel) {depth : Nat} {c : Cursor}
    {e : ReadError} (h : readMembers (fuel + 1) depth c = .error e) (hlimit : e.fault.isLimit) :
    Exceeds depth c.rest := by
  unfold readMembers at h
  split at h
  case h_1 text hquote =>
    -- Neither the key nor a missing sign breaks a limit, so it was the value or a later member.
    rcases Success.bind_eq_error.mp h with hkey | ⟨⟨key, place⟩, hkey, h⟩
    · rw [readString_limit hkey] at hlimit
      cases hlimit
    · obtain ⟨content, hcontent, -⟩ := readString_sound hkey
      have hplace : place.rest <:+ c.rest := by
        rw [hquote]
        exact hcontent.suffix.trans (List.suffix_cons _ _)
      dsimp only at h
      split at h
      case h_1 rest hcolon =>
        have hstart := (after_suffix hcolon).trans hplace
        rcases Success.bind_eq_error.mp h with hread | ⟨⟨value, last⟩, hread, h⟩
        · exact (ih.1 _ _ _ hread hlimit).of_suffix hstart
        · have hlast : last.rest <:+ c.rest := ((sound fuel).1 _ _ _ _ hread).suffix.trans hstart
          dsimp only at h
          split at h
          case h_1 => cases h
          case h_2 rest hcomma =>
            rcases Success.bind_eq_error.mp h with hmore | ⟨_, _, hmore⟩
            · exact (ih.2.2 _ _ _ hmore hlimit).of_suffix ((after_suffix hcomma).trans hlast)
            · cases hmore
          case h_3 => cases not_isLimit_fail h hlimit
      case h_2 => cases not_isLimit_fail h hlimit
  case h_2 => cases not_isLimit_fail h hlimit

/-- The three readers depend on each other, so what they exceed is shown of all of them by the fuel.
    -/
theorem limited (fuel : Nat) : Limited fuel := by
  induction fuel with
  | zero =>
    refine ⟨fun depth c e h hlimit => ?_, fun depth c e h hlimit => ?_,
      fun depth c e h hlimit => ?_⟩ <;>
    · cases h
      cases hlimit
  | succ fuel ih =>
    exact ⟨fun _ _ _ => readValue_limit ih, fun _ _ _ => readItems_limit ih,
      fun _ _ _ => readMembers_limit ih⟩

/-! ## Documents -/

variable {maxDepth : Nat}

/-- A text that is read is a document within limits. -/
theorem read_sound {text : List Char} {value : Json Text} (h : read maxDepth text = .ok value) :
    IsDocument Decimal.maxDigits maxDepth text value := by
  unfold read at h
  split at h
  case h_1 => cases h
  case h_2 =>
    obtain ⟨⟨value, after⟩, hread, h⟩ := Success.bind_eq_ok.mp h
    dsimp only at h
    split at h
    case isTrue hempty =>
      cases h
      refine ⟨_, _, blanks_skipBlanks (Cursor.mk 0 text), (sound _).1 _ _ _ _ hread, ?_⟩
      exact blanks_upTo (List.isEmpty_iff.mp hempty)
    case isFalse => cases h

/-- A document is read, unless its limits are beyond those of reading: then a limit is exceeded. -/
theorem read_document {digits depth : Nat} {text : List Char} {value : Json Text}
    (h : IsDocument digits depth text value) :
    read maxDepth text = .ok value ∨ (Decimal.maxDigits < digits ∨ maxDepth < depth) ∧
      ∃ e, read maxDepth text = .error e ∧ e.fault.isLimit := by
  obtain ⟨start, after, hstart, hvalue, hafter⟩ := h
  obtain ⟨d, more, rfl, hd⟩ := hvalue.start
  have hends : Ends after := by
    obtain ⟨blanks, hblanks, rfl⟩ := hafter
    rw [List.append_nil]
    exact fun c hc => .inl (hblanks c (List.mem_of_mem_head? hc))
  have hskip : (Cursor.mk 0 text).skipBlanks.rest = d :: more :=
    skipBlanks_of_blanks hstart hvalue.stops
  have hread := hvalue.reads (2 * text.length + 2) maxDepth _ hskip
    (by have := hstart.suffix.length_le; rw [hskip]; omega) hends
  unfold read
  split
  case h_1 rest =>
    -- The mark is neither white space nor the start of a value.
    obtain ⟨blanks, hblanks, heq⟩ := hstart
    cases blanks with
    | nil =>
      obtain ⟨rfl, -⟩ := List.cons.inj heq
      cases hd
    | cons b others =>
      obtain ⟨rfl, -⟩ := List.cons.inj heq
      cases hblanks _ List.mem_cons_self
  case h_2 =>
    rcases hread with ⟨place, hok, hplace⟩ | ⟨hbeyond, e, herror, hlimit⟩
    · left
      have hend : place.skipBlanks.rest = [] :=
        skipBlanks_of_blanks (hplace ▸ hafter) fun _ hc => by cases hc
      rw [hok]
      exact if_pos (by rw [hend]; rfl)
    · right
      exact ⟨hbeyond, e, by rw [herror]; rfl, hlimit⟩

/-- A text is read as a value if and only if it is a document with that value within the limits. -/
theorem read_eq_ok {text : List Char} {value : Json Text} :
    read maxDepth text = .ok value ↔ IsDocument Decimal.maxDigits maxDepth text value := by
  refine ⟨read_sound, fun h => (read_document h).resolve_right ?_⟩
  rintro ⟨hdigits | hdepth, -⟩
  · exact Nat.lt_irrefl _ hdigits
  · exact Nat.lt_irrefl _ hdepth

/-- JSON that is within the limits has the same value there. -/
theorem IsJson.isDocument {text : List Char} {value other : Json Text} (h : IsJson text value)
    (hother : IsDocument Decimal.maxDigits maxDepth text other) :
    IsDocument Decimal.maxDigits maxDepth text value := by
  obtain ⟨digits, depth, hdocument⟩ := h
  rcases read_document hdocument with hread | ⟨-, e, hread, -⟩
  · exact read_eq_ok.mp hread
  · rw [read_eq_ok.mpr hother] at hread
    cases hread

/-- Only a text with many digits or brackets exceeds a limit. -/
theorem read_limit {text : List Char} {e : ReadError} (h : read maxDepth text = .error e)
    (hlimit : e.fault.isLimit) : Exceeds maxDepth text := by
  unfold read at h
  split at h
  case h_1 =>
    cases h
    cases hlimit
  case h_2 =>
    rcases Success.bind_eq_error.mp h with hread | ⟨⟨value, after⟩, -, h⟩
    · exact ((limited _).1 _ _ _ hread hlimit).of_suffix (blanks_skipBlanks _).suffix
    · dsimp only at h
      split at h
      case isTrue => cases h
      case isFalse => cases not_isLimit_fail h hlimit

end SchemaClasses.Json
