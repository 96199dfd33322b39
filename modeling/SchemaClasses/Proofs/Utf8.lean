import Mathlib.Data.List.Basic
import SchemaClasses.Proofs.Success
import SchemaClasses.Text.Encoding
import SchemaClasses.Text.Utf8

/-!
# UTF-8

Bytes are read as a text if and only if they are the encoding of the text. A text that is a string
has an encoding, and every other one has a first half of a surrogate pair where encoding it stops.
-/

namespace SchemaClasses.Text

/-! ## Characters -/

/-- The bytes are those of one character. -/
inductive IsEncoded : List UInt8 → Char → Prop
  | one {a : UInt8} (ha : a < 0x80) : IsEncoded [a] (Char.ofNat a.toNat)
  | two {a b : UInt8} (ha : 0xc2 ≤ a ∧ a < 0xe0) (hb : isSecond a b) : IsEncoded [a, b] (char2 a b)
  | three {a b c : UInt8} (ha : 0xe0 ≤ a ∧ a < 0xf0) (hb : isSecond a b) (hc : isContinuation c) :
    IsEncoded [a, b, c] (char3 a b c)
  | four {a b c d : UInt8} (ha : 0xf0 ≤ a ∧ a < 0xf5) (hb : isSecond a b) (hc : isContinuation c)
      (hd : isContinuation d) :
    IsEncoded [a, b, c, d] (char4 a b c d)

theorem isContinuation_iff {b : UInt8} : isContinuation b ↔ 0x80 ≤ b.toNat ∧ b.toNat < 0xc0 := by
  simp [isContinuation, UInt8.lt_iff_toNat_lt, UInt8.le_iff_toNat_le]

/-- A second byte continues a character, and leaves out the overlong, the surrogates, and what is
    beyond the last code point. -/
theorem isSecond_iff {a b : UInt8} :
    isSecond a b ↔ (0x80 ≤ b.toNat ∧ b.toNat < 0xc0) ∧ (a.toNat = 0xe0 → 0xa0 ≤ b.toNat) ∧
      (a.toNat = 0xed → b.toNat < 0xa0) ∧ (a.toNat = 0xf0 → 0x90 ≤ b.toNat) ∧
      (a.toNat = 0xf4 → b.toNat < 0x90) := by
  unfold isSecond
  rw [Bool.and_eq_true, isContinuation_iff]
  refine and_congr_right fun _ => ?_
  simp only [← UInt8.toNat_inj]
  split_ifs <;> simp_all [UInt8.lt_iff_toNat_lt, UInt8.le_iff_toNat_le]

theorem between_iff {low high a : UInt8} :
    low ≤ a ∧ a < high ↔ low.toNat ≤ a.toNat ∧ a.toNat < high.toNat := by
  rw [UInt8.lt_iff_toNat_lt, UInt8.le_iff_toNat_le]

/-- The encoding of a code point. -/
theorem utf8EncodeChar_ofNat {n : Nat} (h : n.isValidChar) :
    String.utf8EncodeChar (Char.ofNat n) =
      if n ≤ 127 then [UInt8.ofNat n]
      else if n ≤ 2047 then [UInt8.ofNat (n / 64 % 32 + 192), UInt8.ofNat (n % 64 + 128)]
      else if n ≤ 65535 then
        [UInt8.ofNat (n / 4096 % 16 + 224), UInt8.ofNat (n / 64 % 64 + 128),
          UInt8.ofNat (n % 64 + 128)]
      else
        [UInt8.ofNat (n / 262144 % 8 + 240), UInt8.ofNat (n / 4096 % 64 + 128),
          UInt8.ofNat (n / 64 % 64 + 128), UInt8.ofNat (n % 64 + 128)] := by
  have hval : (Char.ofNat n).val.toNat = n := by
    rw [Char.ofNat, dif_pos h]
    rfl
  unfold String.utf8EncodeChar
  simp only [hval]

theorem ofNat_eq {n : Nat} {a : UInt8} (h : n = a.toNat) : UInt8.ofNat n = a := by
  rw [h, UInt8.ofNat_toNat]

/-- The bytes of a character are its encoding. -/
theorem IsEncoded.utf8EncodeChar {bytes : List UInt8} {char : Char} (h : IsEncoded bytes char) :
    String.utf8EncodeChar char = bytes := by
  -- In each form the bounds on the first two bytes place the character among those of that length.
  cases h with
  | @one a ha =>
    have ha : a.toNat < 0x80 := by simpa [UInt8.lt_iff_toNat_lt] using ha
    rw [utf8EncodeChar_ofNat (.inl (by omega)), if_pos (by omega), ofNat_eq rfl]
  | @two a b ha hb =>
    obtain ⟨hlow, hhigh⟩ := between_iff.mp ha
    obtain ⟨hb, -⟩ := isSecond_iff.mp hb
    simp only [UInt8.reduceToNat] at hlow hhigh
    unfold char2 continuationBits
    rw [utf8EncodeChar_ofNat (.inl (by omega)), if_neg (by omega), if_pos (by omega),
      ofNat_eq (a := a) (by omega), ofNat_eq (a := b) (by omega)]
  | @three a b c ha hb hc =>
    obtain ⟨hlow, hhigh⟩ := between_iff.mp ha
    obtain ⟨hb, hlong, hsurrogate, -⟩ := isSecond_iff.mp hb
    rw [isContinuation_iff] at hc
    simp only [UInt8.reduceToNat] at hlow hhigh
    unfold char3 continuationBits
    rw [utf8EncodeChar_ofNat (by unfold Nat.isValidChar; omega), if_neg (by omega),
      if_neg (by omega), if_pos (by omega), ofNat_eq (a := a) (by omega),
      ofNat_eq (a := b) (by omega), ofNat_eq (a := c) (by omega)]
  | @four a b c d ha hb hc hd =>
    obtain ⟨hlow, hhigh⟩ := between_iff.mp ha
    obtain ⟨hb, -, -, hlong, hlast⟩ := isSecond_iff.mp hb
    rw [isContinuation_iff] at hc hd
    simp only [UInt8.reduceToNat] at hlow hhigh
    unfold char4 continuationBits
    rw [utf8EncodeChar_ofNat (.inr ⟨by omega, by omega⟩), if_neg (by omega), if_neg (by omega),
      if_neg (by omega), ofNat_eq (a := a) (by omega), ofNat_eq (a := b) (by omega),
      ofNat_eq (a := c) (by omega), ofNat_eq (a := d) (by omega)]

theorem toNat_byte {n : Nat} (h : n < 256) : (UInt8.ofNat n).toNat = n := by
  rw [UInt8.toNat_ofNat', Nat.mod_eq_of_lt h]

/-- The byte that continues a character with the last bits of a number. -/
theorem toNat_continuation (n : Nat) : (UInt8.ofNat (n % 64 + 128)).toNat = n % 64 + 128 :=
  toNat_byte (by omega)

theorem isContinuation_continuation (n : Nat) : isContinuation (UInt8.ofNat (n % 64 + 128)) := by
  rw [isContinuation_iff, toNat_continuation]
  omega

/-- The code points of ASCII take one byte. -/
theorem IsEncoded.of_one {n : Nat} (h : n < 0x80) : IsEncoded [UInt8.ofNat n] (Char.ofNat n) := by
  have hn : (UInt8.ofNat n).toNat = n := toNat_byte (by omega)
  have ha : UInt8.ofNat n < 0x80 := by
    rw [UInt8.lt_iff_toNat_lt, hn]
    exact h
  simpa only [hn] using IsEncoded.one ha

theorem IsEncoded.of_two {n : Nat} (hlow : 0x80 ≤ n) (hhigh : n < 0x800) :
    IsEncoded [UInt8.ofNat (n / 64 + 192), UInt8.ofNat (n % 64 + 128)] (Char.ofNat n) := by
  have hfirst : (UInt8.ofNat (n / 64 + 192)).toNat = n / 64 + 192 := toNat_byte (by omega)
  have ha : 0xc2 ≤ UInt8.ofNat (n / 64 + 192) ∧ UInt8.ofNat (n / 64 + 192) < 0xe0 := by
    rw [between_iff, hfirst]
    simp only [UInt8.reduceToNat]
    omega
  have hb : isSecond (UInt8.ofNat (n / 64 + 192)) (UInt8.ofNat (n % 64 + 128)) := by
    rw [isSecond_iff, hfirst, toNat_continuation]
    omega
  have hbits : (n / 64 + 192 - 192) * 64 + (n % 64 + 128) % 64 = n := by omega
  simpa only [char2, continuationBits, hfirst, toNat_continuation, hbits] using IsEncoded.two ha hb

theorem IsEncoded.of_three {n : Nat} (hlow : 0x800 ≤ n) (hhigh : n < 0x10000)
    (hvalid : n.isValidChar) :
    IsEncoded [UInt8.ofNat (n / 4096 + 224), UInt8.ofNat (n / 64 % 64 + 128),
      UInt8.ofNat (n % 64 + 128)] (Char.ofNat n) := by
  have hfirst : (UInt8.ofNat (n / 4096 + 224)).toNat = n / 4096 + 224 := toNat_byte (by omega)
  have ha : 0xe0 ≤ UInt8.ofNat (n / 4096 + 224) ∧ UInt8.ofNat (n / 4096 + 224) < 0xf0 := by
    rw [between_iff, hfirst]
    simp only [UInt8.reduceToNat]
    omega
  have hb : isSecond (UInt8.ofNat (n / 4096 + 224)) (UInt8.ofNat (n / 64 % 64 + 128)) := by
    rw [isSecond_iff, hfirst, toNat_continuation]
    unfold Nat.isValidChar at hvalid
    omega
  have hbits : ((n / 4096 + 224 - 224) * 64 + (n / 64 % 64 + 128) % 64) * 64
      + (n % 64 + 128) % 64 = n := by omega
  simpa only [char3, continuationBits, hfirst, toNat_continuation, hbits] using
    IsEncoded.three ha hb (isContinuation_continuation n)

/-- Code points beyond the basic plane take four bytes. -/
theorem IsEncoded.of_four {n : Nat} (hlow : 0x10000 ≤ n) (hhigh : n < 0x110000) :
    IsEncoded [UInt8.ofNat (n / 262144 + 240), UInt8.ofNat (n / 4096 % 64 + 128),
      UInt8.ofNat (n / 64 % 64 + 128), UInt8.ofNat (n % 64 + 128)] (Char.ofNat n) := by
  have hfirst : (UInt8.ofNat (n / 262144 + 240)).toNat = n / 262144 + 240 := toNat_byte (by omega)
  have ha : 0xf0 ≤ UInt8.ofNat (n / 262144 + 240) ∧ UInt8.ofNat (n / 262144 + 240) < 0xf5 := by
    rw [between_iff, hfirst]
    simp only [UInt8.reduceToNat]
    omega
  have hb : isSecond (UInt8.ofNat (n / 262144 + 240)) (UInt8.ofNat (n / 4096 % 64 + 128)) := by
    rw [isSecond_iff, hfirst, toNat_continuation]
    omega
  have hbits : (((n / 262144 + 240 - 240) * 64 + (n / 4096 % 64 + 128) % 64) * 64
      + (n / 64 % 64 + 128) % 64) * 64 + (n % 64 + 128) % 64 = n := by omega
  simpa only [char4, continuationBits, hfirst, toNat_continuation, hbits] using
    IsEncoded.four ha hb (isContinuation_continuation (n / 64)) (isContinuation_continuation n)

/-- Every character has bytes that are its own. -/
theorem IsEncoded.exists_bytes (char : Char) : ∃ bytes, IsEncoded bytes char := by
  have hvalid : char.toNat.isValidChar := char.valid
  have hlast : char.toNat < 0x110000 := by
    unfold Nat.isValidChar at hvalid
    omega
  rw [← Char.ofNat_toNat char]
  by_cases hone : char.toNat < 0x80
  · exact ⟨_, .of_one hone⟩
  by_cases htwo : char.toNat < 0x800
  · exact ⟨_, .of_two (Nat.not_lt.mp hone) htwo⟩
  by_cases hthree : char.toNat < 0x10000
  · exact ⟨_, .of_three (Nat.not_lt.mp htwo) hthree hvalid⟩
  · exact ⟨_, .of_four (Nat.not_lt.mp hthree) hlast⟩

/-! ## Texts -/

/-- The bytes of a character before others are read as that character. -/
theorem IsEncoded.decode {bytes : List UInt8} {char : Char} (h : IsEncoded bytes char)
    (position : Nat) (rest : List UInt8) :
    decodeUtf8From position (bytes ++ rest) =
      (char :: ·) <$> decodeUtf8From (position + bytes.length) rest := by
  -- The equation of the decoder is unfolded once in each case; its tests are those of the forms.
  cases h with
  | one ha =>
    rw [List.cons_append, decodeUtf8From.eq_def]
    exact if_pos ha
  | two ha hb =>
    rw [List.cons_append, decodeUtf8From.eq_def]
    simp only [List.cons_append, List.nil_append]
    rw [if_neg (by grind), if_neg (by grind), if_pos ha.2, if_pos hb]
    rfl
  | three ha hb hc =>
    rw [List.cons_append, decodeUtf8From.eq_def]
    simp only [List.cons_append, List.nil_append, hb, hc]
    rw [if_neg (by grind), if_neg (by grind), if_neg (by grind), if_pos ha.2]
    rfl
  | four ha hb hc hd =>
    rw [List.cons_append, decodeUtf8From.eq_def]
    simp only [List.cons_append, List.nil_append, hb, hc, hd]
    rw [if_neg (by grind), if_neg (by grind), if_neg (by grind), if_neg (by grind), if_pos ha.2]
    rfl

/-- The encoding of a text is read as the text, wherever it starts. -/
theorem decodeUtf8From_flatMap (position : Nat) (text : List Char) :
    decodeUtf8From position (text.flatMap String.utf8EncodeChar) = .ok text := by
  induction text generalizing position with
  | nil => rfl
  | cons char rest ih =>
    obtain ⟨bytes, hbytes⟩ := IsEncoded.exists_bytes char
    rw [List.flatMap_cons, hbytes.utf8EncodeChar, hbytes.decode, ih]
    rfl

/-- What is read as a text is its encoding. -/
theorem eq_flatMap_of_decodeUtf8From {position : Nat} {bytes : List UInt8} {text : List Char}
    (h : decodeUtf8From position bytes = .ok text) :
    bytes = text.flatMap String.utf8EncodeChar := by
  -- After the empty text, four cases read a character, one for each length; all others are errors.
  fun_induction decodeUtf8From position bytes generalizing text
  case case1 =>
    cases h
    rfl
  case case2 a rest ha ih =>
    obtain ⟨more, hmore, rfl⟩ := Success.map_eq_ok.mp h
    rw [List.flatMap_cons, ← ih hmore, (IsEncoded.one ha).utf8EncodeChar]
    rfl
  case case5 a _ hlow hhigh b rest hb ih =>
    obtain ⟨more, hmore, rfl⟩ := Success.map_eq_ok.mp h
    have hchar := IsEncoded.two ⟨UInt8.not_lt.mp hlow, hhigh⟩ hb
    rw [List.flatMap_cons, ← ih hmore, hchar.utf8EncodeChar]
    rfl
  case case12 a _ _ hlow hhigh b c rest hb hc ih =>
    obtain ⟨more, hmore, rfl⟩ := Success.map_eq_ok.mp h
    have hchar := IsEncoded.three ⟨UInt8.not_lt.mp hlow, hhigh⟩ (by simpa using hb)
      (by simpa using hc)
    rw [List.flatMap_cons, ← ih hmore, hchar.utf8EncodeChar]
    rfl
  case case22 a _ _ _ hlow hhigh b c d rest hb hc hd ih =>
    obtain ⟨more, hmore, rfl⟩ := Success.map_eq_ok.mp h
    have hchar := IsEncoded.four ⟨UInt8.not_lt.mp hlow, hhigh⟩ (by simpa using hb)
      (by simpa using hc) (by simpa using hd)
    rw [List.flatMap_cons, ← ih hmore, hchar.utf8EncodeChar]
    rfl
  all_goals cases h

/-! ## Files -/

/-- The bytes of an array from one of them on, after those that were taken before. -/
theorem toList_loop (bytes : ByteArray) (start : Nat) (front : List UInt8) :
    ByteArray.toList.loop bytes start front = front.reverse ++ bytes.data.toList.drop start := by
  fun_induction ByteArray.toList.loop bytes start front with
  | case1 start front h ih =>
    have hlt : start < bytes.data.toList.length := h
    have hget : bytes.get! start = bytes.data.toList[start] := by
      change bytes.data[start]! = _
      rw [getElem!_pos bytes.data start h]
      rfl
    rw [ih, List.drop_eq_getElem_cons hlt, hget, List.reverse_cons, List.append_assoc,
      List.singleton_append]
  | case2 start front h =>
    have hle : bytes.data.toList.length ≤ start := Nat.not_lt.mp h
    rw [List.drop_of_length_le hle, List.append_nil]

/-- A text is encoded character by character. -/
theorem encodeUtf8_ofList (text : List Char) :
    encodeUtf8 (String.ofList text) = text.flatMap String.utf8EncodeChar := by
  rw [encodeUtf8, String.toUTF8_eq_toByteArray, String.toByteArray_ofList, ByteArray.toList,
    toList_loop, List.utf8Encode, List.toList_data_toByteArray]
  rfl

/-- Bytes are read as a text exactly if they are what the text is written as. -/
theorem decodeUtf8_eq_ok {bytes : List UInt8} {text : List Char} :
    decodeUtf8 bytes = .ok text ↔ bytes = encodeUtf8 (String.ofList text) := by
  rw [encodeUtf8_ofList]
  constructor
  · exact eq_flatMap_of_decodeUtf8From
  · rintro rfl
    exact decodeUtf8From_flatMap 0 text

/-! ## Texts with halves -/

/-- Without halves every text can be encoded. -/
theorem encodeFrom_map_char (position : Nat) (chars : List Char) :
    encodeFrom position (chars.map .char) = .ok (chars.flatMap String.utf8EncodeChar) := by
  induction chars generalizing position with
  | nil => rfl
  | cons c rest ih => rw [List.map_cons, encodeFrom, ih, List.flatMap_cons]; rfl

/-- Encoding stops at the first half, which comes after characters alone. -/
theorem encodeFrom_half (position : Nat) (front : List Char) (half : Fin 0x800)
    (back : List CodePoint) :
    encodeFrom position (front.map .char ++ .half half :: back) =
      .error ⟨half, position + front.length, (back.takeWhile (·.char?.isNone)).length + 1⟩ := by
  induction front generalizing position with
  | nil => rfl
  | cons c rest ih =>
    rw [List.map_cons, List.cons_append, encodeFrom, ih, List.length_cons, Nat.add_assoc,
      Nat.add_comm 1]
    rfl

/-- Code points are characters, or there is a first half among them. -/
theorem points_cases (points : List CodePoint) :
    (∃ chars : List Char, points = chars.map .char) ∨
      ∃ (front : List Char) (half : Fin 0x800) (back : List CodePoint),
        points = front.map .char ++ .half half :: back := by
  induction points with
  | nil => exact .inl ⟨[], rfl⟩
  | cons point rest ih =>
    cases point with
    | half half => exact .inr ⟨[], half, rest, rfl⟩
    | char c =>
      rcases ih with ⟨chars, rfl⟩ | ⟨front, half, back, rfl⟩
      · exact .inl ⟨c :: chars, rfl⟩
      · exact .inr ⟨c :: front, half, back, rfl⟩

/-- A text is encoded exactly if it is a string, and then as that string. -/
theorem encode_eq_ok {text : Text} {bytes : List UInt8} :
    text.encode = .ok bytes ↔ ∃ s : String, text = s ∧ bytes = encodeUtf8 s := by
  constructor
  · intro h
    rcases points_cases text.points with ⟨chars, hpoints⟩ | ⟨front, half, back, hpoints⟩
    · rw [encode, hpoints, encodeFrom_map_char] at h
      cases h
      refine ⟨String.ofList chars, ?_, (encodeUtf8_ofList chars).symm⟩
      rw [Text.ext_iff, hpoints, points_ofString, String.toList_ofList]
    · rw [encode, hpoints, encodeFrom_half] at h
      cases h
  · rintro ⟨s, rfl, rfl⟩
    rw [encode, points_ofString, encodeFrom_map_char, ← encodeUtf8_ofList, String.ofList_toList]

/-- A text is not encoded exactly if it has a half, and the error is about the first of them. -/
theorem encode_eq_error {text : Text} {e : EncodeError} (h : text.encode = .error e) :
    ∃ (front : List Char) (back : List CodePoint),
      text.points = front.map .char ++ .half e.half :: back ∧ e.position = front.length := by
  rcases points_cases text.points with ⟨chars, hpoints⟩ | ⟨front, half, back, hpoints⟩
  · rw [encode, hpoints, encodeFrom_map_char] at h
    cases h
  · rw [encode, hpoints, encodeFrom_half] at h
    cases h
    exact ⟨front, back, hpoints, Nat.zero_add _⟩

end SchemaClasses.Text
