import SchemaClasses.Proofs.Json.Numbers

/-!
# Reading values

What the reader of values accepts is as the grammar has it, and what the grammar has is accepted,
unless a limit is exceeded.
-/

namespace SchemaClasses.Json

open Literal (Stops)

/-! ## What is read is written -/

theorem advance_one {c : Cursor} {d : Char} {rest : List Char} (h : c.rest = d :: rest) :
    (c.advance 1).rest = rest := by
  rw [Cursor.advance_rest, h, List.drop_succ_cons, List.drop_zero]

theorem blanks_after {c : Cursor} {d : Char} {rest : List Char} (h : c.rest = d :: rest) :
    Blanks rest (c.advance 1).skipBlanks.rest := by
  have := blanks_skipBlanks (c.advance 1)
  rwa [advance_one h] at this

theorem blanks_upTo {c : Cursor} {rest : List Char} (h : c.skipBlanks.rest = rest) :
    Blanks c.rest rest :=
  h ▸ blanks_skipBlanks c

/-- Whatever the three readers accept with this fuel is as the grammar has it. -/
def Sound (fuel : Nat) : Prop :=
  (∀ depth c value after, readValue fuel depth c = .ok (value, after) →
    Writes Decimal.maxDigits depth c.rest (.value value) after.rest) ∧
  (∀ depth c items after, readItems fuel depth c = .ok (items, after) →
    Writes Decimal.maxDigits depth c.rest (.items items) after.rest) ∧
  (∀ depth c members after, readMembers fuel depth c = .ok (members, after) →
    Writes Decimal.maxDigits depth c.rest (.members members) after.rest)

/-- A value is as the grammar has it if the parts within it are. -/
theorem readValue_sound {fuel : Nat} (ih : Sound fuel) {depth : Nat} {c after : Cursor}
    {value : Json Text} (h : readValue (fuel + 1) depth c = .ok (value, after)) :
    Writes Decimal.maxDigits depth c.rest (.value value) after.rest := by
  unfold readValue at h
  split at h
  case h_1 rest _ hquote =>
    obtain ⟨⟨text, place⟩, hread, h⟩ := Success.bind_eq_ok.mp h
    cases h
    obtain ⟨content, hcontent, rfl⟩ := readString_sound hread
    rw [hquote]
    exact .string hcontent
  -- No level is left for a bracket.
  case h_2 | h_4 => cases h
  case h_3 text inner hopen =>
    rw [hopen]
    dsimp only at h
    split at h
    case h_1 rest hclose =>
      cases h
      rw [advance_one hclose]
      exact .emptyArray (hclose ▸ blanks_after hopen)
    case h_2 =>
      obtain ⟨⟨items, place⟩, hread, h⟩ := Success.bind_eq_ok.mp h
      cases h
      exact .array (blanks_after hopen) (ih.2.1 _ _ _ _ hread)
  case h_5 text inner hopen =>
    rw [hopen]
    dsimp only at h
    split at h
    case h_1 rest hclose =>
      cases h
      rw [advance_one hclose]
      exact .emptyObject (hclose ▸ blanks_after hopen)
    case h_2 =>
      obtain ⟨⟨members, place⟩, hread, h⟩ := Success.bind_eq_ok.mp h
      cases h
      exact .object (blanks_after hopen) (ih.2.2 _ _ _ _ hread)
  case h_6 => exact readAtom_sound h _

/-- The items of an array are as the grammar has them if the parts within them are. -/
theorem readItems_sound {fuel : Nat} (ih : Sound fuel) {depth : Nat} {c after : Cursor}
    {items : List (Json Text)} (h : readItems (fuel + 1) depth c = .ok (items, after)) :
    Writes Decimal.maxDigits depth c.rest (.items items) after.rest := by
  unfold readItems at h
  obtain ⟨⟨item, place⟩, hread, h⟩ := Success.bind_eq_ok.mp h
  have hitem := ih.1 _ _ _ _ hread
  dsimp only at h
  split at h
  case h_1 rest hclose =>
    cases h
    rw [advance_one hclose]
    exact .lastItem hitem (blanks_upTo hclose)
  case h_2 rest hcomma =>
    obtain ⟨⟨more, last⟩, hmore, h⟩ := Success.bind_eq_ok.mp h
    cases h
    exact .item hitem (blanks_upTo hcomma) (blanks_after hcomma) (ih.2.1 _ _ _ _ hmore)
  case h_3 => cases h

/-- The members of an object are as the grammar has them if the parts within them are. -/
theorem readMembers_sound {fuel : Nat} (ih : Sound fuel) {depth : Nat} {c after : Cursor}
    {members : List (Text × Json Text)} (h : readMembers (fuel + 1) depth c = .ok (members, after)) :
    Writes Decimal.maxDigits depth c.rest (.members members) after.rest := by
  unfold readMembers at h
  split at h
  case h_1 text hquote =>
    obtain ⟨⟨key, place⟩, hkey, h⟩ := Success.bind_eq_ok.mp h
    obtain ⟨content, hcontent, rfl⟩ := readString_sound hkey
    rw [hquote]
    dsimp only at h
    split at h
    case h_1 rest hcolon =>
      obtain ⟨⟨value, next⟩, hread, h⟩ := Success.bind_eq_ok.mp h
      have hvalue := ih.1 _ _ _ _ hread
      dsimp only at h
      split at h
      case h_1 rest hclose =>
        cases h
        rw [advance_one hclose]
        exact .lastMember hcontent (blanks_upTo hcolon) (blanks_after hcolon) hvalue
          (blanks_upTo hclose)
      case h_2 rest hcomma =>
        obtain ⟨⟨more, last⟩, hmore, h⟩ := Success.bind_eq_ok.mp h
        cases h
        exact .member hcontent (blanks_upTo hcolon) (blanks_after hcolon) hvalue
          (blanks_upTo hcomma) (blanks_after hcomma) (ih.2.2 _ _ _ _ hmore)
      case h_3 => cases h
    case h_2 => cases h
  case h_2 => cases h

/-- Whatever is accepted, with however much fuel, is as the grammar has it. -/
theorem sound (fuel : Nat) : Sound fuel := by
  induction fuel with
  | zero =>
    refine ⟨fun depth c value after h => ?_, fun depth c items after h => ?_,
      fun depth c members after h => ?_⟩ <;> cases h
  | succ fuel ih =>
    exact ⟨fun _ _ _ _ => readValue_sound ih, fun _ _ _ _ => readItems_sound ih,
      fun _ _ _ _ => readMembers_sound ih⟩

/-! ## Parts of texts -/

theorem Blanks.suffix {text rest : List Char} (h : Blanks text rest) : rest <:+ text := by
  obtain ⟨blanks, -, rfl⟩ := h
  exact List.suffix_append blanks rest

theorem WritesContent.suffix {text rest : List Char} {content : List CodePoint}
    (h : WritesContent text content rest) : rest <:+ text := by
  induction h with
  | close => exact List.suffix_cons _ _
  | plain _ _ _ _ ih => exact ih.trans (List.suffix_cons _ _)
  | escape _ _ ih => exact ih.trans (List.suffix_append [_, _] _)
  | unit _ _ _ ih => exact ih.trans (List.suffix_append [_, _, _, _, _, _] _)
  | pair _ _ _ _ _ ih => exact ih.trans (List.suffix_append [_, _, _, _, _, _, _, _, _, _, _, _] _)

variable {digits depth : Nat} {text rest : List Char} {part : Part}

/-- What is after a part of a text is an end of the text. -/
theorem Writes.suffix (h : Writes digits depth text part rest) : rest <:+ text := by
  have hcons {c : Char} {text rest : List Char} (h : c :: rest <:+ text) : rest <:+ text :=
    (List.suffix_cons c rest).trans h
  induction h with
  | word | number => exact List.suffix_append _ _
  | string h => exact h.suffix.trans (List.suffix_cons _ _)
  | emptyArray hclose | emptyObject hclose =>
    exact (hcons hclose.suffix).trans (List.suffix_cons _ _)
  | array hopen _ ih | object hopen _ ih =>
    exact (ih.trans hopen.suffix).trans (List.suffix_cons _ _)
  | lastItem _ hclose ih => exact (hcons hclose.suffix).trans ih
  | item _ hcomma hnext _ ih ihitems =>
    exact ((ihitems.trans hnext.suffix).trans (hcons hcomma.suffix)).trans ih
  | lastMember hkey hcolon hstart _ hclose ih =>
    exact ((((hcons hclose.suffix).trans ih).trans hstart.suffix).trans
      (hcons hcolon.suffix)).trans (hkey.suffix.trans (List.suffix_cons _ _))
  | member hkey hcolon hstart _ hcomma hnext _ ih ihmembers =>
    exact ((((((ihmembers.trans hnext.suffix).trans (hcons hcomma.suffix)).trans ih).trans
      hstart.suffix).trans (hcons hcolon.suffix)).trans
        (hkey.suffix.trans (List.suffix_cons _ _)))

/-- The characters that a word or a number starts with. -/
def startsAtom (c : Char) : Bool :=
  c.isAlphanum || c == '-'

/-- The characters that a value, an item or a member starts with. -/
def startsPart (c : Char) : Bool :=
  startsAtom c || c == '"' || c == '[' || c == '\x7b'

theorem ne_of_startsPart {c d : Char} (hc : startsPart c) (hd : startsPart d = false) : c ≠ d := by
  rintro rfl
  rw [hd] at hc
  cases hc

theorem word_start {word : List Char} {value : Json Text} (h : (word, value) ∈ wordValues) :
    ∃ c more, word = c :: more ∧ startsAtom c := by
  simp only [wordValues, List.mem_cons, Prod.mk.injEq, List.not_mem_nil, or_false] at h
  rcases h with ⟨rfl, -⟩ | ⟨rfl, -⟩ | ⟨rfl, -⟩ | ⟨rfl, -⟩ | ⟨rfl, -⟩ | ⟨rfl, -⟩ <;>
    exact ⟨_, _, rfl, rfl⟩

theorem number_start (n : Decimal.Numeral) :
    ∃ c more, n.text.toList = c :: more ∧ startsAtom c := by
  obtain ⟨d, more, hmore, hd⟩ := exists_digit n.parts
  rw [toList_text, hmore]
  cases n.parts.negative with
  | true => exact ⟨_, _, rfl, rfl⟩
  | false => exact ⟨d, more, rfl, by simp [startsAtom, Char.isAlphanum, hd]⟩

/-- A part starts with a character that is neither white space nor closes anything. -/
theorem Writes.start (h : Writes digits depth text part rest) :
    ∃ c more, text = c :: more ∧ startsPart c := by
  have hatom {c : Char} (hc : startsAtom c) : startsPart c := by simp [startsPart, hc]
  induction h with
  | word h =>
    obtain ⟨c, more, rfl, hc⟩ := word_start h
    exact ⟨c, _, rfl, hatom hc⟩
  | @number _ n rest _ _ =>
    obtain ⟨c, more, heq, hc⟩ := number_start n
    exact ⟨c, _, by rw [heq]; rfl, hatom hc⟩
  | string | emptyArray | array | emptyObject | object | lastMember | member =>
    exact ⟨_, _, rfl, rfl⟩
  | lastItem _ _ ih | item _ _ _ _ ih => exact ih

/-- No part starts with white space. -/
theorem Writes.stops (h : Writes digits depth text part rest) : Stops isBlank text := by
  obtain ⟨c, more, rfl, hc⟩ := h.start
  intro d hd
  obtain rfl := Option.some.inj hd
  simp only [isBlank, Bool.or_eq_false_iff, decide_eq_false_iff_not]
  exact ⟨⟨⟨ne_of_startsPart hc rfl, ne_of_startsPart hc rfl⟩, ne_of_startsPart hc rfl⟩,
    ne_of_startsPart hc rfl⟩

/-! ## What is written is read -/

/-- The outcome of reading is this value and this rest of the text, or a limit is exceeded; the
    second only under a condition. -/
def Gives {α : Type} (outcome : Except ReadError (α × Cursor)) (value : α) (rest : List Char)
    (beyond : Prop) : Prop :=
  (∃ after, outcome = .ok (value, after) ∧ after.rest = rest) ∨
    beyond ∧ ∃ e, outcome = .error e ∧ e.fault.isLimit

theorem Gives.ok {α : Type} {value : α} {after : Cursor} {rest : List Char} {beyond : Prop}
    (h : after.rest = rest) : Gives (.ok (value, after)) value rest beyond :=
  .inl ⟨after, rfl, h⟩

/-- Steps of reading are followed one after the other, each of which may exceed a limit. -/
theorem Gives.bind {α β : Type} {outcome : Except ReadError (α × Cursor)}
    {next : α × Cursor → Except ReadError (β × Cursor)} {value : α} {result : β}
    {middle rest : List Char} {beyond : Prop} (h : Gives outcome value middle beyond)
    (hnext : ∀ after : Cursor, after.rest = middle →
      Gives (next (value, after)) result rest beyond) :
    Gives (outcome >>= next) result rest beyond := by
  rcases h with ⟨after, rfl, hafter⟩ | ⟨hbeyond, e, rfl, hlimit⟩
  · exact hnext after hafter
  · exact .inr ⟨hbeyond, e, rfl, hlimit⟩

/-- A part is read with this fuel, unless its limits are beyond those of reading. -/
def Reads (beyond : Prop) (fuel depth : Nat) (c : Cursor) (rest : List Char) : Part → Prop
  | .value value => 2 * c.rest.length ≤ fuel → Ends rest →
    Gives (readValue fuel depth c) value rest beyond
  | .items items => 2 * c.rest.length < fuel → Gives (readItems fuel depth c) items rest beyond
  | .members members =>
    2 * c.rest.length < fuel → Gives (readMembers fuel depth c) members rest beyond

theorem Reads.zero {beyond : Prop} {c : Cursor} (hc : c.rest ≠ []) :
    Reads beyond 0 depth c rest part := by
  have hlength := List.length_pos_iff.mpr hc
  cases part <;>
  · intro hfuel
    omega

theorem Gives.mono {α : Type} {outcome : Except ReadError (α × Cursor)} {value : α}
    {rest : List Char} {beyond further : Prop} (h : Gives outcome value rest beyond)
    (himp : beyond → further) : Gives outcome value rest further :=
  h.imp_right (And.imp_left himp)

theorem readValue_atom {d : Char} {more : List Char} {c : Cursor} (hc : c.rest = d :: more)
    (hd : startsAtom d) (fuel depth : Nat) : readValue (fuel + 1) depth c = readAtom c := by
  have hother {first : Char} {others : List Char} (heq : c.rest = first :: others)
      (hfirst : startsAtom first = false) : False := by
    obtain ⟨rfl, -⟩ := List.cons.inj (hc.symm.trans heq)
    rw [hfirst] at hd
    cases hd
  unfold readValue
  split
  case h_1 heq | h_2 heq | h_3 heq | h_4 heq | h_5 heq => exact (hother heq rfl).elim
  case h_6 => rfl

theorem ends_of_blanks {text rest : List Char} {c : Char} (h : Blanks text (c :: rest))
    (hc : c = ',' ∨ c = ']' ∨ c = '\x7d') : Ends text := by
  obtain ⟨blanks, hblanks, rfl⟩ := h
  intro d hd
  cases blanks with
  | nil =>
    obtain rfl := Option.some.inj hd
    exact .inr hc
  | cons b more =>
    obtain rfl := Option.some.inj hd
    exact .inl (hblanks _ List.mem_cons_self)

theorem skipBlanks_upTo {c : Cursor} {d : Char} {text rest : List Char} (hc : c.rest = text)
    (h : Blanks text (d :: rest)) (hd : isBlank d = false) : c.skipBlanks.rest = d :: rest := by
  refine skipBlanks_of_blanks (hc ▸ h) fun e he => ?_
  obtain rfl := Option.some.inj he
  exact hd

theorem next_rest {c : Cursor} {d : Char} {text next : List Char} (hc : c.rest = d :: text)
    (h : Blanks text next) (hstops : Stops isBlank next) : (c.advance 1).skipBlanks.rest = next :=
  skipBlanks_of_blanks (advance_one hc ▸ h) hstops

theorem length_lt_of_opening {c : Cursor} {d : Char} {text first : List Char}
    (hc : c.rest = d :: text) (hopen : Blanks text first) : first.length < c.rest.length := by
  rw [hc]
  exact Nat.lt_succ_of_le hopen.suffix.length_le

/-- Going on to the next item or member takes at least one character. -/
theorem length_lt_of_separated {d : Char} {text between next : List Char}
    (h : Blanks text (d :: between)) (hnext : Blanks between next) : next.length < text.length :=
  (Nat.lt_succ_of_le hnext.suffix.length_le).trans_le h.suffix.length_le

/-- Members are read by reading the value of the first of them and going on from there. -/
theorem readMembers_value {text afterKey between start : List Char} {key : List CodePoint}
    {c : Cursor} (hc : c.rest = '"' :: text) (hkey : WritesContent text key afterKey)
    (hcolon : Blanks afterKey (':' :: between)) (hstart : Blanks between start)
    (hstop : Stops isBlank start) (fuel depth : Nat) :
    ∃ place : Cursor, place.rest = start ∧ readMembers (fuel + 1) depth c = (do
      let (value, after) ← readValue fuel depth place
      let after := after.skipBlanks
      match after.rest with
      | '\x7d' :: _ => return ([(⟨key⟩, value)], after.advance 1)
      | ',' :: _ =>
        let (members, last) ← readMembers fuel depth (after.advance 1).skipBlanks
        return ((⟨key⟩, value) :: members, last)
      | _ => after.fail .expectedComma) := by
  obtain ⟨place, hread, hplace⟩ := readString_complete hkey c.offset (c.offset + 1) []
  have hend := skipBlanks_upTo hplace hcolon rfl
  refine ⟨(place.skipBlanks.advance 1).skipBlanks, next_rest hend hstart hstop, ?_⟩
  -- Unfolding the bind everywhere would open the reads that are left as well.
  have hok {α β : Type} (a : α) (next : α → Except ReadError β) : (.ok a >>= next) = next a := rfl
  rw [List.reverse_nil, List.nil_append] at hread
  rw [readMembers]
  split
  case h_1 rest hquote =>
    obtain ⟨-, rfl⟩ := List.cons.inj (hc.symm.trans hquote)
    rw [hread, hok]
    dsimp only
    split
    case h_1 => rfl
    case h_2 hother => exact absurd hend (hother _)
  case h_2 hother => exact absurd hc (hother _)

/-- The text is read as the part, whatever the fuel and the depth that is left, unless the limits of
    the grammar are beyond those of reading. -/
def IsRead (digits depth : Nat) (text : List Char) (part : Part) (rest : List Char) : Prop :=
  ∀ (fuel limit : Nat) (c : Cursor), c.rest = text →
    Reads (Decimal.maxDigits < digits ∨ limit < depth) fuel limit c rest part

/-- Where no level is left, an opening bracket exceeds the limit. -/
theorem readValue_tooDeep {c : Cursor} {text : List Char}
    (hc : c.rest = '[' :: text ∨ c.rest = '\x7b' :: text) (fuel : Nat) :
    ∃ e, readValue (fuel + 1) 0 c = .error e ∧ e.fault.isLimit := by
  rcases hc with hc | hc
  · exact ⟨⟨.tooDeepArray, c.offset⟩, by simp only [readValue, hc]; rfl, rfl⟩
  · exact ⟨⟨.tooDeepObject, c.offset⟩, by simp only [readValue, hc]; rfl, rfl⟩

namespace IsRead

theorem word {word : List Char} {value : Json Text} (h : (word, value) ∈ wordValues) :
    IsRead digits depth (word ++ rest) (.value value) rest := by
  intro fuel limit c hc
  obtain ⟨d, more, heq, hd⟩ := word_start h
  obtain ⟨after, hread, hafter⟩ := readAtom_word h hc
  rw [heq] at hc
  cases fuel with
  | zero => exact .zero (by simp [hc])
  | succ fuel =>
    intro _ _
    rw [readValue_atom hc hd, hread]
    exact .ok hafter

theorem number {n : Decimal.Numeral} (h : n.IsLexical) (hdigits : integerDigits n ≤ digits) :
    IsRead digits depth (n.text.toList ++ rest) (.value (ofNumeral n)) rest := by
  intro fuel limit c hc
  obtain ⟨d, more, heq, hd⟩ := number_start n
  have hread := readAtom_number h hc
  rw [heq] at hc
  cases fuel with
  | zero => exact .zero (by simp [hc])
  | succ fuel =>
    intro _ hrest
    rw [readValue_atom hc hd]
    exact (hread hrest).imp_right fun ⟨hmore, hlimit⟩ => ⟨.inl (hmore.trans_le hdigits), hlimit⟩

theorem string {content : List CodePoint} (h : WritesContent text content rest) :
    IsRead digits depth ('"' :: text) (.value (.string ⟨content⟩)) rest := by
  intro fuel limit c hc
  obtain ⟨after, hread, hafter⟩ := readString_complete h c.offset (c.offset + 1) []
  cases fuel with
  | zero => exact .zero (by simp [hc])
  | succ fuel =>
    intro _ _
    simp only [readValue, hc, hread]
    exact .ok hafter

theorem emptyArray (hclose : Blanks text (']' :: rest)) :
    IsRead digits (depth + 1) ('[' :: text) (.value (.array [])) rest := by
  intro fuel limit c hc
  cases fuel with
  | zero => exact .zero (by simp [hc])
  | succ fuel =>
    intro _ _
    cases limit with
    | zero => exact .inr ⟨.inr (Nat.succ_pos _), readValue_tooDeep (.inl hc) fuel⟩
    | succ limit =>
      have hinside := skipBlanks_upTo (advance_one hc) hclose rfl
      simp only [readValue, hc, hinside]
      exact .ok (advance_one hinside)

theorem emptyObject (hclose : Blanks text ('\x7d' :: rest)) :
    IsRead digits (depth + 1) ('\x7b' :: text) (.value (.object [])) rest := by
  intro fuel limit c hc
  cases fuel with
  | zero => exact .zero (by simp [hc])
  | succ fuel =>
    intro _ _
    cases limit with
    | zero => exact .inr ⟨.inr (Nat.succ_pos _), readValue_tooDeep (.inr hc) fuel⟩
    | succ limit =>
      have hinside := skipBlanks_upTo (advance_one hc) hclose rfl
      simp only [readValue, hc, hinside]
      exact .ok (advance_one hinside)

theorem array {first : List Char} {items : List (Json Text)} (hopen : Blanks text first)
    (h : Writes digits depth first (.items items) rest)
    (hitems : IsRead digits depth first (.items items) rest) :
    IsRead digits (depth + 1) ('[' :: text) (.value (.array items)) rest := by
  intro fuel limit c hc
  cases fuel with
  | zero => exact .zero (by simp [hc])
  | succ fuel =>
    intro hfuel _
    cases limit with
    | zero => exact .inr ⟨.inr (Nat.succ_pos _), readValue_tooDeep (.inl hc) fuel⟩
    | succ limit =>
      have hinside := next_rest hc hopen h.stops
      obtain ⟨d, more, rfl, hd⟩ := h.start
      have hshorter := length_lt_of_opening hc hopen
      have hread := hitems fuel limit _ hinside (by rw [hinside]; omega)
      simp only [readValue, hc, hinside]
      split
      case h_1 heq => exact absurd (List.cons.inj heq).1 (ne_of_startsPart hd rfl)
      case h_2 =>
        exact (hread.mono (Or.imp_right Nat.succ_lt_succ)).bind fun after hafter => .ok hafter

theorem object {first : List Char} {members : List (Text × Json Text)} (hopen : Blanks text first)
    (h : Writes digits depth first (.members members) rest)
    (hmembers : IsRead digits depth first (.members members) rest) :
    IsRead digits (depth + 1) ('\x7b' :: text) (.value (.object (Keyed.ofList members))) rest := by
  intro fuel limit c hc
  cases fuel with
  | zero => exact .zero (by simp [hc])
  | succ fuel =>
    intro hfuel _
    cases limit with
    | zero => exact .inr ⟨.inr (Nat.succ_pos _), readValue_tooDeep (.inr hc) fuel⟩
    | succ limit =>
      have hinside := next_rest hc hopen h.stops
      obtain ⟨d, more, rfl, hd⟩ := h.start
      have hshorter := length_lt_of_opening hc hopen
      have hread := hmembers fuel limit _ hinside (by rw [hinside]; omega)
      simp only [readValue, hc, hinside]
      split
      case h_1 heq => exact absurd (List.cons.inj heq).1 (ne_of_startsPart hd rfl)
      case h_2 =>
        exact (hread.mono (Or.imp_right Nat.succ_lt_succ)).bind fun after hafter => .ok hafter

theorem lastItem {after : List Char} {item : Json Text}
    (hitem : IsRead digits depth text (.value item) after) (hclose : Blanks after (']' :: rest)) :
    IsRead digits depth text (.items [item]) rest := by
  intro fuel limit c hc hfuel
  cases fuel with
  | zero => cases hfuel
  | succ fuel =>
    have hread := hitem fuel limit c hc (Nat.lt_succ_iff.mp hfuel) (ends_of_blanks hclose (by simp))
    rw [readItems]
    refine hread.bind fun place hplace => ?_
    have hend := skipBlanks_upTo hplace hclose rfl
    simp only [hend]
    exact .ok (advance_one hend)

theorem item {after between next : List Char} {item : Json Text} {items : List (Json Text)}
    (h : Writes digits depth text (.value item) after) (hcomma : Blanks after (',' :: between))
    (hnext : Blanks between next) (hmore : Writes digits depth next (.items items) rest)
    (hitem : IsRead digits depth text (.value item) after)
    (hitems : IsRead digits depth next (.items items) rest) :
    IsRead digits depth text (.items (item :: items)) rest := by
  intro fuel limit c hc hfuel
  cases fuel with
  | zero => cases hfuel
  | succ fuel =>
    have hread := hitem fuel limit c hc (Nat.lt_succ_iff.mp hfuel) (ends_of_blanks hcomma (by simp))
    rw [readItems]
    refine hread.bind fun place hplace => ?_
    have hend := skipBlanks_upTo hplace hcomma rfl
    have hstart := next_rest hend hnext hmore.stops
    have hlength := h.suffix.length_le
    have hshorter := length_lt_of_separated hcomma hnext
    simp only [hend]
    exact (hitems fuel limit _ hstart (by rw [hc] at hfuel; rw [hstart]; omega)).bind
      fun last hlast => .ok hlast

/-- The value of a member is read before anything that follows it, with the fuel that is left. -/
theorem memberValue {afterKey between start after : List Char} {key : List CodePoint}
    {value : Json Text} {c : Cursor} {fuel limit : Nat} (hc : c.rest = '"' :: text)
    (hkey : WritesContent text key afterKey)
    (hcolon : Blanks afterKey (':' :: between)) (hstart : Blanks between start)
    (hvalue : IsRead digits depth start (.value value) after) (hends : Ends after)
    (hfuel : 2 * c.rest.length < fuel + 1) {place : Cursor} (hplace : place.rest = start) :
    Gives (readValue fuel limit place) value after
      (Decimal.maxDigits < digits ∨ limit < depth) := by
  have hlength := hkey.suffix.length_le
  have hshorter := length_lt_of_separated hcolon hstart
  rw [hc, List.length_cons] at hfuel
  exact hvalue fuel limit place hplace (by rw [hplace]; omega) hends

theorem lastMember {afterKey between start after : List Char} {key : List CodePoint}
    {value : Json Text}
    (hkey : WritesContent text key afterKey) (hcolon : Blanks afterKey (':' :: between))
    (hstart : Blanks between start) (h : Writes digits depth start (.value value) after)
    (hclose : Blanks after ('\x7d' :: rest))
    (hvalue : IsRead digits depth start (.value value) after) :
    IsRead digits depth ('"' :: text) (.members [(⟨key⟩, value)]) rest := by
  intro fuel limit c hc hfuel
  cases fuel with
  | zero => cases hfuel
  | succ fuel =>
    obtain ⟨place, hplace, hread⟩ := readMembers_value hc hkey hcolon hstart h.stops fuel limit
    rw [hread]
    refine (hvalue.memberValue hc hkey hcolon hstart (ends_of_blanks hclose (by simp)) hfuel
      hplace).bind fun place hplace => ?_
    have hend := skipBlanks_upTo hplace hclose rfl
    simp only [hend]
    exact .ok (advance_one hend)

theorem member {afterKey between start after comma next : List Char} {key : List CodePoint}
    {value : Json Text} {members : List (Text × Json Text)}
    (hkey : WritesContent text key afterKey)
    (hcolon : Blanks afterKey (':' :: between)) (hstart : Blanks between start)
    (h : Writes digits depth start (.value value) after) (hcomma : Blanks after (',' :: comma))
    (hnext : Blanks comma next) (hmore : Writes digits depth next (.members members) rest)
    (hvalue : IsRead digits depth start (.value value) after)
    (hmembers : IsRead digits depth next (.members members) rest) :
    IsRead digits depth ('"' :: text) (.members ((⟨key⟩, value) :: members)) rest := by
  intro fuel limit c hc hfuel
  cases fuel with
  | zero => cases hfuel
  | succ fuel =>
    obtain ⟨place, hplace, hread⟩ := readMembers_value hc hkey hcolon hstart h.stops fuel limit
    rw [hread]
    refine (hvalue.memberValue hc hkey hcolon hstart (ends_of_blanks hcomma (by simp)) hfuel
      hplace).bind fun place hplace => ?_
    have hend := skipBlanks_upTo hplace hcomma rfl
    have hfirst := next_rest hend hnext hmore.stops
    have hlengthKey := hkey.suffix.length_le
    have hlength := h.suffix.length_le
    have hshorterStart := length_lt_of_separated hcolon hstart
    have hshorterNext := length_lt_of_separated hcomma hnext
    simp only [hend]
    exact (hmembers fuel limit _ hfirst (by
      rw [hc, List.length_cons] at hfuel
      rw [hfirst]
      omega)).bind fun last hlast => .ok hlast

end IsRead

/-- What the grammar has is read, by induction on how it is written. -/
theorem Writes.reads (h : Writes digits depth text part rest) :
    IsRead digits depth text part rest := by
  induction h with
  | word h => exact .word h
  | number h hdigits => exact .number h hdigits
  | string h => exact .string h
  | emptyArray hclose => exact .emptyArray hclose
  | array hopen h ih => exact .array hopen h ih
  | emptyObject hclose => exact .emptyObject hclose
  | object hopen h ih => exact .object hopen h ih
  | lastItem _ hclose ih => exact .lastItem ih hclose
  | item h hcomma hnext hitems ih ihitems => exact .item h hcomma hnext hitems ih ihitems
  | lastMember hkey hcolon hstart h hclose ih =>
    exact .lastMember hkey hcolon hstart h hclose ih
  | member hkey hcolon hstart h hcomma hnext hmembers ih ihmembers =>
    exact .member hkey hcolon hstart h hcomma hnext hmembers ih ihmembers

end SchemaClasses.Json
