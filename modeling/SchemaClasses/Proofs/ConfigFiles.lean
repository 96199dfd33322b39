import SchemaClasses.CommandLine.Run
import SchemaClasses.Proofs.Json.Documents
import SchemaClasses.Proofs.Utf8

/-!
# Configuration files

Which files give a configuration, and which of them fail in another way than with an error of their
own.
-/

namespace SchemaClasses

open Decimal (maxDigits)
open Json (IsDocument)

/-! ## Settings -/

namespace Config

/-- Whether a value can be taken under its key: two keys take no value, and the table of all
    settings takes an object only. -/
def Takes (member : Text × Json Text) : Prop :=
  member.1 ≠ "__class__" ∧ member.1 ≠ "__weakref__" ∧
    (member.1 = "__dict__" → ∃ table, member.2 = .object table)

/-- A setting is taken exactly if its key takes such a value. -/
theorem exists_take (config : Config) (key : Text) (value : Json Text) :
    (∃ result, config.take key value = .ok result) ↔ Takes (key, value) := by
  unfold take Takes
  simp only [← Text.string?_eq_some, ne_eq]
  split
  case h_1 hkey | h_2 hkey | h_3 hkey => simp [hkey]
  case h_4 hkey hnone =>
    refine iff_of_false (by simp) fun h => ?_
    obtain ⟨table, rfl⟩ := h.2.2 hkey
    exact hnone table rfl
  case h_5 hkey => simp [hkey]
  case h_6 hclass hweak hdict _ _ =>
    exact iff_of_true ⟨_, rfl⟩ ⟨hclass, hweak, fun h => absurd h hdict⟩

/-- An object is a configuration exactly if each of its members can be taken. -/
theorem exists_ofMembers (members : List (Text × Json Text)) :
    (∃ config, ofMembers members = .ok config) ↔ ∀ member ∈ members, Takes member := by
  unfold ofMembers
  generalize ({} : Config) = config
  induction members generalizing config with
  | nil => simp
  | cons member rest ih =>
    obtain ⟨key, value⟩ := member
    rw [List.forall_mem_cons, ← exists_take config key value]
    simp only [List.foldlM_cons, Success.bind_eq_ok]
    constructor
    · rintro ⟨result, next, hnext, hrest⟩
      exact ⟨⟨next, hnext⟩, (ih next).mp ⟨result, hrest⟩⟩
    · rintro ⟨⟨next, hnext⟩, hrest⟩
      obtain ⟨result, hresult⟩ := (ih next).mpr hrest
      exact ⟨result, next, hnext, hresult⟩

end Config

/-! ## Errors -/

/-- Whether the error is one of configuration files. All others are errors of what a file is read
    with. -/
def ConfigError.isOfFile : ConfigError → Bool
  | .unreadable _ | .invalidJson .. | .notObject _ => true
  | .brokenPath | .notText _ | .overLimit _ | .setting _ => false

/-- The command reports these errors, and breaks off at all others. -/
theorem ConfigError.reported_iff (e : ConfigError) :
    (∃ message, CommandLine.RunError.ofConfigError e = .reported message) ↔ e.isOfFile := by
  cases e <;> simp [CommandLine.RunError.ofConfigError, isOfFile]

/-! ## Files -/

variable {maxDepth : Nat} {tree : FileTree} {start : List String} {path : FilePath}

/-- The path leads to a file with this text, whose line ends are written as line feeds. -/
def FileTree.HoldsText (tree : FileTree) (start : List String) (path : FilePath)
    (text : List Char) : Prop :=
  path.isBroken = false ∧ ∃ characters,
    tree.read start path = .ok (Text.encodeUtf8 (String.ofList characters)) ∧
      text = Text.unifyLineEnds characters

/-- A path to no file, bytes that are not the encoding of a text, JSON beyond the limits of reading,
    and values that cannot be taken under their keys. -/
inductive Config.Escapes (maxDepth : Nat) (tree : FileTree) (start : List String)
    (path : FilePath) : Prop
  | brokenPath (hpath : path.isBroken)
  | notText {bytes : List UInt8} (hpath : path.isBroken = false)
      (hread : tree.read start path = .ok bytes)
      (hbytes : ∀ text, bytes ≠ Text.encodeUtf8 text)
  | beyondLimits {text : List Char} {value : Json Text} (htext : tree.HoldsText start path text)
      (hjson : Json.IsJson text value)
      (hlimits : ∀ value, ¬ IsDocument maxDigits maxDepth text value)
  | notTaken {text : List Char} {members : List (Text × Json Text)}
      (htext : tree.HoldsText start path text)
      (hdocument : IsDocument maxDigits maxDepth text (.object members))
      (hmembers : ∃ member ∈ members, ¬ Config.Takes member)

/-- Once a file gives a text, only reading that as JSON and taking its members can fail. -/
theorem Config.ofFile_of_text {text : List Char} (h : tree.HoldsText start path text) :
    Config.ofFile maxDepth tree start path = (do
      let value ← (Json.read maxDepth text).mapError (.ofReadError path.text text)
      match value with
      | .object members => (Config.ofMembers members).mapError .setting
      | _ => .error (.notObject path.text)) := by
  obtain ⟨hpath, characters, hread, rfl⟩ := h
  have hdecode : decodeText (Text.encodeUtf8 (String.ofList characters)) =
      .ok (Text.unifyLineEnds characters) := by
    rw [decodeText, Text.decodeUtf8_eq_ok.mpr rfl]
    rfl
  rw [ofFile, hpath, hread]
  simp only [Bool.false_eq_true, if_false]
  change Config.ofBytes maxDepth path.text _ = _
  rw [ofBytes, hdecode]
  rfl

/-- A path leads to one text at most. -/
theorem FileTree.HoldsText.unique {text other : List Char} (h : tree.HoldsText start path text)
    (hother : tree.HoldsText start path other) : text = other := by
  obtain ⟨-, characters, hread, rfl⟩ := h
  obtain ⟨-, others, hreadOther, rfl⟩ := hother
  have hbytes := Except.ok.inj (hread.symm.trans hreadOther)
  have hsame := (Text.decodeUtf8_eq_ok.mpr rfl).symm.trans (Text.decodeUtf8_eq_ok.mpr hbytes)
  rw [Except.ok.inj hsame]

/-- Bytes are refused exactly if they encode no text. -/
theorem decodeUtf8_eq_error {bytes : List UInt8} :
    (∃ e, Text.decodeUtf8 bytes = .error e) ↔ ∀ text, bytes ≠ Text.encodeUtf8 text := by
  constructor
  · rintro ⟨e, he⟩ text rfl
    rw [← String.ofList_toList (s := text), Text.decodeUtf8_eq_ok.mpr rfl] at he
    cases he
  · intro h
    cases hdecode : Text.decodeUtf8 bytes with
    | error e => exact ⟨e, rfl⟩
    | ok text => exact absurd (Text.decodeUtf8_eq_ok.mp hdecode) (h _)

theorem Config.ofFile_of_broken (h : path.isBroken) :
    Config.ofFile maxDepth tree start path = .error .brokenPath :=
  if_pos h

theorem Config.ofFile_of_unreadable (hpath : path.isBroken = false) {e : FileError}
    (hread : tree.read start path = .error e) :
    Config.ofFile maxDepth tree start path = .error (.unreadable e) := by
  rw [ofFile, hpath, hread]
  rfl

theorem Config.ofFile_of_notText (hpath : path.isBroken = false) {bytes : List UInt8}
    (hread : tree.read start path = .ok bytes) {e : Text.Utf8Error}
    (hbytes : Text.decodeUtf8 bytes = .error e) :
    Config.ofFile maxDepth tree start path = .error (.notText e) := by
  rw [ofFile, hpath, hread]
  change Config.ofBytes maxDepth path.text bytes = _
  rw [ofBytes, decodeText, hbytes]
  rfl

/-- A path leads to no file, to one that cannot be read, to one that is no text, or to a text. -/
theorem FileTree.contents_cases (tree : FileTree) (start : List String) (path : FilePath) :
    path.isBroken ∨ (path.isBroken = false ∧ ∃ e, tree.read start path = .error e) ∨
      (path.isBroken = false ∧ ∃ bytes, tree.read start path = .ok bytes ∧
        ∃ e, Text.decodeUtf8 bytes = .error e) ∨
      ∃ text, tree.HoldsText start path text := by
  cases hpath : path.isBroken with
  | true => exact .inl rfl
  | false =>
    cases hread : tree.read start path with
    | error e => exact .inr (.inl ⟨rfl, e, rfl⟩)
    | ok bytes =>
      cases hdecode : Text.decodeUtf8 bytes with
      | error e => exact .inr (.inr (.inl ⟨rfl, bytes, rfl, e, hdecode⟩))
      | ok characters =>
        have hbytes := Text.decodeUtf8_eq_ok.mp hdecode
        exact .inr (.inr (.inr ⟨_, hpath, characters, hbytes ▸ hread, rfl⟩))

/-- A file gives a configuration if and only if its text is one JSON object within the limits whose
    values can be taken. -/
theorem Config.ofFile_eq_ok {config : Config} :
    Config.ofFile maxDepth tree start path = .ok config ↔
      ∃ text members, tree.HoldsText start path text ∧
        IsDocument maxDigits maxDepth text (.object members) ∧
        Config.ofMembers members = .ok config := by
  constructor
  · intro h
    rcases tree.contents_cases start path with
      hbroken | ⟨hpath, e, hread⟩ | ⟨hpath, bytes, hread, e, hbytes⟩ | ⟨text, htext⟩
    · rw [ofFile_of_broken hbroken] at h
      cases h
    · rw [ofFile_of_unreadable hpath hread] at h
      cases h
    · rw [ofFile_of_notText hpath hread hbytes] at h
      cases h
    · rw [ofFile_of_text htext, Success.bind_eq_ok] at h
      obtain ⟨value, hvalue, h⟩ := h
      have hdocument := Json.read_eq_ok.mp (Success.mapError_eq_ok.mp hvalue)
      split at h
      case h_1 members =>
        exact ⟨text, members, htext, hdocument, Success.mapError_eq_ok.mp h⟩
      case h_2 => cases h
  · rintro ⟨text, members, htext, hdocument, hmembers⟩
    rw [ofFile_of_text htext, Json.read_eq_ok.mpr hdocument]
    exact Success.mapError_eq_ok.mpr hmembers

/-- What escapes is no error of configuration files. -/
theorem Config.Escapes.ofFile (h : Config.Escapes maxDepth tree start path) :
    ∃ e, Config.ofFile maxDepth tree start path = .error e ∧ e.isOfFile = false := by
  cases h with
  | brokenPath hpath => exact ⟨_, ofFile_of_broken hpath, rfl⟩
  | notText hpath hread hbytes =>
    obtain ⟨e, he⟩ := decodeUtf8_eq_error.mpr hbytes
    exact ⟨_, ofFile_of_notText hpath hread he, rfl⟩
  | beyondLimits htext hjson hlimits =>
    -- The text is a document within some limits, but not within those the reader keeps.
    obtain ⟨digits, depth, hdocument⟩ := hjson
    rcases Json.read_document hdocument with hread | ⟨-, e, hread, hlimit⟩
    · exact absurd (Json.read_eq_ok.mp hread) (hlimits _)
    · refine ⟨.overLimit e.fault, ?_, rfl⟩
      rw [ofFile_of_text htext, hread]
      exact congrArg Except.error (if_pos hlimit)
  | notTaken htext hdocument hmembers =>
    rename_i text members
    cases hsettings : Config.ofMembers members with
    | ok config =>
      obtain ⟨member, hmember, hnot⟩ := hmembers
      exact absurd ((exists_ofMembers members).mp ⟨config, hsettings⟩ member hmember) hnot
    | error e =>
      refine ⟨.setting e, ?_, rfl⟩
      rw [ofFile_of_text htext, Json.read_eq_ok.mpr hdocument]
      exact congrArg (Except.mapError ConfigError.setting) hsettings

/-- A file gives a configuration if and only if its text is one JSON object and nothing escapes. -/
theorem Config.exists_ofFile :
    (∃ config, Config.ofFile maxDepth tree start path = .ok config) ↔
      ¬ Config.Escapes maxDepth tree start path ∧
        ∃ text members, tree.HoldsText start path text ∧ Json.IsJson text (.object members) := by
  constructor
  · rintro ⟨config, hconfig⟩
    refine ⟨fun hescapes => ?_, ?_⟩
    · obtain ⟨e, he, -⟩ := hescapes.ofFile
      rw [hconfig] at he
      cases he
    · obtain ⟨text, members, htext, hdocument, -⟩ := ofFile_eq_ok.mp hconfig
      exact ⟨text, members, htext, _, _, hdocument⟩
  · rintro ⟨hnone, text, members, htext, hjson⟩
    -- What does not escape keeps the limits, and each of its members is taken.
    have hdocument : IsDocument maxDigits maxDepth text (.object members) := by
      by_contra hlimits
      exact hnone (.beyondLimits htext hjson fun value hvalue => hlimits (hjson.isDocument hvalue))
    have htakes : ∀ member ∈ members, Config.Takes member := by
      by_contra hnot
      rw [not_forall₂] at hnot
      obtain ⟨member, hmember, hnot⟩ := hnot
      exact hnone (.notTaken htext hdocument ⟨member, hmember, hnot⟩)
    obtain ⟨config, hconfig⟩ := (exists_ofMembers members).mpr htakes
    exact ⟨config, ofFile_eq_ok.mpr ⟨text, members, htext, hdocument, hconfig⟩⟩

/-- A text that is read fails with another error than those of configuration files only if a value
    cannot be taken under its key. -/
theorem Config.Escapes.of_document {text : List Char} {value : Json Text} {e : ConfigError}
    (htext : tree.HoldsText start path text) (hdocument : IsDocument maxDigits maxDepth text value)
    (h : Config.ofFile maxDepth tree start path = .error e) (he : e.isOfFile = false) :
    Config.Escapes maxDepth tree start path := by
  cases value with
  | object members =>
    refine .notTaken htext hdocument ?_
    by_contra hnot
    obtain ⟨config, hconfig⟩ := (exists_ofMembers members).mpr (by simpa using hnot)
    rw [ofFile_eq_ok.mpr ⟨text, members, htext, hdocument, hconfig⟩] at h
    cases h
  | null | bool | int | float | string | array =>
    rw [ofFile_of_text htext, Json.read_eq_ok.mpr hdocument] at h
    cases h
    cases he

/-- Apart from what escapes, only a text that is no JSON and exceeds a limit before this shows fails
    with another error than those of configuration files. -/
theorem Config.escapes_of_ofFile {e : ConfigError}
    (h : Config.ofFile maxDepth tree start path = .error e)
    (he : e.isOfFile = false) :
    Config.Escapes maxDepth tree start path ∨
      ∃ text, tree.HoldsText start path text ∧ (∀ value, ¬ Json.IsJson text value) ∧
        Json.Exceeds maxDepth text := by
  rcases tree.contents_cases start path with
    hbroken | ⟨hpath, e', hread⟩ | ⟨hpath, bytes, hread, e', hbytes⟩ | ⟨text, htext⟩
  · exact .inl (.brokenPath hbroken)
  · rw [ofFile_of_unreadable hpath hread] at h
    cases h
    cases he
  · exact .inl (.notText hpath hread (decodeUtf8_eq_error.mp ⟨e', hbytes⟩))
  · cases hread : Json.read maxDepth text with
    | ok value => exact .inl (.of_document htext (Json.read_eq_ok.mp hread) h he)
    | error e' =>
      -- Any other fault of the text is reported as one of the file.
      have hlimit : e'.fault.isLimit := by
        by_contra hnot
        rw [ofFile_of_text htext, hread] at h
        cases h
        rw [ConfigError.ofReadError, if_neg hnot] at he
        cases he
      -- A limit may be met before a fault, so the text need not be a document at all.
      by_cases hjson : ∃ value, Json.IsJson text value
      · obtain ⟨value, hjson⟩ := hjson
        refine .inl (.beyondLimits htext hjson fun value hvalue => ?_)
        rw [Json.read_eq_ok.mpr hvalue] at hread
        cases hread
      · exact .inr ⟨text, htext, not_exists.mp hjson, Json.read_limit hread hlimit⟩

/-- Loading a configuration succeeds if and only if the file can be read, its bytes are the encoding
    of a text, and the text is one JSON object, unless something escapes. If something does, loading
    fails with another error than those of configuration files, and otherwise only if the text is no
    JSON and exceeds a limit before this shows. -/
theorem Config.ofFile_outcome (maxDepth : Nat) (tree : FileTree) (start : List String)
    (path : FilePath) :
    ((∃ config, Config.ofFile maxDepth tree start path = .ok config) ↔
      ¬ Config.Escapes maxDepth tree start path ∧
        ∃ text members, tree.HoldsText start path text ∧ Json.IsJson text (.object members)) ∧
    (Config.Escapes maxDepth tree start path →
      ∃ e, Config.ofFile maxDepth tree start path = .error e ∧ e.isOfFile = false) ∧
    ∀ e, Config.ofFile maxDepth tree start path = .error e →
      e.isOfFile ∨ Config.Escapes maxDepth tree start path ∨
        ∃ text, tree.HoldsText start path text ∧ (∀ value, ¬ Json.IsJson text value) ∧
          Json.Exceeds maxDepth text := by
  refine ⟨exists_ofFile, Escapes.ofFile, fun e h => ?_⟩
  rw [or_iff_not_imp_left, Bool.not_eq_true]
  exact escapes_of_ofFile h

/-- A byte that starts no character fails with another error than those of configuration files. -/
theorem Config.ofFile_strayByte :
    Config.ofFile Json.freeDepth ⟨[(["c.json"], [0xff])], []⟩ [] ⟨"", ["c.json"]⟩ =
        .error (.notText ⟨.invalidStart, 0, 1, 0xff⟩) ∧
      ConfigError.isOfFile (.notText ⟨.invalidStart, 0, 1, 0xff⟩) = false :=
  ⟨rfl, rfl⟩

end SchemaClasses
