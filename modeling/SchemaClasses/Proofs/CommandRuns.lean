import SchemaClasses.CommandLine.Run
import SchemaClasses.Proofs.CommandWords
import SchemaClasses.Proofs.FileTrees
import SchemaClasses.Proofs.Utf8

/-!
# Runs of the command

A run does all that it is asked for or leaves the files alone, but for one case: a module that has
no encoding leaves its output empty. If a run exits with zero, it was asked for help, or it wrote the
module for its schema to its output and touched no other file.
-/

namespace SchemaClasses.CommandLine

/-! ## Requests -/

/-- The place of the file that a word names in a run from a directory. -/
def filePlace (start : List String) (word : String) : List String :=
  (placePath ((FilePath.ofString word).resolve start)).resolve []

/-- The parameters that items give. -/
def Request.ofItems (start : List String) (items : List Item) : Request :=
  let parsed := Parsed.ofItems items
  let place (word : String) := (FilePath.ofString word).resolve start
  { config := parsed.config.map place
    addImports := parsed.addImports
    verbose := parsed.verbose
    path := parsed.arguments[0]?.map place
    output := parsed.arguments[1]?.map place }

section Requests

variable {tree : FileTree} {start : List String} {parameter : String} {word : Option String}
  {place : Option (List String)}

theorem resolved_eq_ok (h : resolved start word = .ok place) :
    place = word.map fun word => (FilePath.ofString word).resolve start := by
  cases word with
  | none =>
    cases h
    rfl
  | some text =>
    simp only [resolved] at h
    split at h
    next => cases h
    next =>
      cases h
      rfl

theorem existing_eq_ok (h : existing tree start parameter word = .ok place) :
    place = word.map fun word => (FilePath.ofString word).resolve start := by
  simp only [existing, Success.bind_eq_ok] at h
  obtain ⟨found, hfound, h⟩ := h
  split at h
  next =>
    rw [Success.pure_eq_ok] at h
    rw [← h]
    exact resolved_eq_ok hfound
  next => cases h

/-- Words that make a request spell its parameters, or ask for help. -/
theorem Request.ofWords_eq_ok {words : List String} {request : Option Request}
    (h : Request.ofWords tree start words = .ok request) :
    ∃ items, Spells words items ∧
      (.switch .help ∈ items ∧ request = none ∨
        .switch .help ∉ items ∧ (items.filterMap Item.argument?).length ≤ 2 ∧
          request = some (.ofItems start items)) := by
  simp only [ofWords, Success.bind_eq_ok, Success.mapError_eq_ok] at h
  obtain ⟨parsed, hparsed, h⟩ := h
  obtain ⟨items, hspells, rfl⟩ := Parsed.ofWords_eq_ok.mp hparsed
  refine ⟨items, hspells, ?_⟩
  split at h
  next hhelp =>
    rw [Success.pure_eq_ok] at h
    exact .inl ⟨of_decide_eq_true hhelp, h.symm⟩
  next hhelp =>
    -- Without a request for help the paths are looked up and the arguments counted.
    simp only [Success.bind_eq_ok] at h
    obtain ⟨config, hconfig, path, hpath, output, houtput, h⟩ := h
    split at h
    next => cases h
    next hlength =>
      rw [Success.pure_eq_ok] at h
      refine .inr ⟨fun hmem => hhelp (decide_eq_true hmem), Nat.le_of_not_lt hlength, ?_⟩
      rw [← h, existing_eq_ok hconfig, existing_eq_ok hpath, resolved_eq_ok houtput]
      rfl

end Requests

/-! ## Steps of a run -/

namespace Request

variable {maxDepth : Nat} {request : Request} {tree after : FileTree} {config : Config}
  {text : String} {code : Text}

/-- The configuration comes from the file asked for, or is the default; imports are added if asked
    for. -/
theorem loadConfig_eq_ok (h : request.loadConfig maxDepth tree = .ok config) :
    ∃ base : Config,
      (request.config = none ∧ base = {} ∨
        ∃ place bytes, request.config = some place ∧
          tree.file? ((placePath place).resolve []) = some bytes ∧
          Config.ofBytes maxDepth (placePath place).text bytes = .ok base) ∧
      config = if request.addImports then { base with addImports := .bool true } else base := by
  simp only [loadConfig] at h
  split at h
  -- Without a file the settings are the defaults.
  next hnone =>
    cases h
    exact ⟨{}, .inl ⟨hnone, rfl⟩, rfl⟩
  next place hplace =>
    simp only [Success.bind_eq_ok, Success.mapError_eq_ok, Success.pure_eq_ok, Config.ofFile] at h
    obtain ⟨base, hbase, rfl⟩ := h
    refine ⟨base, .inr ?_, rfl⟩
    split at hbase
    next => cases hbase
    next =>
      simp only [Success.bind_eq_ok, Success.mapError_eq_ok] at hbase
      obtain ⟨bytes, hbytes, hbase⟩ := hbase
      exact ⟨place, bytes, hplace, FileTree.read_eq_ok hbytes, hbase⟩

/-- The text is that of the file asked for, with its line ends unified. -/
theorem loadText_eq_ok (h : request.loadText tree = .ok text) :
    ∃ place bytes raw, request.path = some place ∧
      tree.file? ((placePath place).resolve []) = some bytes ∧ Text.decodeUtf8 bytes = .ok raw ∧
      text = String.ofList (Text.unifyLineEnds raw) := by
  simp only [loadText] at h
  split at h
  next => cases h
  next place hplace =>
    simp only [Success.bind_eq_ok, Success.mapError_eq_ok, Success.pure_eq_ok, decodeText,
      Success.map_eq_ok] at h
    obtain ⟨bytes, hbytes, _, ⟨raw, hraw, rfl⟩, rfl⟩ := h
    exact ⟨place, bytes, raw, hplace, FileTree.read_eq_ok hbytes, hraw, rfl⟩

/-- The file asked for, and no other, has these bytes after a run, and had any before. -/
def Stores (request : Request) (tree after : FileTree) (bytes : List UInt8) : Prop :=
  ∃ place, request.output = some place ∧
    (∀ other, after.file? other =
      if other = (placePath place).resolve [] then some bytes else tree.file? other) ∧
    after.directories = tree.directories

/-- What is stored is the encoding of a string in the one file asked for. -/
theorem store_eq_ok (h : request.store tree code = (after, .ok ())) :
    ∃ s : String, code = s ∧ request.Stores tree after (Text.encodeUtf8 s) := by
  simp only [store] at h
  split at h
  next => cases h
  next place hplace =>
    split at h
    next => cases h
    next file htarget =>
      split at h
      next => cases h
      next bytes hbytes =>
        cases h
        obtain ⟨s, rfl, rfl⟩ := Text.encode_eq_ok.mp hbytes
        refine ⟨s, rfl, place, hplace, fun other => ?_, rfl⟩
        rw [FileTree.file?_put, FileTree.file?_put, ← FileTree.target_eq_ok htarget]
        split <;> rfl

/-- Storing fails before the file is opened, or the file is opened and there is no encoding. -/
theorem store_eq_error {e : RunError} (h : request.store tree code = (after, .error e)) :
    after = tree ∨ ∃ e', code.encode = .error e' ∧ e = .failed (.noEncoding e') ∧
      request.Stores tree after [] := by
  simp only [store] at h
  split at h
  next =>
    cases h
    exact .inl rfl
  next place hplace =>
    split at h
    next =>
      cases h
      exact .inl rfl
    next file htarget =>
      split at h
      -- The file has been emptied by the time its text is encoded.
      next e' hencode =>
        cases h
        refine .inr ⟨e', hencode, rfl, place, hplace, fun other => ?_, rfl⟩
        rw [FileTree.file?_put, ← FileTree.target_eq_ok htarget]
      next => cases h

/-- What a run has written to the log and shown of its warnings once the module is generated. -/
def shownWarnings (request : Request) (generation : Generation) (warnings : Diagnostics) : String :=
  (if request.verbose then Text.concat (warnings.map warningLine) ++ countLine generation
    else "") ++ Text.concat (warnings.messages.map (· ++ "\n"))

/-- A run fails and leaves the tree, or it loads its inputs, generates the module and comes to
    store it. -/
theorem run_cases (maxDepth : Nat) (request : Request) (tree : FileTree) :
    (∃ log e, request.run maxDepth tree = RunError.outcome tree log e) ∨
      ∃ config text generation warnings,
        request.loadConfig maxDepth tree = .ok config ∧ request.loadText tree = .ok text ∧
        generate config request.commandLine [] text = (.ok generation, warnings) ∧
        request.run maxDepth tree =
          match request.store tree generation.code with
          | (after, .ok ()) => ⟨0, "", request.shownWarnings generation warnings, after, none⟩
          | (after, .error e) => e.outcome after (request.shownWarnings generation warnings) := by
  -- The tree is written in the last step only, so whatever fails before leaves it as it is.
  cases hinputs : (do return (← request.loadConfig maxDepth tree, ← request.loadText tree) :
      Except RunError (Config × String)) with
  | error e => exact .inl ⟨"", e, by simp only [run, hinputs]⟩
  | ok inputs =>
    obtain ⟨config, text⟩ := inputs
    obtain ⟨_, hconfig, _, htext, hpair⟩ :
        ∃ config', request.loadConfig maxDepth tree = .ok config' ∧
          ∃ text', request.loadText tree = .ok text' ∧ (config', text') = (config, text) := by
      simpa only [Success.bind_eq_ok, Success.pure_eq_ok] using hinputs
    cases hpair
    cases hgenerate : generate config request.commandLine [] text with
    | mk result warnings =>
      cases result with
      | error e => exact .inl ⟨_, _, by simp only [run, hinputs, hgenerate]; rfl⟩
      | ok generation =>
        refine .inr ⟨config, text, generation, warnings, hconfig, htext, hgenerate, ?_⟩
        simp only [run, hinputs, hgenerate, finish, shownWarnings]
        cases request.verbose <;> rfl

end Request

/-! ## All or nothing -/

theorem RunError.outcome_exitCode (tree : FileTree) (log : String) (e : RunError) :
    (RunError.outcome tree log e).exitCode = 1 := by
  cases e <;> rfl

/-- A run without a result writes nothing. -/
theorem RunError.outcome_tree (tree : FileTree) (log : String) (e : RunError) :
    (RunError.outcome tree log e).tree = tree := by
  cases e <;> rfl

/-- Where the configuration of a run comes from: the file of the last configuration option, or the
    default if there is none. -/
def ConfiguredBy (maxDepth : Nat) (start : List String) (items : List Item) (tree : FileTree)
    (base : Config) : Prop :=
  match (items.filterMap Item.config?).getLast? with
  | none => base = {}
  | some word => ∃ bytes, tree.file? (filePlace start word) = some bytes ∧
      Config.ofBytes maxDepth (placePath ((FilePath.ofString word).resolve start)).text bytes =
        .ok base

/-- A run that came to write what its items ask for: it read the text `raw` from the file `schema`
    and generated a module from it, and the file `output`, and no other, was opened for writing and
    has the bytes `bytes` in the end. -/
structure Writes (maxDepth : Nat) (start : List String) (items : List Item) (tree : FileTree)
    (outcome : Outcome) (schema output : String) (base : Config) (raw : List Char)
    (generation : Generation) (warnings : Diagnostics) (bytes : List UInt8) : Prop where
  arguments : items.filterMap Item.argument? = [schema, output]
  reads : ∃ bytes, tree.file? (filePlace start schema) = some bytes ∧
    Text.decodeUtf8 bytes = .ok raw
  configured : ConfiguredBy maxDepth start items tree base
  generates :
    generate (if .switch .addImports ∈ items then { base with addImports := .bool true } else base)
      (Request.ofItems start items).commandLine [] (String.ofList (Text.unifyLineEnds raw)) =
        (.ok generation, warnings)
  files : ∀ place, outcome.tree.file? place =
    if place = filePlace start output then some bytes else tree.file? place
  directories : outcome.tree.directories = tree.directories
  stderr : outcome.stderr =
    (if .switch .verbose ∈ items then
        Text.concat (warnings.map warningLine) ++ countLine generation else "") ++
      Text.concat (warnings.map fun warning => warning.text ++ "\n")
  stdout : outcome.stdout = ""

/-- The arguments of a command line with two of them. -/
theorem Request.arguments_eq {items : List Item} {schema output : String}
    (hlength : (items.filterMap Item.argument?).length ≤ 2)
    (hschema : (items.filterMap Item.argument?)[0]? = some schema)
    (houtput : (items.filterMap Item.argument?)[1]? = some output) :
    items.filterMap Item.argument? = [schema, output] := by
  match h : items.filterMap Item.argument?, hlength with
  | [], _ => simp [h] at hschema
  | [_], _ => simp [h] at houtput
  | [first, second], _ =>
    rw [h] at hschema houtput
    cases hschema
    cases houtput
    rfl

/-- The configuration comes from the last option for it, or it is the default. -/
theorem configuredBy_of_ofItems {maxDepth : Nat} {start : List String} {items : List Item}
    {tree : FileTree} {base : Config}
    (h : (Request.ofItems start items).config = none ∧ base = {} ∨
      ∃ place bytes, (Request.ofItems start items).config = some place ∧
        tree.file? ((placePath place).resolve []) = some bytes ∧
        Config.ofBytes maxDepth (placePath place).text bytes = .ok base) :
    ConfiguredBy maxDepth start items tree base := by
  simp only [Request.ofItems, Parsed.ofItems] at h
  cases hlast : (items.filterMap Item.config?).getLast? with
  | none => simpa [ConfiguredBy, hlast] using h
  | some word => simpa [ConfiguredBy, hlast, filePlace] using h

/-- A run whose inputs are there, whose module is generated and whose output is opened. -/
theorem Request.writes_of_stores {maxDepth : Nat} {start : List String} {items : List Item}
    {tree : FileTree} (outcome : Outcome) {config : Config} {text : String} {generation : Generation}
    {warnings : Diagnostics} {bytes : List UInt8}
    (hlength : (items.filterMap Item.argument?).length ≤ 2)
    (hconfig : (ofItems start items).loadConfig maxDepth tree = .ok config)
    (htext : (ofItems start items).loadText tree = .ok text)
    (hgenerate : generate config (ofItems start items).commandLine [] text =
      (.ok generation, warnings))
    (hstores : (ofItems start items).Stores tree outcome.tree bytes)
    (hstderr : outcome.stderr = (ofItems start items).shownWarnings generation warnings)
    (hstdout : outcome.stdout = "") :
    ∃ schema output base raw,
      Writes maxDepth start items tree outcome schema output base raw generation warnings
        bytes := by
  obtain ⟨base, hbase, hadd⟩ := loadConfig_eq_ok hconfig
  obtain ⟨_, _, raw, hpath, hbytes, hraw, rfl⟩ := loadText_eq_ok htext
  obtain ⟨_, hplace, hfiles, hdirectories⟩ := hstores
  obtain ⟨schema, hschema, rfl⟩ := Option.map_eq_some_iff.mp hpath
  obtain ⟨output, houtput, rfl⟩ := Option.map_eq_some_iff.mp hplace
  exact ⟨schema, output, base, raw,
    { arguments := arguments_eq hlength hschema houtput
      reads := ⟨_, hbytes, hraw⟩
      configured := configuredBy_of_ofItems hbase
      generates := by
        rw [← hgenerate, hadd]
        simp only [Request.ofItems, Parsed.ofItems, decide_eq_true_eq]
      files := hfiles
      directories := hdirectories
      stderr := by
        rw [hstderr]
        simp only [shownWarnings, Request.ofItems, Parsed.ofItems, decide_eq_true_eq,
          Diagnostics.messages, List.map_map, Function.comp_def]
      stdout := hstdout }⟩

/-- A run that broke off when its output was open, since the module has no encoding. -/
def BreaksOff (maxDepth : Nat) (start : List String) (items : List Item) (tree : FileTree)
    (outcome : Outcome) : Prop :=
  ∃ schema output base raw generation warnings e,
    Writes maxDepth start items tree outcome schema output base raw generation warnings [] ∧
      .half e.half ∈ generation.code.points ∧ outcome.failure = some (.noEncoding e)

/-- A run that has written the module, a string, to its output. -/
def Completes (maxDepth : Nat) (start : List String) (items : List Item) (tree : FileTree)
    (outcome : Outcome) : Prop :=
  ∃ schema output base raw generation warnings, ∃ code : String,
    Writes maxDepth start items tree outcome schema output base raw generation warnings
        (Text.encodeUtf8 code) ∧
      generation.code = code ∧ outcome.failure = none

/-- A run of a request leaves the tree, breaks off, or is complete. -/
theorem Request.run_ofItems (maxDepth : Nat) (start : List String) (items : List Item)
    (tree : FileTree) (hlength : (items.filterMap Item.argument?).length ≤ 2) :
    let outcome := (Request.ofItems start items).run maxDepth tree
    outcome.exitCode = 1 ∧
        (outcome.tree = tree ∨ BreaksOff maxDepth start items tree outcome) ∨
      outcome.exitCode = 0 ∧ Completes maxDepth start items tree outcome := by
  intro outcome
  obtain ⟨log, e, hrun⟩ | ⟨config, text, generation, warnings, hconfig, htext, hgenerate, hrun⟩ :=
    run_cases maxDepth (.ofItems start items) tree
  · rw [show outcome = _ from hrun]
    exact .inl ⟨e.outcome_exitCode .., .inl (e.outcome_tree ..)⟩
  · rw [show outcome = _ from hrun]
    cases hstore : (ofItems start items).store tree generation.code with
    | mk after result =>
      cases result with
      | error e =>
        refine .inl ⟨e.outcome_exitCode .., ?_⟩
        -- Either the file could not be opened, or it was emptied and the code could not be encoded.
        rcases store_eq_error hstore with rfl | ⟨e', hencode, rfl, hstores⟩
        · exact .inl (e.outcome_tree ..)
        · obtain ⟨front, back, hpoints, -⟩ := Text.encode_eq_error hencode
          obtain ⟨schema, output, base, raw, hwrites⟩ := writes_of_stores
            ⟨1, "", _, after, some (.noEncoding e')⟩ hlength hconfig htext hgenerate hstores rfl rfl
          refine .inr ⟨schema, output, base, raw, generation, warnings, e', hwrites, ?_, rfl⟩
          rw [hpoints]
          exact List.mem_append_right _ List.mem_cons_self
      | ok _ =>
        obtain ⟨code, hcode, hstores⟩ := store_eq_ok hstore
        obtain ⟨schema, output, base, raw, hwrites⟩ := writes_of_stores ⟨0, "", _, after, none⟩
          hlength hconfig htext hgenerate hstores rfl rfl
        exact .inr
          ⟨rfl, schema, output, base, raw, generation, warnings, code, hwrites, hcode, rfl⟩

/-- Every run, whatever its words and the files: if it exits with another code than zero, the tree
    is as it was before, unless the module was generated and has half of a surrogate pair in it. Then
    the output was opened and is empty. A run that exits with zero has words that spell items. If
    they ask for help, help is shown and nothing happens; if not, the run is complete. -/
theorem run_allOrNothing (maxDepth : Nat) (start words : List String) (tree : FileTree) :
    let outcome := run maxDepth start words tree
    (outcome.exitCode ≠ 0 →
        outcome.tree = tree ∨
          ∃ items, Spells words items ∧ .switch .help ∉ items ∧
            BreaksOff maxDepth start items tree outcome) ∧
      (outcome.exitCode = 0 → ∃ items, Spells words items ∧
        (.switch .help ∈ items ∧ outcome = ⟨0, helpText, "", tree, none⟩ ∨
          .switch .help ∉ items ∧ Completes maxDepth start items tree outcome)) := by
  intro outcome
  cases hrequest : Request.ofWords tree start words with
  | error e =>
    -- Words that make no request end the run before it writes anything.
    have hfails : outcome.exitCode ≠ 0 ∧ outcome.tree = tree := by
      cases e <;> simp [outcome, run, hrequest]
    exact ⟨fun _ => .inl hfails.2, fun h => absurd h hfails.1⟩
  | ok request =>
    obtain ⟨items, hspells, ⟨hhelp, rfl⟩ | ⟨hhelp, hlength, rfl⟩⟩ := Request.ofWords_eq_ok hrequest
    · have hrun : outcome = ⟨0, helpText, "", tree, none⟩ := by
        simp only [outcome, run, hrequest]
      exact ⟨fun _ => by rw [hrun]; exact .inl rfl, fun _ => ⟨items, hspells, .inl ⟨hhelp, hrun⟩⟩⟩
    · have hrun : outcome = (Request.ofItems start items).run maxDepth tree := by
        simp only [outcome, run, hrequest]
      rw [hrun]
      obtain ⟨hcode, hends⟩ | ⟨hcode, hcomplete⟩ :=
        Request.run_ofItems maxDepth start items tree hlength
      · exact ⟨fun _ => hends.imp_right fun h => ⟨items, hspells, hhelp, h⟩,
          fun h => by rw [hcode] at h; cases h⟩
      · exact ⟨fun h => absurd hcode h, fun _ => ⟨items, hspells, .inr ⟨hhelp, hcomplete⟩⟩⟩

/-- A configuration whose reason is half of a surrogate pair, a schema that uses it, and an output
    that is there already. -/
def halfReasonTree : FileTree :=
  let bytes (text : String) : List UInt8 := text.toList.flatMap String.utf8EncodeChar
  { files :=
      [(["c.json"], bytes "\x7b\"default_deprecation_reason\": \"\\ud800\"\x7d"),
        (["s.graphql"], bytes "type Query \x7b a: Int @deprecated \x7d"),
        (["out.py"], bytes "old")]
    directories := [] }

/-- The run exits with one, and the output is empty. -/
theorem run_halfReasonTree :
    let words := ["--config", "c.json", "s.graphql", "out.py"]
    let outcome := run Json.freeDepth [] words halfReasonTree
    outcome.exitCode = 1 ∧ halfReasonTree.file? ["out.py"] = some [111, 108, 100] ∧
      outcome.tree.file? ["out.py"] = some [] := by
  decide +kernel

end SchemaClasses.CommandLine
