import Mathlib.Data.List.Induction
import SchemaClasses.CommandLine.Options

/-!
# Words of a command line

The grammar of command lines: which words spell which options and arguments, and what the options
and arguments together say. Words are read as parameters exactly if they spell some.
-/

namespace SchemaClasses.CommandLine

/-! ## Items -/

/-- One thing that a command line gives. -/
inductive Item
  | config (value : String)
  | switch (flag : Flag)
  | argument (word : String)
deriving DecidableEq, Repr

namespace Item

def config? : Item → Option String
  | .config value => some value
  | _ => none

def argument? : Item → Option String
  | .argument word => some word
  | _ => none

end Item

/-- What the items of a command line say: the last configuration counts, a switch counts if it is
    there at all, and arguments count in their order. -/
def Parsed.ofItems (items : List Item) : Parsed :=
  { config := (items.filterMap Item.config?).getLast?
    addImports := decide (.switch .addImports ∈ items)
    verbose := decide (.switch .verbose ∈ items)
    help := decide (.switch .help ∈ items)
    arguments := items.filterMap Item.argument? }

/-! ## Spelling -/

/-- A word of one dash with some switches before the rest of its letters. -/
def shortWord (switches : Nat) (letters : List Char) : String :=
  String.ofList ('-' :: (List.replicate switches 'v' ++ letters))

/-- As many times the same switch as a word of one dash has letters for it. -/
def verboseItems (switches : Nat) : List Item :=
  List.replicate switches (.switch .verbose)

/-- Words that spell one option each, or several that share a word of one dash. -/
inductive SpellsOption : List String → List Item → Prop
  | switch {spelling flag} (h : (spelling, flag) ∈ longSpellings) (hflag : flag.takesValue = false) :
      SpellsOption [spelling] [.switch flag]
  | config (value : String) : SpellsOption ["--config", value] [.config value]
  | configInWord (value : String) : SpellsOption ["--config=" ++ value] [.config value]
  | switches (switches : Nat) (h : 0 < switches) :
      SpellsOption [shortWord switches []] (verboseItems switches)
  | shortConfig (switches : Nat) (value : String) :
      SpellsOption [shortWord switches ['c'], value] (verboseItems switches ++ [.config value])
  | shortConfigInWord (switches : Nat) (letters : List Char) (h : letters ≠ []) :
      SpellsOption [shortWord switches ('c' :: letters)]
        (verboseItems switches ++ [.config (String.ofList letters)])

/-- Words that spell items, in order. -/
inductive Spells : List String → List Item → Prop
  | nil : Spells [] []
  /-- After two dashes, all words are arguments. -/
  | dashes (rest : List String) : Spells ("--" :: rest) (rest.map .argument)
  | argument {word rest items} (h : Parsed.isOption word.toList = false)
      (hrest : Spells rest items) : Spells (word :: rest) (.argument word :: items)
  | option {words rest first items} (h : SpellsOption words first) (hrest : Spells rest items) :
      Spells (words ++ rest) (first ++ items)

namespace Parsed

/-! ## Taking items -/

def take (parsed : Parsed) : Item → Parsed
  | .config value => { parsed with config := some value }
  | .switch flag => parsed.setFlag flag
  | .argument word => { parsed with arguments := parsed.arguments ++ [word] }

/-- With more items, in order. -/
def takeAll (parsed : Parsed) (items : List Item) : Parsed :=
  items.foldl take parsed

@[simp] theorem takeAll_nil (parsed : Parsed) : parsed.takeAll [] = parsed := rfl

@[simp] theorem takeAll_cons (parsed : Parsed) (item : Item) (items : List Item) :
    parsed.takeAll (item :: items) = (parsed.take item).takeAll items := rfl

/-- Items can be taken in two goes. -/
theorem takeAll_append (parsed : Parsed) (first second : List Item) :
    parsed.takeAll (first ++ second) = (parsed.takeAll first).takeAll second :=
  List.foldl_append

/-- Arguments are only collected. -/
theorem takeAll_arguments (parsed : Parsed) (words : List String) :
    parsed.takeAll (words.map .argument) =
      { parsed with arguments := parsed.arguments ++ words } := by
  induction words generalizing parsed with
  | nil => simp
  | cons word rest ih => simp [ih, take]

/-- What items say is what they add one by one. -/
theorem takeAll_empty (items : List Item) : ({} : Parsed).takeAll items = ofItems items := by
  induction items using List.reverseRecOn with
  | nil => rfl
  | append_singleton items item ih =>
    rw [takeAll_append, ih, takeAll_cons, takeAll_nil]
    cases item with
    | config value => simp [ofItems, take, Item.config?, Item.argument?]
    | argument word => simp [ofItems, take, Item.config?, Item.argument?]
    | switch flag => cases flag <;> simp [ofItems, take, setFlag, Item.config?, Item.argument?]

/-! ## Options of one dash -/

/-- Each switch of a word of one dash counts. -/
theorem setShort_switches (parsed : Parsed) (rest : List String) (switches : Nat)
    (letters : List Char) :
    parsed.setShort rest (List.replicate switches 'v' ++ letters) =
      (parsed.takeAll (verboseItems switches)).setShort rest letters := by
  induction switches generalizing parsed with
  | zero => rfl
  | succ n ih => exact ih _

theorem setShort_config (parsed : Parsed) (rest : List String) (letters : List Char) :
    parsed.setShort rest ('c' :: letters) =
      parsed.takeValue "-c" (if letters.isEmpty then rest else String.ofList letters :: rest) :=
  rfl

/-- A letter that is no option ends the reading. -/
theorem lookup_shortSpellings_eq_none {letter : Char} (hswitch : letter ≠ 'v')
    (hconfig : letter ≠ 'c') : shortSpellings.lookup (String.ofList ['-', letter]) = none := by
  have hne : ∀ other : Char, letter ≠ other →
      (String.ofList ['-', letter] == String.ofList ['-', other]) = false := by
    intro other hother
    rw [beq_eq_false_iff_ne, Ne, String.ofList_inj]
    simpa using hother
  rw [shortSpellings, List.lookup_cons, List.lookup_cons]
  simp only [hne 'c' hconfig, hne 'v' hswitch, List.lookup_nil]

theorem takeValue_eq_ok {parsed : Parsed} {spelling : String} {words : List String}
    {result : Parsed × List String} (h : parsed.takeValue spelling words = .ok result) :
    ∃ value, words = value :: result.2 ∧ result.1 = parsed.take (.config value) := by
  cases words with
  | nil => cases h
  | cons value rest =>
    cases h
    exact ⟨value, rfl, rfl⟩

/-- A word of one dash starts with some switches, perhaps none. -/
theorem exists_switches (letters : List Char) :
    ∃ switches rest, letters = List.replicate switches 'v' ++ rest ∧ rest.head? ≠ some 'v' := by
  induction letters with
  | nil => exact ⟨0, [], rfl, by simp⟩
  | cons letter rest ih =>
    obtain ⟨switches, more, rfl, hmore⟩ := ih
    by_cases hletter : letter = 'v'
    · exact ⟨switches + 1, more, by rw [hletter]; rfl, hmore⟩
    · exact ⟨0, _, rfl, by simpa using hletter⟩

/-- Letters that can be read spell options, perhaps with the word after them. -/
theorem setShort_eq_ok {parsed : Parsed} {rest : List String} {letters : List Char}
    {result : Parsed × List String} (hletters : letters ≠ [])
    (h : parsed.setShort rest letters = .ok result) :
    ∃ words items, SpellsOption words items ∧
      String.ofList ('-' :: letters) :: rest = words ++ result.2 ∧
      result.1 = parsed.takeAll items := by
  obtain ⟨switches, more, rfl, hmore⟩ := exists_switches letters
  rw [setShort_switches] at h
  -- What is left after the switches is nothing, the configuration or no option at all.
  cases more with
  | nil =>
    cases h
    refine ⟨_, _, .switches switches ?_, rfl, rfl⟩
    cases switches with
    | zero => simp at hletters
    | succ n => exact n.succ_pos
  | cons letter value =>
    have hswitch : letter ≠ 'v' := by simpa using hmore
    by_cases hletter : letter = 'c'
    · subst hletter
      rw [setShort_config] at h
      obtain ⟨given, hwords, hresult⟩ := takeValue_eq_ok h
      -- The value is the rest of the word, or the next word if there is no rest.
      by_cases hvalue : value = []
      · subst hvalue
        simp only [List.isEmpty_nil, if_true] at hwords
        refine ⟨_, _, .shortConfig switches given, by rw [hwords]; rfl, ?_⟩
        rw [hresult, takeAll_append]
        rfl
      · simp only [List.isEmpty_iff, hvalue, if_false, List.cons.injEq] at hwords
        refine ⟨_, _, .shortConfigInWord switches value hvalue, by rw [hwords.2]; rfl, ?_⟩
        rw [hresult, takeAll_append, hwords.1]
        rfl
    · rw [setShort] at h
      simp only [lookup_shortSpellings_eq_none hswitch hletter] at h
      cases h

/-! ## Options in full -/

/-- The text before an equals sign and what follows from there make up the word. -/
theorem spelling_append (word : List Char) :
    String.ofList (word.takeWhile (· ≠ '=')) ++ String.ofList (word.dropWhile (· ≠ '=')) =
      String.ofList word := by
  rw [← String.ofList_append, List.takeWhile_append_dropWhile]

/-- Only the configuration takes a value. -/
theorem eq_config_of_takesValue {spelling : String} {flag : Flag}
    (hmem : (spelling, flag) ∈ longSpellings) (h : flag.takesValue = true) :
    spelling = "--config" := by
  simp only [longSpellings, List.mem_cons, Prod.mk.injEq, List.not_mem_nil, or_false] at hmem
  obtain ⟨rfl, rfl⟩ | ⟨rfl, rfl⟩ | ⟨rfl, rfl⟩ | ⟨rfl, rfl⟩ := hmem
  · rfl
  all_goals cases h

/-- A word with two dashes that is accepted spells one item, perhaps together with the next word. -/
theorem setLong_eq_ok {parsed : Parsed} {rest : List String} {word : List Char} {flag : Flag}
    {result : Parsed × List String}
    (hmem : (String.ofList (word.takeWhile (· ≠ '=')), flag) ∈ longSpellings)
    (h : parsed.setLong rest word flag (String.ofList (word.takeWhile (· ≠ '='))) = .ok result) :
    ∃ words items, SpellsOption words items ∧ String.ofList word :: rest = words ++ result.2 ∧
      result.1 = parsed.takeAll items := by
  have hword := spelling_append word
  -- Only the configuration takes a value, from the same word after an equals sign or from the next.
  cases hvalue : word.dropWhile (· ≠ '=') with
  | nil =>
    rw [hvalue, String.ofList_nil, String.append_empty] at hword
    rw [hword] at hmem
    simp only [setLong, hvalue] at h
    split at h
    next hflag =>
      obtain ⟨given, rfl, hresult⟩ := takeValue_eq_ok h
      have hconfig := eq_config_of_takesValue hmem hflag
      exact ⟨_, _, .config given, by rw [hconfig]; rfl, hresult⟩
    next hflag =>
      cases h
      exact ⟨_, _, .switch hmem (by simpa using hflag), rfl, rfl⟩
  | cons sign value =>
    obtain rfl : sign = '=' := by
      have hhead := List.head?_dropWhile_not (· ≠ '=') word
      rw [hvalue] at hhead
      simpa using hhead
    simp only [setLong, hvalue] at h
    split at h
    next hflag =>
      obtain ⟨given, hwords, hresult⟩ := takeValue_eq_ok h
      obtain ⟨rfl, hrest⟩ := List.cons.inj hwords
      refine ⟨_, _, .configInWord (String.ofList value), ?_, hresult⟩
      have hsign : String.ofList ('=' :: value) = "=" ++ String.ofList value :=
        @String.ofList_append ['='] value
      rw [← hword, hvalue, hsign, eq_config_of_takesValue hmem hflag, ← hrest,
        ← String.append_assoc]
      rfl
    next => cases h

/-! ## All options -/

/-- The words of an option that is accepted spell the items that it gives. -/
theorem setOption_eq_ok {parsed : Parsed} {rest : List String} {word : List Char}
    {result : Parsed × List String} (hoption : isOption word = true)
    (h : parsed.setOption rest word = .ok result) :
    ∃ words items, SpellsOption words items ∧ String.ofList word :: rest = words ++ result.2 ∧
      result.1 = parsed.takeAll items := by
  simp only [setOption] at h
  split at h
  -- A whole word is looked for before letters are taken one by one.
  next flag hlookup =>
    obtain ⟨before, after, hspellings, -⟩ := List.lookup_eq_some_iff.mp hlookup
    exact setLong_eq_ok (by rw [hspellings]; exact List.mem_append_cons_self) h
  next =>
    split at h
    next => cases h
    next hshort =>
      obtain ⟨letter, letters, rfl⟩ : ∃ letter letters, word = '-' :: letter :: letters := by
        match word, hoption with
        | first :: letter :: letters, hoption =>
          obtain rfl : first = '-' := by simpa [isOption] using hoption
          exact ⟨letter, letters, rfl⟩
        | [], hoption | [_], hoption => simp [isOption] at hoption
      exact setShort_eq_ok (by simp) h

/-- Spellings of two dashes are no words of one dash. -/
theorem lookup_longSpellings_eq_none {letter : Char} (letters : List Char) (h : letter ≠ '-') :
    longSpellings.lookup (String.ofList ('-' :: letter :: letters)) = none := by
  have hne : ∀ more : List Char,
      String.ofList ('-' :: letter :: letters) ≠ String.ofList ('-' :: '-' :: more) := by
    intro more hmore
    rw [String.ofList_inj] at hmore
    exact h (List.cons.inj (List.cons.inj hmore).2).1
  rw [List.lookup_eq_none_iff]
  intro p hp
  rw [bne_iff_ne]
  simp only [longSpellings, List.mem_cons, List.not_mem_nil, or_false] at hp
  obtain rfl | rfl | rfl | rfl := hp <;> exact hne _

/-- A dash and a letter start a word of short spellings. -/
theorem setOption_short {parsed : Parsed} {rest : List String} {letter : Char}
    {letters : List Char} (hdash : letter ≠ '-') (hsign : letter ≠ '=') :
    parsed.setOption rest ('-' :: letter :: letters) = parsed.setShort rest (letter :: letters) := by
  have htake : ('-' :: letter :: letters).takeWhile (· ≠ '=') =
      '-' :: letter :: letters.takeWhile (· ≠ '=') := by
    simp [hsign]
  simp only [setOption, htake, lookup_longSpellings_eq_none _ hdash, List.drop_succ_cons,
    List.drop_zero]
  split
  next heq => simp [hdash] at heq
  next => rfl

/-- A word of one dash starts with a switch or the configuration, so it is read letter by letter. -/
theorem shortWord_reads (switches : Nat) (letters : List Char)
    (h : letters.head? = some 'c' ∨ letters = [] ∧ 0 < switches) :
    isOption (shortWord switches letters).toList = true ∧ shortWord switches letters ≠ "--" ∧
      ∀ (parsed : Parsed) (rest : List String),
        parsed.setOption rest (shortWord switches letters).toList =
          (parsed.takeAll (verboseItems switches)).setShort rest letters := by
  obtain ⟨letter, more, hletters, hletter⟩ : ∃ letter more,
      List.replicate switches 'v' ++ letters = letter :: more ∧ (letter = 'v' ∨ letter = 'c') := by
    cases switches with
    | succ n => exact ⟨'v', List.replicate n 'v' ++ letters, rfl, .inl rfl⟩
    | zero =>
      obtain h | ⟨-, h⟩ := h
      · obtain ⟨more, rfl⟩ := List.head?_eq_some_iff.mp h
        exact ⟨'c', more, rfl, .inr rfl⟩
      · exact absurd h (Nat.lt_irrefl 0)
  -- The first letter keeps the word apart from the options in full.
  have hdash : letter ≠ '-' := by obtain rfl | rfl := hletter <;> decide
  have hsign : letter ≠ '=' := by obtain rfl | rfl := hletter <;> decide
  refine ⟨?_, ?_, fun parsed rest => ?_⟩
  · simp [shortWord, hletters, isOption]
  · intro hword
    rw [shortWord, hletters, show "--" = String.ofList ['-', '-'] from rfl,
      String.ofList_inj] at hword
    exact hdash (List.cons.inj (List.cons.inj hword).2).1
  · rw [shortWord, String.toList_ofList, ← setShort_switches, hletters]
    exact setOption_short hdash hsign

/-- Words that spell options are read as these, whatever follows. -/
theorem setOption_of_spells {words : List String} {items : List Item} (h : SpellsOption words items) :
    ∃ word rest, words = word :: rest ∧ isOption word.toList = true ∧ word ≠ "--" ∧
      ∀ (parsed : Parsed) (more : List String),
        parsed.setOption (rest ++ more) word.toList = .ok (parsed.takeAll items, more) := by
  cases h with
  | @switch spelling flag hmem hflag =>
    refine ⟨spelling, [], rfl, ?_⟩
    simp only [longSpellings, List.mem_cons, Prod.mk.injEq, List.not_mem_nil, or_false] at hmem
    obtain ⟨rfl, rfl⟩ | ⟨rfl, rfl⟩ | ⟨rfl, rfl⟩ | ⟨rfl, rfl⟩ := hmem
    -- The configuration is no switch.
    · cases hflag
    all_goals exact ⟨rfl, by decide, fun _ _ => rfl⟩
  | config value => exact ⟨_, _, rfl, rfl, by decide, fun _ _ => rfl⟩
  | configInWord value =>
    refine ⟨_, [], rfl, ?_, ?_, fun parsed more => ?_⟩
    · rw [String.toList_append]
      rfl
    · intro hword
      have := congrArg (fun word => word.toList.length) hword
      simp at this
    · simp only [String.toList_append, setOption]
      change (parsed.takeValue "--config" (String.ofList value.toList :: more)) = _
      rw [String.ofList_toList]
      rfl
  | switches n hpos =>
    obtain ⟨hoption, hdashes, hread⟩ := shortWord_reads n [] (.inr ⟨rfl, hpos⟩)
    exact ⟨_, [], rfl, hoption, hdashes, fun parsed more => hread parsed more⟩
  | shortConfig n value =>
    obtain ⟨hoption, hdashes, hread⟩ := shortWord_reads n ['c'] (.inl rfl)
    refine ⟨_, [value], rfl, hoption, hdashes, fun parsed more => ?_⟩
    rw [hread, takeAll_append]
    rfl
  | shortConfigInWord n letters hletters =>
    obtain ⟨hoption, hdashes, hread⟩ := shortWord_reads n ('c' :: letters) (.inl rfl)
    refine ⟨_, [], rfl, hoption, hdashes, fun parsed more => ?_⟩
    rw [hread, takeAll_append, setShort_config]
    simp only [List.isEmpty_iff, hletters, if_false]
    rfl

/-! ## All words -/

/-- Words that are accepted spell the items that are taken from them. -/
theorem readWords_eq_ok {parsed result : Parsed} {fuel : Nat} {words : List String}
    (hfuel : words.length ≤ fuel) (h : parsed.readWords fuel words = .ok result) :
    ∃ items, Spells words items ∧ result = parsed.takeAll items := by
  induction fuel generalizing parsed words with
  | zero =>
    obtain rfl := List.length_eq_zero_iff.mp (Nat.le_zero.mp hfuel)
    cases h
    exact ⟨[], .nil, rfl⟩
  | succ fuel ih =>
    cases words with
    | nil =>
      cases h
      exact ⟨[], .nil, rfl⟩
    | cons word rest =>
      have hrest : rest.length ≤ fuel := Nat.le_of_succ_le_succ hfuel
      simp only [readWords] at h
      split at h
      next hword =>
        cases h
        exact ⟨_, hword ▸ .dashes rest, (takeAll_arguments parsed rest).symm⟩
      next =>
        split at h
        next hoption =>
          split at h
          next after more hset =>
            obtain ⟨spelled, items, hspells, hwords, hafter⟩ := setOption_eq_ok hoption hset
            -- An option takes at least its own word, so the steps that are left are enough.
            obtain ⟨first, given, rfl, -⟩ := setOption_of_spells hspells
            rw [String.ofList_toList, List.cons_append, List.cons.injEq] at hwords
            obtain ⟨rfl, hgiven⟩ := hwords
            have hmore : more.length ≤ fuel := by
              rw [hgiven, List.length_append] at hrest
              exact Nat.le_of_add_left_le hrest
            obtain ⟨others, hothers, rfl⟩ := ih hmore h
            refine ⟨items ++ others, ?_, by rw [takeAll_append, ← hafter]⟩
            rw [hgiven]
            exact .option hspells hothers
          next => cases h
        next hargument =>
          obtain ⟨items, hspells, rfl⟩ := ih hrest h
          exact ⟨_, .argument (by simpa using hargument) hspells, rfl⟩

/-- Words that spell items are accepted, and those items are taken. -/
theorem readWords_of_spells {parsed : Parsed} {fuel : Nat} {words : List String}
    {items : List Item} (hfuel : words.length ≤ fuel) (h : Spells words items) :
    parsed.readWords fuel words = .ok (parsed.takeAll items) := by
  -- An option takes one word or two, so the fuel may exceed what is left.
  induction h generalizing parsed fuel with
  | nil => cases fuel <;> rfl
  | dashes rest =>
    cases fuel with
    | zero => simp at hfuel
    | succ fuel => simp only [readWords, if_true, takeAll_arguments]
  | @argument word rest items hargument _ ih =>
    cases fuel with
    | zero => simp at hfuel
    | succ fuel =>
      have hword : word ≠ "--" := by
        rintro rfl
        cases hargument
      simp only [readWords, hword, hargument, if_false, Bool.false_eq_true]
      exact ih (Nat.le_of_succ_le_succ hfuel)
  | @option words rest first items hspells _ ih =>
    obtain ⟨word, given, rfl, hoption, hword, hset⟩ := setOption_of_spells hspells
    cases fuel with
    | zero => simp at hfuel
    | succ fuel =>
      have hrest : rest.length ≤ fuel := by
        simp only [List.cons_append, List.length_cons, List.length_append] at hfuel
        omega
      simp only [readWords, List.cons_append, hword, hoption, hset, if_false, if_true]
      rw [ih hrest, takeAll_append]

/-- Words are read exactly if they spell items, and say what the items say. -/
theorem ofWords_eq_ok {words : List String} {parsed : Parsed} :
    Parsed.ofWords words = .ok parsed ↔ ∃ items, Spells words items ∧ parsed = ofItems items := by
  constructor
  · intro h
    obtain ⟨items, hspells, rfl⟩ := readWords_eq_ok (Nat.le_succ _) h
    exact ⟨items, hspells, takeAll_empty items⟩
  · rintro ⟨items, hspells, rfl⟩
    rw [ofWords, readWords_of_spells (Nat.le_succ _) hspells, takeAll_empty]

end Parsed

end SchemaClasses.CommandLine
