import SchemaClasses.CommandLine.Reconstruction
import SchemaClasses.Proofs.Assembly

/-!
# Lines of headers

Where the lines of a header end. The command line is shown as it is, so the header consists of the
comment and the import exactly if no file on the command line has a name with a line end in it.
-/

namespace SchemaClasses

/-! ## Lines -/

namespace Text

/-- No line ends within the text. -/
def IsOneLine (text : Text) : Prop :=
  ∀ point ∈ text.points, point ≠ .char '\n' ∧ point ≠ .char '\r'

/-- Every line end becomes a line feed, as `unifyLineEnds` says for characters. -/
def unifyPoints : List CodePoint → List CodePoint
  | [] => []
  | .char '\r' :: .char '\n' :: rest => .char '\n' :: unifyPoints rest
  | .char '\r' :: rest => .char '\n' :: unifyPoints rest
  | point :: rest => point :: unifyPoints rest

/-- The lines of a text without their ends; the empty text has none. -/
def sourceLines (text : Text) : List Text :=
  if text.isEmpty then [] else ((unifyPoints text.points).splitOn (.char '\n')).map Text.mk

theorem isOneLine_ofString {s : String} :
    IsOneLine s ↔ ∀ c ∈ s.toList, c ≠ '\n' ∧ c ≠ '\r' := by
  simp [IsOneLine]

/-- Line ends do not come about where texts meet. -/
theorem isOneLine_append {a b : Text} : IsOneLine (a ++ b) ↔ IsOneLine a ∧ IsOneLine b :=
  List.forall_mem_append

/-- Joined texts are on one line if the texts are, and what is between them. -/
theorem isOneLine_join {separator : String} (h : IsOneLine separator) (texts : List Text) :
    IsOneLine (join separator texts) ↔ ∀ text ∈ texts, IsOneLine text :=
  forall_mem_join h texts

/-- Without carriage returns there is nothing to unify. -/
theorem unifyPoints_of_notMem {points : List CodePoint} (h : .char '\r' ∉ points) :
    unifyPoints points = points := by
  fun_induction unifyPoints points with
  | case1 => rfl
  | case2 | case3 => exact absurd List.mem_cons_self h
  | case4 point rest _ _ ih => rw [ih fun hmem => h (List.mem_cons_of_mem _ hmem)]

/-- No carriage return is left. -/
theorem notMem_unifyPoints (points : List CodePoint) : .char '\r' ∉ unifyPoints points := by
  fun_induction unifyPoints points with
  | case1 => simp
  | case2 rest ih | case3 rest _ ih => simpa using ih
  | case4 point rest _ hreturn ih =>
    simp only [List.mem_cons, not_or]
    exact ⟨fun heq => hreturn heq.symm, ih⟩

theorem points_join (separator : String) (texts : List Text) :
    (join separator texts).points =
      (separator.toList.map CodePoint.char).intercalate (texts.map points) := by
  fun_induction join separator texts with
  | case1 => rfl
  | case2 text => simp
  | case3 text rest hrest ih =>
    obtain ⟨second, more, rfl⟩ := List.exists_cons_of_ne_nil (by simpa using hrest)
    simp [ih, List.intercalate]

/-- Lines that are joined are the lines of the text. -/
theorem sourceLines_join {lines : List Text} (h : ∀ line ∈ lines, line ≠ "" ∧ IsOneLine line) :
    sourceLines (join "\n" lines) = lines := by
  cases lines with
  | nil => rfl
  | cons first rest =>
    have hne : join "\n" (first :: rest) ≠ "" := by
      obtain ⟨tail, htail⟩ := join_cons_eq "\n" first rest
      rw [htail]
      simp [(h first List.mem_cons_self).1]
    -- Without carriage returns the lines end just where they were joined.
    have hreturn : .char '\r' ∉ (join "\n" (first :: rest)).points := by
      have hfeed : ∀ point ∈ (ofString "\n").points, point ≠ .char '\r' := by simp
      have hall := (forall_mem_join hfeed (first :: rest)).mpr fun line hline point hpoint =>
        ((h line hline).2 point hpoint).2
      exact fun hmem => hall _ hmem rfl
    have hpieces : ∀ piece ∈ (first :: rest).map points, .char '\n' ∉ piece := by
      rw [List.forall_mem_map]
      exact fun line hline hmem => ((h line hline).2 _ hmem).1 rfl
    have hsplit := List.splitOn_intercalate (CodePoint.char '\n') hpieces (by simp)
    rw [sourceLines, if_neg (by simpa using hne), unifyPoints_of_notMem hreturn, points_join,
      show "\n".toList.map CodePoint.char = [.char '\n'] from rfl, hsplit, List.map_map]
    exact List.map_id _

/-- The lines of a text are each on one line. -/
theorem isOneLine_of_mem_sourceLines {text line : Text} (h : line ∈ sourceLines text) :
    IsOneLine line := by
  unfold sourceLines at h
  split at h
  case isTrue => cases h
  case isFalse =>
    obtain ⟨piece, hpiece, rfl⟩ := List.mem_map.mp h
    intro point hpoint
    obtain ⟨hmem, hfeed⟩ := mem_of_mem_splitOn hpiece point hpoint
    refine ⟨hfeed, ?_⟩
    rintro rfl
    exact notMem_unifyPoints _ hmem

/-- There is nothing to trim around lines. -/
theorem trimLineFeeds_join {lines : List Text} (h : ∀ line ∈ lines, line ≠ "" ∧ IsOneLine line) :
    trimLineFeeds (join "\n" lines) = join "\n" lines := by
  cases lines with
  | nil => rfl
  | cons first rest =>
    have hends : EndsLine (join "\n" (first :: rest)) := by
      refine .join _ (List.cons_ne_nil _ _) fun line hline =>
        ⟨(h line hline).1, fun hlast => ?_⟩
      exact ((h line hline).2 _ (List.mem_of_getLast? hlast)).1 rfl
    have hfirst : (join "\n" (first :: rest)).points.head? ≠ some (.char '\n') := by
      obtain ⟨hne, hline⟩ := h first List.mem_cons_self
      have hpoints : first.points ≠ [] := fun hnil => hne (Text.ext hnil)
      obtain ⟨tail, htail⟩ := join_cons_eq "\n" first rest
      rw [htail, points_append, List.head?_append_of_ne_nil _ hpoints]
      exact fun hhead => (hline _ (List.mem_of_head? hhead)).1 rfl
    rw [trimLineFeeds_of_first hfirst, dropEndLineFeeds_of_last hends.last]

end Text

/-! ## Command lines -/

namespace CommandLine

open Text (IsOneLine)

/-- The names of the files that the values of parameters lead to. -/
def fileNames (values : List (String × Json Text)) : List Text :=
  ((setParameters parameters values).filter (·.1.isPath)).map fun (_, value) =>
    lastName value.asText

theorem mem_of_mem_setParameters {ps : List Parameter} {values : List (String × Json Text)}
    {p : Parameter} {value : Json Text} (h : (p, value) ∈ setParameters ps values) : p ∈ ps := by
  obtain ⟨q, hmem, hq⟩ := List.mem_filterMap.mp h
  split at hq
  next =>
    split at hq
    next =>
      cases hq
      exact hmem
    next => cases hq
  next => cases hq

/-- The words of a parameter are on one line exactly if the name of its file is, if it has one. -/
theorem isOneLine_words {p : Parameter} (hp : p ∈ parameters) (value : Json Text) :
    (∀ word ∈ argumentWords p value ++ optionWords p value, IsOneLine word) ↔
      (p.isPath → IsOneLine (lastName value.asText)) := by
  have hargument (name : String) :
      (∀ word ∈ argumentWords ⟨name, true, .argument⟩ value ++
          optionWords ⟨name, true, .argument⟩ value, IsOneLine word) ↔
        IsOneLine (lastName value.asText) := by
    simp [argumentWords, optionWords, shown]
  have hswitch {name spelling : String} {spellings : List String} (hline : IsOneLine spelling) :
      ∀ word ∈
        argumentWords ⟨name, false, .option (spelling :: spellings) (some (.bool false)) true⟩
          value ++
        optionWords ⟨name, false, .option (spelling :: spellings) (some (.bool false)) true⟩ value,
        IsOneLine word := by
    simp only [argumentWords, optionWords, List.nil_append]
    split
    case isTrue => simp
    case isFalse => simpa using hline
  have hconfig : IsOneLine "--config" := by simp [Text.isOneLine_ofString]
  have himports : IsOneLine "--add-imports" := by simp [Text.isOneLine_ofString]
  have hverbose : IsOneLine "--verbose" := by simp [Text.isOneLine_ofString]
  -- Only the two arguments are paths; an option is shown by its spelling.
  simp only [parameters, List.mem_cons, List.not_mem_nil, or_false] at hp
  rcases hp with rfl | rfl | rfl | rfl | rfl
  · simp [argumentWords, optionWords, shown, hconfig]
  · exact iff_of_true (hswitch himports) (by simp)
  · exact iff_of_true (hswitch hverbose) (by simp)
  · exact (hargument _).trans (by simp)
  · exact (hargument _).trans (by simp)

/-- The command line that is shown is on one line exactly if the names of all files on it are. -/
theorem isOneLine_reconstruct (values : List (String × Json Text)) :
    IsOneLine (reconstruct parameters values) ↔ ∀ name ∈ fileNames values, IsOneLine name := by
  have hprogram : IsOneLine programName := by simp [Text.isOneLine_ofString, programName]
  have hblank : IsOneLine " " := by simp [Text.isOneLine_ofString]
  have hwords : IsOneLine (reconstruct parameters values) ↔
      ∀ given ∈ setParameters parameters values,
        ∀ word ∈ argumentWords given.1 given.2 ++ optionWords given.1 given.2, IsOneLine word := by
    rw [reconstruct, Text.isOneLine_join hblank]
    simp only [List.forall_mem_append, List.forall_mem_cons, List.forall_mem_flatMap]
    exact ⟨fun h given hgiven => ⟨h.2.1 given hgiven, h.2.2 given hgiven⟩,
      fun h => ⟨hprogram, fun given hgiven => (h given hgiven).1,
        fun given hgiven => (h given hgiven).2⟩⟩
  simp only [hwords, fileNames, List.forall_mem_map, List.mem_filter, and_imp]
  refine forall₂_congr fun given hgiven => ?_
  exact isOneLine_words (mem_of_mem_setParameters hgiven) given.2

end CommandLine

/-! ## Headers -/

namespace Module

open CommandLine (parameters reconstruct fileNames)
open Text (IsOneLine sourceLines)

theorem isOneLine_importLine (names : List Import) : IsOneLine (importLine names) := by
  have htext (i : Import) : IsOneLine i.text := by
    cases i <;> simp [Text.isOneLine_ofString, Import.text]
  have hfront : IsOneLine "from graphene import " := by simp [Text.isOneLine_ofString]
  have hcomma : IsOneLine ", " := by simp [Text.isOneLine_ofString]
  unfold importLine
  rw [Text.ofString_append, Text.ofString_joinWith, List.map_map, Text.isOneLine_append,
    Text.isOneLine_join hcomma, List.forall_mem_map]
  exact ⟨hfront, fun i _ => htext i⟩

/-- The comment is one line exactly if the command line is. -/
theorem isOneLine_commentLine (commandLine : Text) :
    IsOneLine (commentLine commandLine) ↔ IsOneLine commandLine := by
  have hfront :
      IsOneLine ("# Generated by " ++ programName ++ " v" ++ programVersion ++ " : ") := by
    simp [IsOneLine, programName, programVersion]
  unfold commentLine
  rw [Text.isOneLine_append]
  exact and_iff_right hfront

/-- The lines that a header is meant to have: a comment with the whole command line if one is asked
    for, and an import if there is a name to import. -/
def plannedLines (comment : Bool) (commandLine : Text) (names : List Import) : List Text :=
  (if comment then [commentLine commandLine] else [])
    ++ (if names.isEmpty then [] else [Text.ofString (importLine names)])

/-- A header has the lines it is meant to have, and no others, if and only if it shows no command
    line or the names of all files on the command line are on one line. Then no part of the command
    line is outside the comment. -/
theorem header_lines (comment : Bool) (values : List (String × Json Text)) (imports : List Import) :
    sourceLines (header comment (reconstruct parameters values) (Import.sorted imports)) =
        plannedLines comment (reconstruct parameters values) (Import.sorted imports) ↔
      (comment → ∀ name ∈ fileNames values, IsOneLine name) := by
  -- Only the command line matters from here on, not the values it was put together from.
  rw [← CommandLine.isOneLine_reconstruct]
  generalize reconstruct parameters values = commandLine
  generalize Import.sorted imports = names
  constructor
  · rintro hlines rfl
    have hmem : commentLine commandLine ∈ plannedLines true commandLine names := List.mem_cons_self
    rw [← hlines] at hmem
    exact (isOneLine_commentLine commandLine).mp (Text.isOneLine_of_mem_sourceLines hmem)
  -- A planned line is neither empty nor broken, so trimming and splitting give the lines back.
  · intro hline
    have hplanned : ∀ line ∈ plannedLines comment commandLine names,
        line ≠ "" ∧ IsOneLine line := by
      have hcomment : commentLine commandLine ≠ "" := fun hempty => by
        simpa [hempty] using head?_commentLine commandLine
      have himport : Text.ofString (importLine names) ≠ "" := fun hempty => by
        simpa [Text.ofString_inj.mp hempty] using head?_importLine names
      intro line hmem
      rcases List.mem_append.mp hmem with hmem | hmem
      · split at hmem
        case isTrue hshown =>
          obtain rfl := List.mem_singleton.mp hmem
          exact ⟨hcomment, (isOneLine_commentLine commandLine).mpr (hline hshown)⟩
        case isFalse => cases hmem
      · split at hmem
        case isTrue => cases hmem
        case isFalse =>
          obtain rfl := List.mem_singleton.mp hmem
          exact ⟨himport, isOneLine_importLine names⟩
    have hheader : header comment commandLine names =
        Text.join "\n" (plannedLines comment commandLine names) :=
      Text.trimLineFeeds_join hplanned
    rw [hheader, Text.sourceLines_join hplanned]

/-- What follows a line feed in the name of a file is a line of its own, outside the comment. -/
theorem header_brokenComment :
    sourceLines (header true (reconstruct parameters [("path", .string "a\nimport os")]) []) =
      ["# Generated by graphql_schema_to_code v1.0.0 : graphql_schema_to_code a", "import os"] := by
  rfl

end Module

end SchemaClasses
