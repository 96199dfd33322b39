import SchemaClasses.Generation
import SchemaClasses.Proofs.ClassNames
import SchemaClasses.Proofs.Runs
import SchemaClasses.Proofs.Settings
import SchemaClasses.Proofs.WellNamed

/-!
# Assembly

How fragments become a module. Each fragment is empty or a block with two line feeds after it, and
the blocks stand in order with an empty line between neighbours. A header only goes before them: it
lists each imported name once, in alphabetical order.
-/

namespace SchemaClasses

/-! ## Ends of texts -/

namespace Text

/-- The text is not empty, and does not end with a line feed. -/
structure EndsLine (text : Text) : Prop where
  nonempty : text ≠ ""
  last : text.points.getLast? ≠ some (.char '\n')

/-- The text is not empty, and neither starts nor ends with a line feed. -/
structure IsBlock (text : Text) : Prop where
  nonempty : text ≠ ""
  first : text.points.head? ≠ some (.char '\n')
  last : text.points.getLast? ≠ some (.char '\n')

theorem EndsLine.append (front : Text) {back : Text} (h : EndsLine back) :
    EndsLine (front ++ back) := by
  have hback : back.points ≠ [] := fun hnil => h.nonempty (Text.ext hnil)
  constructor
  · simp [h.nonempty]
  · rw [points_append, List.getLast?_append, List.getLast?_eq_some_getLast hback,
      Option.some_or, ← List.getLast?_eq_some_getLast hback]
    exact h.last

theorem EndsLine.join (separator : String) {texts : List Text} (hne : texts ≠ [])
    (h : ∀ text ∈ texts, EndsLine text) : EndsLine (Text.join separator texts) := by
  fun_induction Text.join separator texts with
  | case1 => exact absurd rfl hne
  | case2 text => exact h text List.mem_cons_self
  | case3 text rest hrest ih =>
    rw [List.forall_mem_cons] at h
    exact (ih (by simpa using hrest) h.2).append _

/-- Joined texts start with the first of them. -/
theorem join_cons_eq (separator : String) (first : Text) (rest : List Text) :
    ∃ tail, Text.join separator (first :: rest) = first ++ tail := by
  cases rest with
  | nil => exact ⟨"", by simp [Text.ext_iff]⟩
  | cons second rest =>
    exact ⟨separator ++ Text.join separator (second :: rest), by simp [Text.append_assoc]⟩

theorem dropEndLineFeeds_of_last {text : Text} (h : text.points.getLast? ≠ some (.char '\n')) :
    dropEndLineFeeds text = text := by
  ext1
  cases hreverse : text.points.reverse with
  | nil =>
    obtain hnil : text.points = [] := by simpa using hreverse
    rw [dropEndLineFeeds, hnil]
    rfl
  | cons p rest =>
    have hp : p ≠ .char '\n' := by
      rintro rfl
      rw [← List.head?_reverse, hreverse] at h
      exact h rfl
    rw [dropEndLineFeeds, hreverse, List.dropWhile_cons_of_neg (by simpa using hp), ← hreverse,
      List.reverse_reverse]

/-- Line feeds at the end make no difference to what is left without them. -/
theorem dropEndLineFeeds_append (text : Text) (count : Nat) :
    dropEndLineFeeds (text ++ ⟨List.replicate count (.char '\n')⟩) = dropEndLineFeeds text := by
  ext1
  simp only [dropEndLineFeeds, points_append, List.reverse_append, List.reverse_replicate]
  induction count with
  | zero => rfl
  | succ count ih => rw [List.replicate_succ, List.cons_append, List.dropWhile_cons_of_pos rfl, ih]

theorem dropEndLineFeeds_ne_empty {text : Text} {p : CodePoint} (hmem : p ∈ text.points)
    (hp : p ≠ .char '\n') : dropEndLineFeeds text ≠ "" := by
  intro hnil
  rw [dropEndLineFeeds, Text.ext_iff, points_ofString, String.toList_empty, List.map_nil,
    List.reverse_eq_nil_iff, List.dropWhile_eq_nil_iff] at hnil
  exact hp (by simpa using hnil p (List.mem_reverse.mpr hmem))

theorem trimLineFeeds_of_first {text : Text} (h : text.points.head? ≠ some (.char '\n')) :
    trimLineFeeds text = dropEndLineFeeds text := by
  obtain ⟨points⟩ := text
  unfold trimLineFeeds
  cases points with
  | nil => rfl
  | cons p rest => rw [List.dropWhile_cons_of_neg (by simpa using h)]

end Text

open Text (EndsLine IsBlock)

/-! ## Fragments -/

/-- The fragment is empty and needs nothing, or it is a block that needs some name. -/
def Fragment.IsAssembled (fragment : Fragment) : Prop :=
  (fragment.text = "" ∧ fragment.imports = []) ∨
  ((∃ block, fragment.text = block ++ Fragment.blockEnd ∧ IsBlock block) ∧ fragment.imports ≠ [])

namespace Fragment

theorem endsLine_indent {line : Text} (h : EndsLine line) : EndsLine (indent line) :=
  h.append _

theorem endsLine_docstring (text : String) : EndsLine (Text.docstring text) := by
  have hquotes : EndsLine "\"\"\"" := ⟨by simp, by simp⟩
  have hsplit : Text.docstring text =
      String.ofList (['"', '"', '"'] ++ Text.escapeLastQuote (Text.escapeDoc text.toList)) ++
        "\"\"\"" := by
    apply String.toList_inj.mp
    simp [Text.docstring, Text.docstringChars]
  rw [hsplit, Text.ofString_append]
  exact hquotes.append _

theorem endsLine_call (call : Call) : EndsLine call.render := by
  change EndsLine (call.callee ++ "(" ++ _ ++ ")")
  exact EndsLine.append _ ⟨by simp, by simp⟩

theorem endsLine_render (a : Assignment) : EndsLine a.render :=
  (endsLine_call a.call).append _

theorem endsLine_unionBody (members : List String) :
    ∀ line ∈ unionBody members, EndsLine line := by
  have hmeta : EndsLine "class Meta:" := ⟨by simp, by simp⟩
  have htypes (front : String) : EndsLine (indent (Text.ofString (front ++ ")"))) := by
    rw [Text.ofString_append]
    exact endsLine_indent (EndsLine.append front ⟨by simp, by simp⟩)
  unfold unionBody
  split
  · simp
  · next member =>
    refine List.forall_mem_cons.mpr ⟨hmeta, List.forall_mem_singleton.mpr ?_⟩
    rw [Text.ofString_append]
    exact endsLine_indent (EndsLine.append _ ⟨by simp, by simp⟩)
  · exact List.forall_mem_cons.mpr ⟨hmeta, List.forall_mem_singleton.mpr (htypes _)⟩

/-- All lines of a class end within the line if those of its body do. -/
theorem endsLine_classLines (name : String) (base : Import) (description : String)
    {body : List Text} (h : ∀ line ∈ body, EndsLine line) :
    ∀ line ∈ classLines name base description body, EndsLine line := by
  let docs : List Text := if description.isEmpty then [] else [Text.docstring description]
  have hinner : ∀ line ∈ docs ++ body, EndsLine line := by
    refine List.forall_mem_append.mpr ⟨?_, h⟩
    unfold docs
    split
    case isTrue => simp
    case isFalse => exact List.forall_mem_singleton.mpr (endsLine_docstring description)
  have hhead : EndsLine ("class " ++ name ++ "(" ++ base.text ++ "):" : String) := by
    rw [Text.ofString_append]
    exact EndsLine.append _ ⟨by simp, by simp⟩
  refine List.forall_mem_cons.mpr ⟨hhead, ?_⟩
  change ∀ line ∈
    (if (docs ++ body).isEmpty then [("pass" : Text)] else docs ++ body).map indent, _
  rw [List.forall_mem_map]
  intro line hmem
  apply endsLine_indent
  split at hmem
  case isTrue =>
    obtain rfl := List.mem_singleton.mp hmem
    exact ⟨by simp, by simp⟩
  case isFalse => exact hinner line hmem

/-- A class starts with its head and ends with its last line. -/
theorem isBlock_classBlock (name : String) (base : Import) (description : String)
    {body : List Text} (h : ∀ line ∈ body, EndsLine line) :
    ∃ block, classBlock name base description body = block ++ blockEnd ∧ IsBlock block := by
  have hends := EndsLine.join "\n" (List.cons_ne_nil _ _)
    (endsLine_classLines name base description h)
  refine ⟨_, rfl, hends.nonempty, ?_, hends.last⟩
  obtain ⟨tail, htail⟩ := Text.join_cons_eq "\n"
    ("class " ++ name ++ "(" ++ base.text ++ "):" : String)
    (classLines name base description body).tail
  unfold classLines at htail ⊢
  dsimp only [List.tail_cons] at htail ⊢
  rw [htail]
  simp

/-- An enumeration starts with its name, which is an identifier. -/
theorem isBlock_enumBlock {name : String} (hname : Text.isIdentifier name) (description : String)
    (values : List String) :
    ∃ block, enumBlock name description values = block ++ blockEnd ∧ IsBlock block := by
  have hends := (endsLine_call (enumCall name description values)).append (name ++ " = ")
  refine ⟨_, rfl, hends.nonempty, ?_, hends.last⟩
  -- The first character of an identifier is a letter or an underscore.
  cases hchars : name.toList with
  | nil => simp [Text.isIdentifier, Text.isIdentifierChars, hchars] at hname
  | cons c rest =>
    have hstart : Token.isNameStart c := by
      rw [Text.isIdentifier, hchars, Text.isIdentifierChars_cons] at hname
      exact hname.1
    have hc : c ≠ '\n' := by
      rintro rfl
      exact absurd hstart (by decide)
    simp [hchars, hc]

end Fragment

/-- A type that is not left out becomes a block, and the block needs the class that it is made from.
    -/
theorem EmittedBody.isAssembled {name : String} (hname : Text.isIdentifier name)
    (description : String) (body : EmittedBody) : (body.fragment name description).IsAssembled := by
  cases body with
  | fields base inherits assignments =>
    refine .inr ⟨Fragment.isBlock_classBlock _ _ _ ?_, by simp [fragment, Fragment.ofFields]⟩
    rw [List.forall_mem_map]
    exact fun a _ => Fragment.endsLine_render a
  | union members =>
    exact .inr ⟨Fragment.isBlock_classBlock _ _ _ (Fragment.endsLine_unionBody members),
      List.cons_ne_nil _ _⟩
  | enum values => exact .inr ⟨Fragment.isBlock_enumBlock hname _ _, List.cons_ne_nil _ _⟩
  | scalar =>
    refine .inr ⟨Fragment.isBlock_classBlock _ _ _ ?_, List.cons_ne_nil _ _⟩
    exact List.forall_mem_singleton.mpr ⟨by simp, by simp⟩

/-- Every definition becomes one block that needs some name, or nothing at all. -/
theorem Definition.isAssembled {config : Config} {definition : Definition} {fragment : Fragment}
    (hnames : definition.wellNamed) (h : definition.emit config = .ok fragment) :
    fragment.IsAssembled := by
  cases becomes_of_emit h with
  | schema | directive | ignored => exact .inl ⟨rfl, rfl⟩
  | @kept d emitted _ _ => exact emitted.isAssembled (Bool.and_eq_true_iff.mp hnames).1 _

/-- Fragments that are not empty are blocks, in order; without blocks no names are needed. -/
theorem Fragment.exists_blocks {fragments : List Fragment}
    (h : ∀ fragment ∈ fragments, fragment.IsAssembled) :
    ∃ blocks : List Text,
      (fragments.map Fragment.text).filter (!·.isEmpty) = blocks.map (· ++ blockEnd) ∧
      (∀ block ∈ blocks, IsBlock block) ∧
      (blocks = [] ↔ fragments.flatMap Fragment.imports = []) := by
  induction fragments with
  | nil => exact ⟨[], rfl, by simp, by simp⟩
  | cons fragment rest ih =>
    rw [List.forall_mem_cons] at h
    obtain ⟨hfragment, hrest⟩ := h
    obtain ⟨blocks, htexts, hblocks, hnone⟩ := ih hrest
    rw [List.map_cons, List.flatMap_cons]
    -- An empty fragment is dropped and imports nothing; any other is a block and imports its base.
    rcases hfragment with ⟨htext, himports⟩ | ⟨⟨block, htext, hblock⟩, himports⟩
    · rw [htext, himports, List.filter_cons_of_neg (by simp)]
      exact ⟨blocks, htexts, hblocks, hnone⟩
    · have hkept : (block ++ blockEnd).isEmpty = false := by simp [blockEnd]
      rw [htext, List.filter_cons_of_pos (by simp [hkept]), htexts]
      refine ⟨block :: blocks, rfl, List.forall_mem_cons.mpr ⟨hblock, hblocks⟩, ?_⟩
      simp [himports]

/-! ## Modules -/

/-- The sorted names are in alphabetical order, so none is there twice. -/
theorem Import.sorted_pairwise (names : List Import) :
    (sorted names).Pairwise fun first second => first.text < second.text := by
  have hall : all.Pairwise fun first second => first.text < second.text := by decide
  exact hall.filter _

namespace Module

/-- Blocks in a row are blocks with an empty line between neighbours, and one end. -/
theorem flatten_blocks {blocks : List Text} (hne : blocks ≠ []) :
    Text.flatten (blocks.map (· ++ Fragment.blockEnd)) =
      Text.join "\n\n" blocks ++ Fragment.blockEnd := by
  fun_induction Text.join "\n\n" blocks with
  | case1 => exact absurd rfl hne
  | case2 block => simp [Text.ext_iff]
  | case3 block rest hrest ih =>
    rw [List.map_cons, Text.flatten_cons, ih (by simpa using hrest)]
    simp only [Text.append_assoc, Fragment.blockEnd]

/-- The body is the blocks with an empty line between neighbours, whatever line feeds they hold. -/
theorem body_blocks {blocks : List Text} (h : ∀ block ∈ blocks, IsBlock block) :
    body (blocks.map (· ++ Fragment.blockEnd)) =
      (if blocks = [] then "" else Text.join "\n\n" blocks ++ "\n" : Text) := by
  split
  case isTrue hnil =>
    subst hnil
    rfl
  case isFalse hne =>
    have hjoined : EndsLine (Text.join "\n\n" blocks) :=
      .join _ hne fun block hmem => ⟨(h block hmem).nonempty, (h block hmem).last⟩
    -- Only the two line feeds after the last block are dropped.
    have hdrop : Text.dropEndLineFeeds (Text.flatten (blocks.map (· ++ Fragment.blockEnd))) =
        Text.join "\n\n" blocks := by
      rw [flatten_blocks hne]
      exact (Text.dropEndLineFeeds_append _ 2).trans (Text.dropEndLineFeeds_of_last hjoined.last)
    simp only [body, hdrop]
    rw [if_neg (by simpa using hjoined.nonempty)]

/-- The lines of a header: the comment if one is asked for, then the imports. -/
def headerLines (config : Config) (commandLine : Text) (names : List Import) : List Text :=
  (if config.addGenerationComment.isTruthy then [commentLine commandLine] else [])
    ++ [Text.ofString (importLine names)]

theorem endsLine_importLine {names : List Import} (hne : names ≠ []) :
    EndsLine (importLine names) := by
  have hnames (i : Import) : EndsLine i.text := by
    cases i <;> exact ⟨by simp [Import.text], by simp [Import.text]⟩
  have hjoined := EndsLine.join ", " (mt List.map_eq_nil_iff.mp hne)
    (List.forall_mem_map.mpr fun i (_ : i ∈ names) => hnames i)
  unfold importLine
  rw [Text.ofString_append, Text.ofString_joinWith, List.map_map]
  exact hjoined.append _

theorem head?_commentLine (commandLine : Text) :
    (commentLine commandLine).points.head? = some (.char '#') := by
  unfold commentLine
  simp

theorem head?_importLine (names : List Import) : (importLine names).toList.head? = some 'f' := by
  unfold importLine
  simp

/-- A header with imports ends within its last line, so the body can follow it after an empty line.
    -/
theorem endsLine_headerLines (config : Config) (commandLine : Text) {names : List Import}
    (hne : names ≠ []) : EndsLine (Text.join "\n" (headerLines config commandLine names)) := by
  have himports := endsLine_importLine hne
  unfold headerLines
  split
  case isTrue => exact himports.append (commentLine commandLine ++ "\n")
  case isFalse => exact himports

/-- A header with imports is its lines; there is nothing around them to trim. -/
theorem header_of_names (config : Config) (commandLine : Text) {names : List Import}
    (hne : names ≠ []) :
    header config.addGenerationComment.isTruthy commandLine names =
      Text.join "\n" (headerLines config commandLine names) := by
  have hends := endsLine_headerLines config commandLine hne
  have hfirst : (Text.join "\n" (headerLines config commandLine names)).points.head? ≠
      some (.char '\n') := by
    unfold headerLines
    split
    case isTrue =>
      rw [List.singleton_append, Text.join_cons_cons, Text.append_assoc, Text.points_append,
        List.head?_append, head?_commentLine]
      simp
    case isFalse =>
      rw [List.nil_append, Text.join_singleton, Text.points_ofString, List.head?_map,
        head?_importLine]
      simp
  have hlines : (if names.isEmpty then [] else [↑(importLine names)] : List Text) =
      [↑(importLine names)] := if_neg (by simpa using hne)
  simp only [header, hlines]
  rw [← headerLines, Text.trimLineFeeds_of_first hfirst, Text.dropEndLineFeeds_of_last hends.last]

/-- A header without imports is the comment, if one is asked for, up to the line feeds at the end of
    the command line. -/
theorem header_nil (comment : Bool) (commandLine : Text) :
    header comment commandLine [] =
      if comment then Text.dropEndLineFeeds (commentLine commandLine) else "" := by
  cases comment with
  | false => rfl
  | true =>
    have hfirst : (commentLine commandLine).points.head? ≠ some (.char '\n') := by
      rw [head?_commentLine]
      simp
    rw [if_pos rfl, ← Text.trimLineFeeds_of_first hfirst]
    rfl

/-- Without imports a module is its body. -/
theorem render_body {config : Config} (hoff : config.addImports.isTruthy = false)
    (commandLine : Text) {blocks : List Text} (h : ∀ block ∈ blocks, IsBlock block)
    (imports : List Import) :
    render config commandLine (blocks.map (· ++ Fragment.blockEnd)) imports =
      (if blocks = [] then "" else Text.join "\n\n" blocks ++ "\n" : Text) := by
  simp only [render, hoff, body_blocks h, Bool.false_eq_true, if_false]

/-- With imports a module without blocks is at most a comment. -/
theorem render_nil {config : Config} (hon : config.addImports.isTruthy) (commandLine : Text) :
    render config commandLine [] [] =
      if config.addGenerationComment.isTruthy then
        Text.dropEndLineFeeds (commentLine commandLine) ++ "\n"
      else "" := by
  have hbody : body [] = "" := rfl
  have hsorted : Import.sorted [] = [] := rfl
  simp only [render, hon, if_true, hbody, hsorted, header_nil]
  split
  case isFalse => rfl
  case isTrue =>
    have hcomment : Text.dropEndLineFeeds (commentLine commandLine) ≠ "" :=
      Text.dropEndLineFeeds_ne_empty (List.mem_of_head? (head?_commentLine commandLine)) (by simp)
    rw [assemble, if_neg (by simpa using hcomment), if_pos (by simp)]

/-- With imports a module with blocks has a header and an empty line before its body. -/
theorem render_blocks {config : Config} (hon : config.addImports.isTruthy) (commandLine : Text)
    {blocks : List Text} (hne : blocks ≠ []) (h : ∀ block ∈ blocks, IsBlock block)
    {imports : List Import} (himports : imports ≠ []) :
    render config commandLine (blocks.map (· ++ Fragment.blockEnd)) imports =
      Text.join "\n" (headerLines config commandLine (Import.sorted imports)) ++ "\n\n"
        ++ (Text.join "\n\n" blocks ++ "\n") := by
  have hnames : Import.sorted imports ≠ [] := by
    obtain ⟨i, hi⟩ := List.exists_mem_of_ne_nil imports himports
    exact List.ne_nil_of_mem (Import.mem_sorted.mpr hi)
  have hheader := (endsLine_headerLines config commandLine hnames).nonempty
  simp only [render, hon, if_true, body_blocks h, if_neg hne, header_of_names _ _ hnames]
  rw [assemble, if_neg (by simpa using hheader), if_neg (by simp)]

end Module

namespace Document

variable {config : Config} {document : Document} {before : Diagnostics} {texts : List Text}
  {after : Record}

/-- A document that succeeds becomes a module of its texts, whether imports are asked for or not. -/
theorem generate_eq (commandLine : Text) (imports : Json Text)
    (h : Document.emit config { warnings := before } document = (.ok texts, after)) :
    Document.generate { config with addImports := imports } commandLine before document =
      (.ok ⟨Module.render { config with addImports := imports } commandLine
          (texts.filter (!·.isEmpty)) after.imports,
        texts.length, (texts.filter (!·.isEmpty)).length⟩, after.warnings) := by
  have hemit : Document.emit { config with addImports := imports } { warnings := before } document =
      (.ok texts, after) := by
    rw [← h]
    apply emit_congr <;> rfl
  simp only [generate, hemit]
  rfl

/-- The texts of a document are blocks, but for those that are empty; it needs names if and only if
    it has blocks. -/
theorem exists_blocks (hnames : document.wellNamed)
    (h : Document.emit config { warnings := before } document = (.ok texts, after)) :
    ∃ blocks : List Text, texts.filter (!·.isEmpty) = blocks.map (· ++ Fragment.blockEnd) ∧
      (∀ block ∈ blocks, IsBlock block) ∧ (blocks = [] ↔ after.imports = []) := by
  obtain ⟨fragments, hall, rfl, rfl⟩ := emit_eq_ok h
  apply Fragment.exists_blocks
  refine Success.forall_of_forall₂ hall fun definition hmem fragment hemit => ?_
  exact definition.isAssembled (List.all_eq_true.mp hnames definition hmem) hemit

/-- A module is the blocks of its document in order, with an empty line between neighbours and a
    line feed at the end. With imports it has the same body and warnings, after a header that lists
    each name that the document needs once and in order. A document has only identifiers for names
    if it is read from a text (`wellNamed_of_parse`), and so has its canonical form
    (`wellNamed_of_ofText`). -/
theorem generate_assembly (hnames : document.wellNamed) (commandLine : Text)
    (h : Document.emit config { warnings := before } document = (.ok texts, after)) :
    ∃ (blocks : List Text) (names : List Import),
      texts.filter (!·.isEmpty) = blocks.map (fun block : Text => block ++ "\n\n") ∧
      (∀ block ∈ blocks, IsBlock block) ∧
      names.Pairwise (fun first second => first.text < second.text) ∧
      (∀ i, i ∈ names ↔ i ∈ after.imports) ∧
      let body : Text := if blocks = [] then "" else Text.join "\n\n" blocks ++ "\n"
      (body = "" ↔ ∀ text ∈ texts, text = "") ∧
      (∀ off : Json Text, off.isTruthy = false →
        Document.generate { config with addImports := off } commandLine before document =
          (.ok ⟨body, texts.length, blocks.length⟩, after.warnings)) ∧
      ∀ on : Json Text, on.isTruthy →
        Document.generate { config with addImports := on } commandLine before document =
          (.ok ⟨
            if blocks = [] then
              if config.addGenerationComment.isTruthy then
                Text.dropEndLineFeeds (Module.commentLine commandLine) ++ "\n"
              else ""
            else
              Text.join "\n" (Module.headerLines config commandLine names) ++ "\n\n" ++ body,
            texts.length, blocks.length⟩, after.warnings) := by
  obtain ⟨blocks, htexts, hblocks, hnone⟩ := exists_blocks hnames h
  have hlength : (texts.filter (!·.isEmpty)).length = blocks.length := by
    rw [htexts, List.length_map]
  refine ⟨blocks, Import.sorted after.imports, htexts, hblocks, Import.sorted_pairwise _,
    fun i => Import.mem_sorted, ?_, fun off hoff => ?_, fun on hon => ?_⟩
  · have hempty : blocks = [] ↔ ∀ text ∈ texts, text = "" := by
      rw [← List.map_eq_nil_iff, ← htexts, List.filter_eq_nil_iff]
      simp
    rw [← hempty]
    split
    case isTrue hnil => exact iff_of_true rfl hnil
    case isFalse hne => exact iff_of_false (by simp) hne
  · rw [generate_eq commandLine off h, hlength, htexts, Module.render_body hoff _ hblocks]
  · rw [generate_eq commandLine on h, hlength, htexts]
    split
    case isTrue hnil =>
      rw [hnone.mp hnil, hnil, List.map_nil, Module.render_nil hon]
    case isFalse hne =>
      rw [Module.render_blocks hon commandLine hne hblocks (mt hnone.mpr hne)]
      rfl

/-- A document with line feeds around a description, and a definition that has no block. -/
def spacedDocument : Document :=
  [.type ⟨some "\n\nDates\n\n", "Date", [], .scalar⟩,
    .directive ⟨none, "auth", [], false, ["OBJECT"]⟩,
    .type ⟨none, "Color", [], .enum [⟨none, "RED", []⟩]⟩]

/-- Two blocks and what they need, from a document whose line feeds must not show between them. -/
theorem generate_assembly_spacedDocument :
    ∃ (blocks : List Text) (names : List Import),
      (∀ block ∈ blocks, IsBlock block) ∧ (∀ i, i ∈ names ↔ i = .scalar ∨ i = .enum) ∧
      Document.generate { addImports := .bool true } "generate" [] spacedDocument =
        (.ok ⟨
          if blocks = [] then
            Text.dropEndLineFeeds (Module.commentLine "generate") ++ "\n"
          else Text.join "\n" (Module.headerLines {} "generate" names) ++ "\n\n"
            ++ (if blocks = [] then "" else Text.join "\n\n" blocks ++ "\n" : Text),
          3, blocks.length⟩, [Fragment.directiveWarning "auth"]) := by
  have hok : Document.emit {} {} spacedDocument =
      (.ok ["class Date(Scalar):\n    \"\"\"\n\nDates\n\n\"\"\"\n    serialize = lambda x: str(x)\n\n",
        "", "Color = Enum(\"Color\", [\"RED\"])\n\n"],
        ⟨[Fragment.directiveWarning "auth"], [.scalar, .enum]⟩) := rfl
  obtain ⟨blocks, names, -, hblocks, -, hmem, -, -, hon⟩ :=
    generate_assembly (by decide) "generate" hok
  exact ⟨blocks, names, hblocks, by simpa using hmem, hon (.bool true) rfl⟩

end Document

end SchemaClasses
