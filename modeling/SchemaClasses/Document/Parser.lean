import SchemaClasses.Document.Basic
import SchemaClasses.Document.Lexer
import SchemaClasses.Document.Excerpt
import SchemaClasses.Schema.BuiltIn

/-!
# Reading documents

The grammar of schema documents, of single literals and of single type references, as functions on
token lists. Nested constructs spend a budget, so no text can nest without bound.
-/

namespace SchemaClasses

/-! ## Faults -/

/-- What the grammar asks for at a place. -/
inductive Expected
  | punctuator (p : Punctuator)
  | name
  | keyword (word : String)
  | endOfText
deriving DecidableEq, Repr

/-- What messages call the thing asked for. -/
def Expected.describe : Expected → String
  | .punctuator p => s!"'{p.text}'"
  | .name => "Name"
  | .keyword word => s!"'{word}'"
  | .endOfText => "<EOF>"

/-- Why a text is no document. -/
inductive SyntaxFault
  | lexical (fault : LexicalFault)
  | expected (what : Expected) (found : TokenKind)
  | unexpected (found : TokenKind)
  | variableInConstant (name : String)
  | reservedEnumValue (found : TokenKind)
  | describedShorthand
  | misplacedDescription
  | tooDeep
deriving DecidableEq, Repr

def SyntaxFault.message (fault : SyntaxFault) : String :=
  "Syntax Error: " ++ match fault with
    | .lexical fault => fault.message
    | .expected what found => s!"Expected {what.describe}, found {found.describe}."
    | .unexpected found => s!"Unexpected {found.describe}."
    | .variableInConstant name => s!"Unexpected variable '${name}' in constant value."
    | .reservedEnumValue found =>
      s!"{found.describe} is reserved and cannot be used for an enum value."
    | .describedShorthand =>
      "Unexpected description, descriptions are not supported on shorthand queries."
    | .misplacedDescription =>
      "Unexpected description, only GraphQL definitions support descriptions."
    | .tooDeep => "Document is nested too deeply. Parsing aborted."

/-- A fault and the number of characters before its place. -/
structure SyntaxError where
  fault : SyntaxFault
  offset : Nat
deriving DecidableEq, Repr

/-- Reads from the front of a token list. -/
abbrev Parser := StateT (List Token) (Except SyntaxError)

namespace Parser

/-! ## Tokens at the front -/

/-- How deep lists, objects, list types and selection sets may nest. -/
def maxDepth : Nat := 200

/-- Fails at a token. -/
def failAt {α : Type} (token : Token) (fault : SyntaxFault) : Parser α :=
  throw ⟨fault, token.offset⟩

/-- The tokens, unless the first of them is where no token can be read. -/
def readable : List Token → Except SyntaxError (List Token)
  | ⟨.fault fault, offset⟩ :: _ => .error ⟨.lexical fault, offset⟩
  | tokens => .ok tokens

def current : Parser Token := do
  return (← get).headD ⟨.endOfText, 0⟩

/-- Moves past the token at the front; the end of the text stays. -/
def advance : Parser Unit := do
  match ← get with
  | _ :: next :: rest => set (← readable (next :: rest))
  | _ => pure ()

def lookahead : Parser Token := do
  match ← get with
  | _ :: next :: rest => return (← readable (next :: rest)).headD next
  | _ => current

/-- Fails at the token at the front. -/
def unexpected {α : Type} : Parser α := do
  let token ← current
  failAt token (.unexpected token.kind)

/-- Whether the token at the front is this punctuator. -/
def peek (p : Punctuator) : Parser Bool := do
  return (← current).kind = .punctuator p

def peekName : Parser Bool := do
  match (← current).kind with
  | .name _ => return true
  | _ => return false

/-- Moves past this punctuator if it is at the front. -/
def accept (p : Punctuator) : Parser Bool := do
  if ← peek p then
    advance
    return true
  else return false

/-- Moves past this punctuator, which must be at the front. -/
def expect (p : Punctuator) : Parser Unit := do
  let token ← current
  if token.kind = .punctuator p then advance
  else failAt token (.expected (.punctuator p) token.kind)

/-- Moves past this word if it is at the front. -/
def acceptKeyword (word : String) : Parser Bool := do
  if (← current).kind = .name word then
    advance
    return true
  else return false

/-- Moves past this word, which must be at the front. -/
def expectKeyword (word : String) : Parser Unit := do
  let token ← current
  if token.kind = .name word then advance
  else failAt token (.expected (.keyword word) token.kind)

/-- The end of the text, which must be at the front. -/
def expectEnd : Parser Unit := do
  let token ← current
  if token.kind = .endOfText then return ()
  else failAt token (.expected .endOfText token.kind)

def name : Parser String := do
  let token ← current
  match token.kind with
  | .name text =>
    advance
    return text
  | _ => failAt token (.expected .name token.kind)

/-! ## Repetition -/

/-- Items up to a punctuator, which is passed. Every item takes a token, so the number of tokens
    is fuel enough. -/
def itemsUntil {α : Type} (close : Punctuator) (item : Parser α) : (fuel : Nat) → Parser (List α)
  | 0 => unexpected
  | fuel + 1 => do
    if ← accept close then return []
    else
      let first ← item
      return first :: (← itemsUntil close item fuel)

/-- Any number of items between two punctuators. -/
def anyBetween {α : Type} (opening close : Punctuator) (item : Parser α) : Parser (List α) := do
  expect opening
  itemsUntil close item ((← get).length + 1)

/-- One item or more between two punctuators. -/
def manyBetween {α : Type} (opening close : Punctuator) (item : Parser α) : Parser (List α) := do
  expect opening
  let first ← item
  return first :: (← itemsUntil close item ((← get).length + 1))

/-- One item or more between two punctuators, or nothing. -/
def optionalBetween {α : Type} (opening close : Punctuator) (item : Parser α) :
    Parser (List α) := do
  if ← peek opening then manyBetween opening close item else return []

/-- An item and those that each follow a separator. -/
def itemsSeparated {α : Type} (separator : Punctuator) (item : Parser α) :
    (fuel : Nat) → Parser (List α)
  | 0 => unexpected
  | fuel + 1 => do
    let first ← item
    if ← accept separator then return first :: (← itemsSeparated separator item fuel)
    else return [first]

/-- One item or more with a separator between neighbours and perhaps before the first. -/
def manySeparated {α : Type} (separator : Punctuator) (item : Parser α) : Parser (List α) := do
  let _ ← accept separator
  itemsSeparated separator item ((← get).length + 1)

/-! ## Literals -/

/-- A literal that starts with a name. -/
def namedValue : String → Value
  | "true" => .boolean true
  | "false" => .boolean false
  | "null" => .null
  | other => .enum other

/-- A variable; constants hold none. -/
def variableValue (constant : Bool) : Parser Value := do
  let dollar ← current
  expect .dollar
  if constant then
    match (← current).kind with
    | .name text => failAt dollar (.variableInConstant text)
    | _ => failAt dollar (.unexpected dollar.kind)
  else
    return .variable (← name)

/-- A literal that holds no others. -/
def plainValue (constant : Bool) : Parser Value := do
  let token ← current
  match token.kind with
  | .int n => do advance; return .int n
  | .float n => do advance; return .float n
  | .string content => do advance; return .string content false
  | .blockString content => do advance; return .string content true
  | .name text => do advance; return namedValue text
  | .punctuator .dollar => variableValue constant
  | _ => failAt token (.unexpected token.kind)

/-- A literal with at most `depth` levels of lists and objects. -/
def value (constant : Bool) : (depth : Nat) → Parser Value
  | 0 => do
    let token ← current
    match token.kind with
    | .punctuator .bracketLeft => failAt token .tooDeep
    | .punctuator .braceLeft => failAt token .tooDeep
    | _ => plainValue constant
  | depth + 1 => do
    let token ← current
    match token.kind with
    | .punctuator .bracketLeft =>
      return .list (← anyBetween .bracketLeft .bracketRight (value constant depth))
    | .punctuator .braceLeft =>
      let field : Parser (String × Value) := do
        let key ← name
        expect .colon
        return (key, ← value constant depth)
      return .object (← anyBetween .braceLeft .braceRight field)
    | _ => plainValue constant

/-! ## Type references -/

/-- A type with at most `depth` levels of lists. One list too many is only noticed at the token
    after its bracket. -/
def typeRef : (depth : Nat) → Parser TypeRef
  | 0 => do
    if ← accept .bracketLeft then failAt (← current) .tooDeep
    else
      let base := TypeRef.named (← name)
      if ← accept .bang then return .nonNull base else return base
  | depth + 1 => do
    let base ←
      if ← accept .bracketLeft then do
        let item ← typeRef depth
        expect .bracketRight
        pure (TypeRef.list item)
      else pure (TypeRef.named (← name))
    if ← accept .bang then return .nonNull base else return base

/-! ## Arguments and directives -/

/-- An argument with the place of its value. -/
def argument (constant : Bool) (depth : Nat) : Parser Argument := do
  let key ← name
  expect .colon
  let start := (← current).offset
  return { name := key, value := ← value constant depth, valueOffset := start }

def arguments (constant : Bool) (depth : Nat) : Parser (List Argument) :=
  optionalBetween .parenLeft .parenRight (argument constant depth)

/-- The directives at the front. -/
def directivesWith (constant : Bool) (depth : Nat) : (fuel : Nat) → Parser (List Directive)
  | 0 => return []
  | fuel + 1 => do
    let start ← current
    if ← accept .at then
      let key ← name
      let args ← arguments constant depth
      return { name := key, arguments := args, offset := start.offset }
        :: (← directivesWith constant depth fuel)
    else return []

def directives (constant : Bool) (depth : Nat) : Parser (List Directive) := do
  directivesWith constant depth ((← get).length + 1)

def constDirectives : Parser (List Directive) :=
  directives true maxDepth

/-! ## Executable definitions -/

/-- The selections between braces, with at most `depth` levels of them; there is no level too many,
    whatever stands at the front. -/
def selectionSet : (depth : Nat) → Parser (List Selection)
  | 0 => do
    failAt (← current) .tooDeep
  | depth + 1 =>
    let field : Parser Selection := do
      let first ← name
      let key ← if ← accept .colon then name else pure first
      let args ← arguments false depth
      let dirs ← directives false depth
      let inner ← if ← peek .braceLeft then selectionSet depth else pure []
      return .field key args dirs inner
    let fragment : Parser Selection := do
      expect .spread
      let conditional ← acceptKeyword "on"
      if !conditional && (← peekName) then
        let key ← name
        return .spread key (← directives false depth)
      else
        let condition ← if conditional then some <$> name else pure none
        let dirs ← directives false depth
        return .inline condition dirs (← selectionSet depth)
    manyBetween .braceLeft .braceRight do
      if ← peek .spread then fragment else field

def operationKind : Parser OperationKind := do
  let token ← current
  let word ← name
  match OperationKind.ofName? word with
  | some kind => return kind
  | none => failAt token (.unexpected token.kind)

def isString : TokenKind → Bool
  | .string _ => true
  | .blockString _ => true
  | _ => false

def description : Parser (Option String) := do
  let token ← current
  if isString token.kind then
    advance
    return token.kind.content?
  else return none

def variableDef : Parser VariableDef := do
  let _ ← description
  expect .dollar
  let key ← name
  expect .colon
  let type ← typeRef maxDepth
  let defaultValue ← if ← accept .equals then some <$> value true maxDepth else pure none
  return { name := key, type, defaultValue, directives := ← constDirectives }

/-- An operation; its kind may be left out together with all before its selections. -/
def operation : Parser OperationDef := do
  if ← peek .braceLeft then
    return { kind := .query, name := none, variableDefs := [], directives := []
             selections := ← selectionSet maxDepth }
  else
    let _ ← description
    let kind ← operationKind
    let key ← if ← peekName then some <$> name else pure none
    let variableDefs ← optionalBetween .parenLeft .parenRight variableDef
    let dirs ← directives false maxDepth
    return { kind, name := key, variableDefs, directives := dirs
             selections := ← selectionSet maxDepth }

def fragment : Parser FragmentDef := do
  let _ ← description
  expectKeyword "fragment"
  if (← current).kind.content? = some "on" then unexpected
  let key ← name
  expectKeyword "on"
  let condition ← name
  let dirs ← directives false maxDepth
  return { name := key, condition, directives := dirs, selections := ← selectionSet maxDepth }

/-! ## Parts of type definitions -/

def inputValueDef : Parser InputValueDef := do
  let text ← description
  let key ← name
  expect .colon
  let type ← typeRef maxDepth
  let defaultValue ← if ← accept .equals then some <$> value true maxDepth else pure none
  return { description := text, name := key, type, defaultValue
           directives := ← constDirectives }

def argumentDefs : Parser (List InputValueDef) :=
  optionalBetween .parenLeft .parenRight inputValueDef

def fieldDef : Parser FieldDef := do
  let text ← description
  let key ← name
  let args ← argumentDefs
  expect .colon
  let type ← typeRef maxDepth
  return { description := text, name := key, arguments := args, type
           directives := ← constDirectives }

def fieldDefs : Parser (List FieldDef) :=
  optionalBetween .braceLeft .braceRight fieldDef

def inputFieldDefs : Parser (List InputValueDef) :=
  optionalBetween .braceLeft .braceRight inputValueDef

def interfaces : Parser (List String) := do
  if ← acceptKeyword "implements" then manySeparated .ampersand name else return []

def unionMembers : Parser (List String) := do
  if ← accept .equals then manySeparated .pipe name else return []

def enumValueDef : Parser EnumValueDef := do
  let text ← description
  let token ← current
  if token.kind.content?.any ["true", "false", "null"].contains then
    failAt token (.reservedEnumValue token.kind)
  let key ← name
  return { description := text, name := key, directives := ← constDirectives }

def enumValueDefs : Parser (List EnumValueDef) :=
  optionalBetween .braceLeft .braceRight enumValueDef

def rootOperation : Parser (OperationKind × String) := do
  let kind ← operationKind
  expect .colon
  return (kind, ← name)

/-- A place that a directive can be applied at. -/
def directiveLocation : Parser String := do
  let token ← current
  let word ← name
  if BuiltIn.directiveLocations.contains word then return word
  else failAt token (.unexpected token.kind)

/-! ## Type system definitions -/

def schemaDef : Parser SchemaDef := do
  let text ← description
  expectKeyword "schema"
  let dirs ← constDirectives
  return { description := text, directives := dirs
           operations := ← manyBetween .braceLeft .braceRight rootOperation }

/-- What follows the keyword and the name of a type: its interfaces or directives first, then its
    body. -/
def typeParts (keyword : String) : Parser (List Directive × TypeBody) := do
  match keyword with
  | "type" => do
    let parents ← interfaces
    let dirs ← constDirectives
    return (dirs, .object parents (← fieldDefs))
  | "interface" => do
    let parents ← interfaces
    let dirs ← constDirectives
    return (dirs, .interface parents (← fieldDefs))
  | "union" => do
    let dirs ← constDirectives
    return (dirs, .union (← unionMembers))
  | "enum" => do
    let dirs ← constDirectives
    return (dirs, .enum (← enumValueDefs))
  | "input" => do
    let dirs ← constDirectives
    return (dirs, .inputObject (← inputFieldDefs))
  | _ => do
    return (← constDirectives, .scalar)

def typeDef (keyword : String) : Parser TypeDef := do
  let text ← description
  expectKeyword keyword
  let key ← name
  let (dirs, body) ← typeParts keyword
  return { description := text, name := key, directives := dirs, body }

def directiveDef : Parser DirectiveDef := do
  let text ← description
  expectKeyword "directive"
  expect .at
  let key ← name
  let args ← argumentDefs
  let repeatable ← acceptKeyword "repeatable"
  expectKeyword "on"
  return { description := text, name := key, arguments := args, repeatable
           locations := ← manySeparated .pipe directiveLocation }

/-! ## Extensions -/

def isEmptyBody : TypeBody → Bool
  | .scalar => true
  | .object parents fields => parents.isEmpty && fields.isEmpty
  | .interface parents fields => parents.isEmpty && fields.isEmpty
  | .union members => members.isEmpty
  | .enum values => values.isEmpty
  | .inputObject fields => fields.isEmpty

/-- The extension of the schema, which must add something. -/
def schemaExtension : Parser SchemaDef := do
  expectKeyword "extend"
  expectKeyword "schema"
  let dirs ← constDirectives
  let operations ← optionalBetween .braceLeft .braceRight rootOperation
  if dirs.isEmpty && operations.isEmpty then unexpected
  return { description := none, directives := dirs, operations }

/-- The extension of a type, which must add something. -/
def typeExtension (keyword : String) : Parser TypeDef := do
  expectKeyword "extend"
  expectKeyword keyword
  let key ← name
  let (dirs, body) ← typeParts keyword
  if dirs.isEmpty && isEmptyBody body then unexpected
  return { description := none, name := key, directives := dirs, body }

/-! ## Documents -/

/-- The words that start the definition of a type. -/
def typeKeywords : List String :=
  ["scalar", "type", "interface", "union", "enum", "input"]

/-- An extension, told by the word after the one at the front. -/
def extension : Parser Definition := do
  let next ← lookahead
  match next.kind with
  | .name "schema" => .schemaExtension <$> schemaExtension
  | .name word =>
    if typeKeywords.contains word then .typeExtension <$> typeExtension word
    else failAt next (.unexpected next.kind)
  | _ => failAt next (.unexpected next.kind)

/-- A definition, told by its first word, before which a description may stand. -/
def definition : Parser Definition := do
  let first ← current
  if first.kind = .punctuator .braceLeft then .operation <$> operation
  else
    let described := isString first.kind
    let key ← if described then lookahead else pure first
    match key.kind with
    | .punctuator .braceLeft => failAt first .describedShorthand
    | .name "schema" => .schema <$> schemaDef
    | .name "directive" => .directive <$> directiveDef
    | .name "fragment" => .fragment <$> fragment
    | .name word =>
      if typeKeywords.contains word then .type <$> typeDef word
      else if (OperationKind.ofName? word).isSome then .operation <$> operation
      else if described then failAt first .misplacedDescription
      else if word = "extend" then extension
      else failAt key (.unexpected key.kind)
    | _ => failAt key (.unexpected key.kind)

/-- Definitions up to the end of the text. -/
def definitionsUntilEnd : (fuel : Nat) → Parser (List Definition)
  | 0 => unexpected
  | fuel + 1 => do
    if (← current).kind = .endOfText then return []
    else
      let first ← definition
      return first :: (← definitionsUntilEnd fuel)

/-- One definition or more up to the end of the text. -/
def document : Parser Document := do
  let first ← definition
  return first :: (← definitionsUntilEnd ((← get).length + 1))

/-- What a parser makes of a whole text. -/
def run {α : Type} (parser : Parser α) (text : String) : Except SyntaxError α := do
  let tokens ← readable (Token.scan text)
  return (← StateT.run parser tokens).1

end Parser

/-- The document that a text is. -/
def Document.parse (text : String) : Except SyntaxError Document :=
  Parser.run Parser.document text

/-- The literal that a text is; variables are allowed. -/
def Value.parse (text : String) : Except SyntaxError Value :=
  Parser.run (do
    let result ← Parser.value false Parser.maxDepth
    Parser.expectEnd
    return result) text

/-- The type reference that a text is. -/
def TypeRef.parse (text : String) : Except SyntaxError TypeRef :=
  Parser.run (do
    let result ← Parser.typeRef Parser.maxDepth
    Parser.expectEnd
    return result) text

/-- The message of a syntax error with the lines around its place in the text. -/
def SyntaxError.report (text : String) (e : SyntaxError) : String :=
  e.fault.message ++ "\n\n" ++ excerpt text.toList e.offset

end SchemaClasses
