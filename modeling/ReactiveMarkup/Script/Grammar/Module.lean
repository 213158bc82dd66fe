/-
Modules: imports, exports, and the outline of a script.

The outline tells, for each statement outside of all others, what it means for a
component: an import, something about types only, or anything else.
-/
import ReactiveMarkup.Script.Grammar.Statement

namespace ReactiveMarkup.Script

structure Extent where
  start : Nat
  stop : Nat
  deriving DecidableEq, Repr

inductive SpecifierKind where
  | standard
  | namespace
  | named (isType : Bool)
  deriving DecidableEq, Repr

structure Specifier where
  kind : SpecifierKind
  extent : Extent
  deriving DecidableEq, Repr

/-- An import.  Without a clause it only runs the other module. -/
structure Import where
  isType : Bool
  clause : Option (List Specifier)
  source : Extent
  deriving DecidableEq, Repr

inductive ItemKind where
  | import (declaration : Import)
  | typeOnly
  | other
  deriving DecidableEq, Repr

structure Item where
  kind : ItemKind
  extent : Extent
  deriving DecidableEq, Repr

namespace Grammar

def measured {α : Type} (p : Parser α) : Parser (α × Extent) := do
  let start := (← current).start
  let a ← p
  return (a, ⟨start, (← get).previousStop⟩)

/-! ### Imports -/

def moduleName : Parser Extent := do
  let t ← current
  require (t.kind == .text)
  advance
  return ⟨t.start, t.stop⟩

def importAttributes : Parser Unit := do
  if (← seesWord "with") || ((← seesWord "assert") && (← sameLine)) then
    advance
    discard <| braces <| gather "\x7d" do
      let t ← current
      require (t.kind == .word || t.kind == .text)
      advance
      expect ":"
      discard moduleName

/-- A word or text that names an export of a module.  The answer tells whether it can be a name
here, and its text. -/
def exportName : Parser (Bool × String) := do
  let t ← current
  let isName ← seesName
  require (t.kind == .word || t.kind == .text)
  advance
  return (isName, t.text)

def seesExportName : Parser Bool := do
  let t ← current
  return t.kind == .word || t.kind == .text

/-- A specifier as it was read: whether it is marked as a type, the name inside of its module, and
the name on the other side. -/
structure Listed where
  isType : Bool
  inner : Bool × String
  outer : Bool × String

/-- A name of a list in braces, which may start with the word `type` as a mark. -/
def listedName : Parser Listed := do
  let plain ← seesWord "type"
  let first ← exportName
  if !plain then
    if ← eatWord "as" then return ⟨false, first, ← exportName⟩
    return ⟨false, first, first⟩
  if ← seesWord "as" then
    let firstAs ← exportName
    if ← seesWord "as" then
      let secondAs ← exportName
      if ← seesExportName then
        -- `type as as name`
        return ⟨true, firstAs, ← exportName⟩
      -- `type as as`
      return ⟨false, first, secondAs⟩
    if ← seesExportName then
      -- `type as name`
      return ⟨false, first, ← exportName⟩
    -- `type as`
    return ⟨true, firstAs, firstAs⟩
  if ← seesExportName then
    -- `type name`
    let second ← exportName
    if ← eatWord "as" then return ⟨true, second, ← exportName⟩
    return ⟨true, second, second⟩
  return ⟨false, first, first⟩

def importSpecifier (isType : Bool) : Parser Specifier := do
  let (r, extent) ← measured listedName
  require r.outer.1
  require (!r.isType || ((← typesAllowed) && !isType))
  return ⟨.named r.isType, extent⟩

def importNamespace : Parser Specifier := do
  let (_, extent) ← measured do
    expect "*"
    expectWord "as"
    name
  return ⟨.namespace, extent⟩

def importClause (isType : Bool) (first : Option Extent) : Parser (List Specifier) := do
  let standard := first.toList.map fun extent => (⟨.standard, extent⟩ : Specifier)
  let hasMore ← if first.isNone then pure true else eat ","
  if !hasMore then return standard
  let more ←
    if ← sees "*" then pure [← importNamespace]
    else braces (gather "\x7d" (importSpecifier isType))
  return standard ++ more

def importAlias : Parser Unit := do
  expect "="
  if ← seesWord "require" <&&> nextMark "(" then
    advance
    discard (parens moduleName)
  else entityName
  endStatement

/-- Whether the word `type` after `import` is a mark and not a name. -/
def seesTypeMark : Parser Bool :=
  seesWord "type" <&&> look do
    advance
    if ← seesAny ["\x7b", "*"] then return true
    if ← eatWord "from" then return (← seesWord "from") || (← sees "=")
    return Token.isName (← current)

def seesPhase : Parser Bool := do
  if ← seesWord "defer" then nextMark "*"
  else
    seesWord "source" <&&> look do
      advance
      require (Token.isName (← current))
      advance
      seesWord "from"

/-- What stands after the names that are imported or exported. -/
def endImport : Parser Extent := do
  let source ← moduleName
  importAttributes
  endStatement
  return source

/-- An import.  Imports of the form `import x = y` belong to the other statements. -/
def importStatement : Parser ItemKind := do
  expectWord "import"
  if (← current).kind == .text then return .import ⟨false, none, ← endImport⟩
  if ← seesPhase then advance
  let isType ← eatIf seesTypeMark
  if isType then require (← typesAllowed)
  let first ← if ← seesName then some <$> measured name else pure none
  if first.isSome && (← sees "=") then
    require (← typesAllowed)
    importAlias
    return .other
  let clause ← importClause isType (first.map Prod.snd)
  expectWord "from"
  return .import ⟨isType, some clause, ← endImport⟩

/-! ### Exports -/

/-- An export: whether it is about types only, and the names that it exports. -/
structure Export where
  isType : Bool
  names : List String

def exportList (isType : Bool) : Parser Export := do
  let names ← braces (gather "\x7d" listedName)
  require (names.all fun r => !r.isType || !isType)
  unless ← typesAllowed do require (names.all fun r => !r.isType)
  if ← eatWord "from" then discard endImport
  else
    require (names.all fun r => r.inner.1)
    endStatement
  return ⟨isType, names.map fun r => r.outer.2⟩

def exportAll : Parser Export := do
  expect "*"
  let names ← if ← eatWord "as" then pure [(← exportName).2] else pure []
  expectWord "from"
  discard endImport
  return ⟨false, names⟩

def exportDefault : Parser Export := do
  expectWord "default"
  if ← seesFunction then discard (functionLiteral (← eatWord "async") true)
  else if ← sees "@" then decoratedClass
  else if ← seesWord "class" then discard classLiteral
  else if ← typesAllowed <&&> seesWord "abstract" <&&> nextClass then
    advance
    discard classLiteral
  else if ← typesAllowed <&&> seesWord "interface" <&&> nextName then interfaceDeclaration
  else
    bracketed assigned
    endStatement
  return ⟨false, ["default"]⟩

def exportDeclaration : Parser Export := do
  if ← seesTypedDeclaration then
    let isDeclare ← seesWord "declare"
    match ← typedDeclaration with
    | .typeOnly => return ⟨true, []⟩
    | .value => return ⟨isDeclare, []⟩
  else if ← seesFunction then return ⟨false, [← functionDeclaration false]⟩
  else if ← seesWord "class" <||> sees "@" then
    decorators
    return ⟨false, [← classDeclaration]⟩
  else
    require (← seesVariables)
    return ⟨false, ← variableNames⟩

def typedExport : Parser (Option Export) := do
  if !(← typesAllowed) then return none
  if ← eatIf (seesWord "type" <&&> nextMark "\x7b") then return some (← exportList true)
  if ← eatIf (seesWord "type" <&&> nextMark "*") then return some (← exportAll)
  if ← eatIf (seesWord "as" <&&> lookNext (·.isWord "namespace")) then
    advance
    discard name
    endStatement
    return some ⟨false, []⟩
  if ← seesWord "import" then
    discard importStatement
    return some ⟨false, []⟩
  return none

def exportStatement : Parser Export := do
  expectWord "export"
  if ← eatIf (seesTyped "=") then
    innerExpression
    endStatement
    return ⟨false, []⟩
  match ← typedExport with
  | some e => return e
  | none =>
    if ← seesWord "default" then exportDefault
    else if ← sees "*" then exportAll
    else if ← sees "\x7b" then exportList false
    else exportDeclaration

/-! ### Items -/

def moduleItem : Parser (ItemKind × List String) := do
  if (← seesWord "import") && !(← seesImportExpression) then return (← importStatement, [])
  if ← seesWord "export" then
    let e ← exportStatement
    return (if e.isType then .typeOnly else .other, e.names)
  if ← seesTypedDeclaration then
    match ← typedDeclaration with
    | .typeOnly => return (.typeOnly, [])
    | .value => return (.other, [])
  skip (.statement false)
  return (.other, [])

/-! ### The whole grammar -/

/-- What each rule reads. -/
def step : Goal → Parser Form
  | .expression => expression
  | .assignment returnType => assignment returnType
  | .binary power => binary power
  | .unary => unary
  | .callee => callee
  | .construct => construct
  | .element => other element
  | .statement isAlone => other (statement isAlone)
  | .block => other block
  | .items => other (upTo "\x7d" (discard moduleItem))
  | .type => other typeExpression
  | .binding => binding

/-- The rules, nested at most `fuel` deep. -/
def rulesFor : Nat → Rules
  | 0 => fun _ => failure
  | fuel + 1 => fun goal => step goal (rulesFor fuel)

def program : Parser (List (Item × List String)) := do
  let items ← iterating ([] : List (Item × List String)) fun items => do
    if (← current).kind == .done then return none
    let ((kind, names), extent) ← measured moduleItem
    return some ((⟨kind, extent⟩, names) :: items)
  return items.reverse

end Grammar

/-- The outline of a script, if it is well formed.  Each rule that another one asks for reads at
least one character, a few of them at the same place, so ten times the length is enough fuel. -/
def outline? (dialect : Dialect) (script : List Char) : Option (List Item) := do
  let (token, after) ← Token.first? script
  let start : Grammar.State := {
    dialect, token, after, context := {}, previousStop := 0, covers := 0 }
  let (items, final) ← Grammar.program (Grammar.rulesFor (10 * script.length + 20)) start
  let exported := items.flatMap Prod.snd
  let unique := dialect.types || exported.eraseDups.length == exported.length
  if final.covers == 0 && unique then return items.map Prod.fst else none

end ReactiveMarkup.Script
