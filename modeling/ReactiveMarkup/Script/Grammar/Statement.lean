/-
Statements and declarations.

* `statement`: a statement;
* `block`: statements in braces;
* `variableNames`: a declaration of variables;
* `typedDeclaration`: the declarations that only scripts with types have.
-/
import ReactiveMarkup.Script.Grammar.Element

namespace ReactiveMarkup.Script.Grammar

/-! ### Blocks -/

def block : Parser Unit := braces (upTo "\x7d" (skip (.statement false)))

/-! ### Variables -/

structure Variable where
  names : List String
  isPattern : Bool
  hasValue : Bool

def oneVariable : Parser Variable := do
  let isPattern ← seesAny ["\x7b", "["]
  let names ← boundNames
  discard (eatIf (seesTyped "!" <&&> sameLine))
  typeNote
  let hasValue ← eat "="
  if hasValue then assigned
  return { names, isPattern, hasValue }

def variableList : Parser (List Variable) := do
  let items ← iterating [← oneVariable] fun items => do
    if ← eat "," then return some ((← oneVariable) :: items)
    return none
  return items.reverse

/-- Whether variables have the values they need.  Patterns and constants need one. -/
def valuesSuffice (needsValue ambient : Bool) (items : List Variable) : Bool :=
  ambient || items.all fun v => v.hasValue || !(needsValue || v.isPattern)

def seesVariables : Parser Bool := do
  let t ← current
  match if t.kind == .word && !t.marred then t.text else "" with
  | "var" | "const" => return true
  | "let" =>
    lookNext fun next =>
      Token.isName next && !(["instanceof", "in", "of"].contains next.text) ||
        next.isMark "[" || next.isMark "\x7b" || next.isWord "yield" || next.isWord "await" ||
        (next.isWord "of" && !next.newline)
  | "using" => lookNext fun next => Token.isName next && !next.newline && next.text != "of"
  | "await" =>
    look do
      advance
      require ((← seesWord "using") && (← sameLine))
      advance
      seesName <&&> sameLine
  | _ => return false

/-- The word that declares variables.  The answer tells whether they need values. -/
def variableWord : Parser Bool := do
  passWord "await"
  let t ← current
  advance
  return t.text == "const" || t.text == "using"

def variableNames : Parser (List String) := do
  let needsValue ← variableWord
  let items ← variableList
  require (valuesSuffice needsValue (← get).context.ambient items)
  endStatement
  return items.flatMap Variable.names

/-! ### Loops and branches -/

def innerExpression : Parser Unit := bracketed (skip .expression)

def alone : Parser Unit := skip (.statement true)

def test : Parser Unit := parens (skip .expression)

def counterRest : Parser Unit := do
  expect ";"
  unless ← sees ";" do innerExpression
  expect ";"
  unless ← sees ")" do innerExpression

def collectionRest (isAwait : Bool) : Parser Unit := do
  if ← eatWord "of" then bracketed assigned
  else
    require !isAwait
    expectWord "in"
    innerExpression

def variableHead (isAwait : Bool) : Parser Unit := do
  let needsValue ← variableWord
  let items ← within ({ · with inAllowed := false }) variableList
  if ← seesAnyWord ["of", "in"] then
    require (items.length == 1 && items.all fun v => !v.hasValue)
    collectionRest isAwait
  else
    require (!isAwait && valuesSuffice needsValue false items)
    counterRest

def expressionHead (isAwait : Bool) : Parser Unit := do
  let isLet ← seesWord "let"
  let isAsync := (← seesWord "async") && (← lookNext (·.isWord "of"))
  let form ← within ({ · with inAllowed := false }) (rule .expression)
  if ← seesAnyWord ["of", "in"] then
    if ← seesWord "of" then require (!isLet && (!isAsync || isAwait))
    assignTo form
    collectionRest isAwait
  else
    require !isAwait
    counterRest

def forStatement : Parser Unit := do
  advance
  let isAwait ← eatWord "await"
  require (!isAwait || (← get).context.awaits)
  expect "("
  if ← sees ";" then
    require !isAwait
    counterRest
  else if ← seesVariables then variableHead isAwait
  else expressionHead isAwait
  expect ")"
  alone

def switchStatement : Parser Unit := do
  advance
  test
  braces <| upTo "\x7d" do
    if ← eatWord "case" then skip .expression else expectWord "default"
    expect ":"
    repeatIf (return !((← sees "\x7d") || (← seesAnyWord ["case", "default"])))
      (skip (.statement false))

def tryStatement : Parser Unit := do
  advance
  skip .block
  let hasCatch ← eatWord "catch"
  if hasCatch then
    if ← eat "(" then
      skip .binding
      typeNote
      expect ")"
    skip .block
  let hasFinally ← eatWord "finally"
  if hasFinally then skip .block
  require (hasCatch || hasFinally)

/-! ### Declarations -/

def functionDeclaration (isAlone : Bool) : Parser String := do
  let isAsync ← eatWord "async"
  let isGenerator ← nextMark "*"
  require (!isAlone || !(isAsync || isGenerator))
  let some name ← functionLiteral isAsync true | failure
  return name

def classDeclaration : Parser String := do
  let some name ← classLiteral | failure
  return name

def interfaceDeclaration : Parser Unit := do
  advance
  discard name
  optionalTypeParameters
  if ← eatWord "extends" then heritageTypes
  members

def aliasDeclaration : Parser Unit := do
  advance
  discard name
  optionalTypeParameters
  expect "="
  innerType
  endStatement

def enumDeclaration : Parser Unit := do
  expectWord "enum"
  discard name
  discard <| braces <| gather "\x7d" do
    let t ← current
    require (t.kind == .word || t.kind == .text || t.isMark "[")
    discard propertyKey
    if ← eat "=" then assigned

inductive TypedKind where
  | typeOnly
  | value

def followsDeclare (t : Token) : Bool :=
  !t.newline && (["var", "let", "const", "function", "class", "interface", "type", "enum",
    "namespace", "module", "abstract", "global", "async", "using"].any fun w => t.isWord w)

def nextClass : Parser Bool := lookNext fun t => t.isWord "class" && !t.newline

def seesTypedDeclaration : Parser Bool := do
  let t ← current
  if t.kind != .word || t.marred || !(← typesAllowed) then return false
  match t.text with
  | "interface" | "type" | "namespace" => nextName
  | "module" => lookNext fun next => (Token.isName next || next.kind == .text) && !next.newline
  | "enum" => return true
  | "const" => lookNext (·.isWord "enum")
  | "abstract" => nextClass
  | "declare" => lookNext followsDeclare
  | "global" => nextMark "\x7b"
  | _ => return false

def namespaceBody : Parser Unit := braces (within ({ · with returns := false }) (skip .items))

def namespaceDeclaration : Parser Unit := do
  if ← eatWord "global" then namespaceBody
  else
    advance
    if (← current).kind == .text then
      advance
      if ← sees "\x7b" then namespaceBody else endStatement
    else
      entityName
      namespaceBody

def plainTypedDeclaration : Parser TypedKind := do
  if ← seesWord "interface" then
    interfaceDeclaration
    return .typeOnly
  if ← seesWord "type" then
    aliasDeclaration
    return .typeOnly
  if ← seesAnyWord ["namespace", "module", "global"] then namespaceDeclaration
  else if ← eatWord "abstract" then discard classDeclaration
  else
    passWord "const"
    enumDeclaration
  return .value

def declared : Parser TypedKind := do
  if ← seesTypedDeclaration then return ← plainTypedDeclaration
  if ← seesAnyWord ["function", "async"] then discard (functionDeclaration false)
  else if ← seesWord "class" then discard classDeclaration
  else
    require (← seesVariables)
    discard variableNames
  return .value

def typedDeclaration : Parser TypedKind := do
  if ← eatWord "declare" then within ({ · with ambient := true }) declared
  else plainTypedDeclaration

/-! ### Statements -/

def expressionStatement : Parser Unit := do
  if ← seesName <&&> nextMark ":" then
    advance
    advance
    alone
  else
    innerExpression
    endStatement

def seesFunction : Parser Bool := do
  return (← seesWord "function") || (← seesWord "async" <&&> nextFunction)

def seesImportExpression : Parser Bool :=
  seesWord "import" <&&> lookNext fun t => t.isMark "(" || t.isMark "."

def wordStatement : Parser Unit := do
  let t ← current
  let text := if t.marred then "" else t.text
  match text with
  | "if" =>
    advance
    test
    alone
    if ← eatWord "else" then alone
  | "for" => forStatement
  | "while" | "with" =>
    advance
    test
    alone
  | "do" =>
    advance
    alone
    expectWord "while"
    test
    pass ";"
  | "switch" => switchStatement
  | "try" => tryStatement
  | "return" =>
    require (← get).context.returns
    advance
    let t ← current
    unless t.newline || t.isMark ";" || t.isMark "\x7d" || t.kind == .done do innerExpression
    endStatement
  | "throw" =>
    advance
    require (← sameLine)
    innerExpression
    endStatement
  | "break" | "continue" =>
    advance
    discard (eatIf (seesName <&&> sameLine))
    endStatement
  | "debugger" =>
    advance
    endStatement
  | _ =>
    require (!(["import", "export"].contains text) || (← seesImportExpression))
    expressionStatement

/-- A statement.  `isAlone` tells that it stands in a branch or a loop without braces. -/
def statement (isAlone : Bool) : Parser Unit := do
  let t ← current
  if t.isMark "\x7b" then skip .block
  else if t.isMark ";" then advance
  else if t.isMark "@" then
    require !isAlone
    decorators
    passWord "abstract"
    discard classDeclaration
  else if t.kind != .word then expressionStatement
  else if ← seesTypedDeclaration then discard typedDeclaration
  else if ← seesFunction then discard (functionDeclaration isAlone)
  else if ← seesWord "class" then
    require !isAlone
    discard classDeclaration
  else if ← seesVariables then
    require (!isAlone || (← seesWord "var"))
    discard variableNames
  else wordStatement

end ReactiveMarkup.Script.Grammar
