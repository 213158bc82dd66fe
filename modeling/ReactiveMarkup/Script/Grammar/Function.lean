/-
Functions and classes.

* `functionRest`: a function from its parameters on;
* `arrowHead`, `arrowBody`: the two halves of an arrow function;
* `classLiteral`: a class.
-/
import ReactiveMarkup.Script.Grammar.Type

namespace ReactiveMarkup.Script.Grammar

/-! ### Functions -/

def functionContext (isAsync isGenerator : Bool) (c : Context) : Context :=
  { c with
    inAllowed := true, awaits := isAsync, yields := isGenerator, returns := true,
    conditionals := true }

/-- A function from its parameters on.  Where types are allowed, a declaration may have no body.
The answer holds what `parameters` answers. -/
def functionRest (isAsync isGenerator needsBody : Bool) : Parser (List Bool) :=
  within (functionContext isAsync isGenerator) do
    optionalTypeParameters
    let ps ← parameters
    discard resultNote
    if ← sees "\x7b" then skip .block
    else
      require (!needsBody && (← typesAllowed))
      endStatement
    return ps

/-- A function from the word `function` on.  The answer holds its name, if it has one. -/
def functionLiteral (isAsync isDeclaration : Bool) : Parser (Option String) := do
  expectWord "function"
  let isGenerator ← eat "*"
  let bound ←
    if isDeclaration then optionalName
    else within ({ · with awaits := isAsync, yields := isGenerator }) optionalName
  discard (functionRest isAsync isGenerator !isDeclaration)
  return bound

/-- An arrow function up to its arrow.  The answer tells whether the type of its result is given. -/
def arrowHead (isAsync : Bool) : Parser Bool :=
  within (fun c => { c with awaits := c.awaits || isAsync }) do
    optionalTypeParameters
    discard parameters
    let noted ← resultNote
    require ((← sees "=>") && (← sameLine))
    return noted

def arrowBody (isAsync : Bool) : Parser Unit := do
  expect "=>"
  if ← sees "\x7b" then within (functionContext isAsync false) (skip .block)
  else within ({ · with awaits := isAsync, yields := false }) assigned

/-! ### Members of classes -/

def typedMarks : List String := [
  "public", "private", "protected", "readonly", "abstract", "override", "declare"]

def classModifiers : Parser (List String) :=
  iterating [] fun words => do
    let t ← current
    let isMark := ["static", "accessor", "async"].contains t.text ||
      ((← typesAllowed) && typedMarks.contains t.text)
    let isModifier ← lookNext fun next =>
      (Token.beginsKey next || next.isMark "*") && (t.text == "static" || !next.newline)
    if t.kind == .word && !t.marred && isMark && isModifier then
      advance
      return some (words ++ [t.text])
    else return none

/-- The name of a member of a class.  The answer holds the name if it is a plain word or text. -/
def memberKey : Parser (Option String) := do
  let t ← current
  match t.kind with
  | .privateName =>
    require (t.text != "constructor")
    advance
    return none
  | .text =>
    advance
    return some t.text
  | _ => return (← propertyKey).map Token.text

/-- Whether the parameters suit a function that reads (`get`) or writes (`set`) a property. -/
def accessorFits (reads : Bool) (ps : List Bool) : Bool :=
  if reads then ps.isEmpty else ps == [false]

def inField {α : Type} (p : Parser α) : Parser α :=
  within ({ · with inAllowed := true, awaits := false, yields := false, returns := false }) p

def fieldRest : Parser Unit := do
  if ← typesAllowed then discard (eatAny ["?", "!"])
  typeNote
  if ← eat "=" then inField assigned
  endStatement

def classMember : Parser Unit := do
  let words ← classModifiers
  let types ← typesAllowed
  if ← eatIf (seesWord "static" <&&> nextMark "\x7b") then inField (skip .block)
  else if types && (← seesIndexSignature) then
    indexSignature
    endStatement
  else if ← seesAccessor then
    let reads ← seesWord "get"
    advance
    let key ← memberKey
    require (words.contains "static" || key != some "constructor")
    require (accessorFits reads (← functionRest false false false))
  else
    let isGenerator ← eat "*"
    let isAsync := words.contains "async"
    let key ← memberKey
    let isConstructor := key == some "constructor" && !words.contains "static"
    if types && (← lookNext fun t => t.isMark "(" || t.isMark "<") then pass "?"
    if (← sees "(") || (← seesTyped "<") then
      require !(isConstructor && (isAsync || isGenerator))
      discard (functionRest isAsync isGenerator false)
    else
      require (!isAsync && !isGenerator && key != some "constructor")
      fieldRest

def classBody : Parser Unit :=
  braces <| upTo "\x7d" do
    unless ← eat ";" do
      decorators
      classMember

/-! ### Classes -/

def heritageType : Parser Unit := do
  skip .callee
  if ← seesTyped "<" then typeArguments

def heritageTypes : Parser Unit := do
  heritageType
  repeatIf (eat ",") heritageType

/-- A class from the word `class` on.  The answer holds its name, if it has one. -/
def classLiteral : Parser (Option String) := do
  expectWord "class"
  let bound ← if ← seesWord "implements" then pure none else optionalName
  optionalTypeParameters
  if ← eatWord "extends" then heritageType
  if ← eatIf (typesAllowed <&&> seesWord "implements") then heritageTypes
  classBody
  return bound

end ReactiveMarkup.Script.Grammar
