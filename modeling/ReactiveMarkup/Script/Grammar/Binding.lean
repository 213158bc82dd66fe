/-
Names that are bound: patterns and parameters.

* `binding`: a name, or a pattern of names;
* `parameters`: the parameters of a function.
-/
import ReactiveMarkup.Script.Grammar.Parser

namespace ReactiveMarkup.Script.Grammar

def boundNames : Parser (List String) := do
  match ← rule .binding with
  | .bound names => return names
  | _ => return []

def assigned : Parser Unit := skip (.assignment true)

def defaultValue : Parser Unit := do if ← eat "=" then bracketed assigned

def typeNote : Parser Unit := do if ← eatIf (seesTyped ":") then bracketed (skip .type)

/-- The name of a property.  A word is returned, since it may stand for its own value. -/
def propertyKey : Parser (Option Token) := do
  let t ← current
  match t.kind with
  | .word =>
    advance
    return some t
  | .text | .number => advance
  | _ => squares assigned
  return none

def patternProperty : Parser (List String) := do
  if ← eat "..." then
    let n ← name
    require !(← sees ",")
    return [n]
  let isName ← seesName
  let key ← propertyKey
  let names ←
    if ← eat ":" then boundNames
    else do
      require (key.isSome && isName)
      pure (key.toList.map Token.text)
  defaultValue
  return names

/-- The elements of an array pattern and the holes between them. -/
def patternElements : Parser (List String) :=
  iterating [] fun names => do
    if ← sees "]" then return none
    if ← eat "," then return some names
    let isRest ← eat "..."
    let more ← boundNames
    unless isRest do defaultValue
    unless ← sees "]" do
      require !isRest
      expect ","
    return some (names ++ more)

def binding : Parser Form := do
  if ← sees "\x7b" then return .bound (← braces (gather "\x7d" patternProperty)).flatten
  else if ← sees "[" then .bound <$> squares patternElements
  else return .bound [← name]

/-! ### Parameters -/

def decorators : Parser Unit := repeatIf (eat "@") (skip .callee)

def parameterMarks : List String := ["public", "private", "protected", "readonly", "override"]

def parameterModifiers : Parser Unit :=
  eatAll (seesAnyWord parameterMarks <&&> typesAllowed <&&>
    lookNext fun t => Token.isName t || t.isMark "\x7b" || t.isMark "[")

/-- A parameter.  The answer tells whether it takes all that is left. -/
def parameter : Parser Bool := do
  decorators
  parameterModifiers
  let types ← typesAllowed
  if ← eat "..." then
    skip .binding
    typeNote
    require !(← seesAny [",", "="])
    return true
  if types && (← seesWord "this") then advance else skip .binding
  if types then pass "?"
  typeNote
  defaultValue
  return false

/-- The parameters of a function in their brackets.  The answer tells for each whether it takes all
that is left. -/
def parameters : Parser (List Bool) := parens (gather ")" parameter)

end ReactiveMarkup.Script.Grammar
