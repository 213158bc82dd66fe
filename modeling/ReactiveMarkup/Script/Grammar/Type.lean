/-
Types.

* `typeExpression`: a type;
* `typeParameters`, `typeArguments`: lists in angle brackets;
* `members`: the members of an object type.
-/
import ReactiveMarkup.Script.Grammar.Binding

namespace ReactiveMarkup.Script.Grammar

def aType : Parser Unit := skip .type

def innerType : Parser Unit := bracketed aType

/-- The types in angle brackets after a name, without the closing bracket. -/
def openTypeArguments : Parser Unit := do
  expect "<"
  discard (bracketed (gatherSome ">" aType))

def typeArguments : Parser Unit := do
  openTypeArguments
  expect ">"

/-- The types in angle brackets after a name in a type, if they follow on the same line. -/
def optionalTypeArguments : Parser Unit := do if ← sees "<" <&&> sameLine then typeArguments

def typeParameter : Parser Unit := do
  eatAll (seesAnyWord ["const", "in", "out"] <&&> lookNext (·.kind == .word))
  discard name
  if ← eatWord "extends" then aType
  if ← eat "=" then aType

def typeParameters : Parser Unit := discard (enclosed "<" ">" (gatherSome ">" typeParameter))

def optionalTypeParameters : Parser Unit := do if ← seesTyped "<" then typeParameters

/-- A type, or a condition such as `x is T`, as the result of a function. -/
def resultType : Parser Unit := do
  let t ← current
  let isPredicate := Token.isName t || t.isWord "this"
  if isPredicate && (← lookNext fun t => t.isWord "is" && !t.newline) then
    advance
    advance
  aType

/-- The type of a result after a colon, if there is one and types are allowed.  The answer tells
whether there is. -/
def resultNote : Parser Bool := do
  let noted ← eatIf (seesTyped ":")
  if noted then resultType
  return noted

def signature : Parser Unit := do
  optionalTypeParameters
  discard parameters
  discard resultNote

def functionType : Parser Unit := do
  passWord "abstract"
  passWord "new"
  optionalTypeParameters
  discard parameters
  expect "=>"
  resultType

/-! ### Object types -/

def seesIndexSignature : Parser Bool :=
  look do
    expect "["
    require (Token.isName (← current))
    advance
    sees ":"

def indexSignature : Parser Unit := do
  expect "["
  discard name
  expect ":"
  innerType
  expect "]"
  typeNote

def seesAccessor : Parser Bool := seesAnyWord ["get", "set"] <&&> lookNext Token.beginsKey

def member : Parser Unit := do
  if ← seesAny ["(", "<"] then signature
  else if ← seesWord "new" <&&> lookNext fun t => t.isMark "(" || t.isMark "<" then
    advance
    signature
  else
    eatAll (seesWord "readonly" <&&> lookNext fun t => Token.beginsKey t && !t.newline)
    if ← seesIndexSignature then indexSignature
    else
      if ← seesAccessor then advance
      discard propertyKey
      pass "?"
      if ← seesAny ["(", "<"] then signature else typeNote

def endMember : Parser Unit := do
  unless ← eatAny [";", ","] do require ((← sees "\x7d") || !(← sameLine))

def members : Parser Unit :=
  braces <| upTo "\x7d" do
    member
    endMember

def mappedSign : Parser Unit := discard (eatAny ["+", "-"])

def seesMapped : Parser Bool :=
  look do
    expect "\x7b"
    mappedSign
    passWord "readonly"
    expect "["
    discard word
    seesWord "in"

def mappedType : Parser Unit := do
  expect "\x7b"
  mappedSign
  passWord "readonly"
  expect "["
  discard word
  expectWord "in"
  innerType
  if ← eatWord "as" then innerType
  expect "]"
  if ← eatAny ["+", "-"] then expect "?" else pass "?"
  typeNote
  endMember
  expect "\x7d"

/-! ### Types without operators -/

def labelled : Parser Bool := do
  discard word
  pass "?"
  sees ":"

def tupleElement : Parser Unit := do
  pass "..."
  if ← look labelled then
    discard labelled
    advance
    aType
  else
    aType
    pass "?"

def entityName : Parser Unit := do
  discard word
  repeatIf (eat ".") memberName

def importType : Parser Unit := do
  expectWord "import"
  expect "("
  innerType
  if ← eat "," then
    unless ← sees ")" do
      bracketed assigned
      pass ","
  expect ")"
  if ← eat "." then entityName
  optionalTypeArguments

/-- The rest of a template type or a template, after its first part.  `part` reads what stands
between the braces. -/
def templateParts (tagged : Bool) (part : Parser Unit) : Parser Unit := do
  iterating () fun _ => do
    let t ← current
    require (tagged || !t.marred)
    match t.kind with
    | .template true => return none
    | .template false =>
      advance
      bracketed part
      require (← sees "\x7d")
      let s ← get
      let (complete, marred, after) ← takeTemplate? s.after
      set { s with
        token := { s.token with
          kind := .template complete, text := "", marred
          stop := s.token.stop + (s.after.length - after.length) }
        after }
      return some ()
    | _ => failure
  advance

def typeWords : List String := ["void", "null", "true", "false"]

def wordType : Parser Unit := do
  let t ← current
  if t.isWord "this" then
    advance
    if ← eatIf (seesWord "is" <&&> sameLine) then aType
  else if t.isWord "import" then importType
  else if t.isWord "typeof" && (← lookNext (·.isWord "import")) then
    advance
    importType
  else if typeWords.contains t.text then advance
  else if t.isWord "asserts" && (← lookNext fun t =>
      !t.newline && ((Token.isName t && t.text != "is") || t.isWord "this")) then
    advance
    advance
    if ← eatWord "is" then aType
  else
    passWord "typeof"
    entityName
    optionalTypeArguments

def plainType : Parser Unit := do
  let t ← current
  match t.kind with
  | .word => wordType
  | .text | .number => advance
  | .template _ => templateParts false aType
  | .mark =>
    match t.text with
    | "-" =>
      advance
      require ((← current).kind == .number)
      advance
    | "\x7b" => if ← seesMapped then mappedType else members
    | "[" => discard (squares (gather "]" tupleElement))
    | _ => parens aType
  | _ => failure

/-! ### Operators -/

def suffixedType : Parser Unit := do
  plainType
  repeatIf (eatIf (sees "[" <&&> sameLine)) do
    unless ← sees "]" do innerType
    expect "]"

def inferType : Parser Unit := do
  advance
  discard name
  discard <| attempt do
    expectWord "extends"
    within ({ · with conditionals := false }) aType
    require (!(← get).context.conditionals || !(← sees "?"))

def operatorType : Parser Unit := do
  eatAll (seesAnyWord ["keyof", "unique", "readonly"])
  if ← seesWord "infer" <&&> nextName then inferType else suffixedType

/-- Types with a mark between them, which may also stand before the first. -/
def joinedTypes (mark : String) (one : Parser Unit) : Parser Unit := do
  pass mark
  one
  repeatIf (eat mark) one

def conditionalType : Parser Unit := do
  joinedTypes "|" (joinedTypes "&" operatorType)
  if (← get).context.conditionals && (← seesWord "extends") && (← sameLine) then
    advance
    within ({ · with conditionals := false }) aType
    expect "?"
    innerType
    expect ":"
    innerType

def typeExpression : Parser Unit := do
  let isFunction := (← sees "<") || (← seesWord "new") ||
    ((← seesWord "abstract") && (← lookNext (·.isWord "new")))
  if isFunction then functionType
  else if ← sees "(" then
    if (← attempt functionType).isNone then conditionalType
  else conditionalType

end ReactiveMarkup.Script.Grammar
