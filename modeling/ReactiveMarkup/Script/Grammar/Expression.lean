/-
Expressions.

Operators are read by their binding powers.  What was read is classified as far as
needed to tell what may stand left of an assignment, and which operators may not be
mixed.
-/
import ReactiveMarkup.Script.Grammar.Function

namespace ReactiveMarkup.Script.Grammar

/-! ### Forms -/

namespace Form

def isSimple : Form → Bool
  | name _ | target => true
  | _ => false

/-- Whether an element of a literal can be an element of a pattern, and the number of its properties
`a = b`. -/
def asElement : Form → Bool × Nat
  | name _ | target | assignment => (true, 0)
  | pattern valid covers => (valid, covers)
  | _ => (false, 0)

/-- The form of an expression in brackets or with a type. -/
def marked : Form → Form
  | name _ | target => target
  | _ => other

end Form

def assignTo : Form → Parser Unit
  | .name _ | .target => pure ()
  | .pattern true covers => modify fun s => { s with covers := s.covers - covers }
  | _ => failure

/-! ### Literals -/

def regex : Parser Form := do
  let s ← get
  let body := if s.token.isMark "/=" then '=' :: s.after else s.after
  let after ← takeRegex? body
  let stop := s.token.start + 1 + (body.length - after.length)
  set { s with token := { s.token with stop }, after }
  other advance

def template (tagged : Bool) : Parser Unit := templateParts tagged (skip .expression)

/-- Adds an element to what is known about a literal: whether it can be a pattern, and its
properties `a = b`. -/
def joinElement (known : Bool × Nat) (element : Bool × Nat) : Bool × Nat :=
  (known.1 && element.1, known.2 + element.2)

def array : Parser Form := do
  let (valid, covers) ← squares <| iterating (true, 0) fun known => do
    if ← sees "]" then return none
    if ← eat "," then return some known
    let isRest ← eat "..."
    let form ← rule (.assignment true)
    let known := joinElement known <|
      match isRest, form with
      | true, .assignment => (false, 0)
      | _, form => form.asElement
    if ← sees "]" then return some known
    expect ","
    return some (known.1 && !isRest, known.2)
  return .pattern valid covers

def property : Parser (Bool × Nat) := do
  if ← eat "..." then
    let form ← rule (.assignment true)
    return (form.isSimple && !(← sees ","), 0)
  if ← seesAccessor then
    let reads ← seesWord "get"
    advance
    discard propertyKey
    require (accessorFits reads (← functionRest false false true))
    return (false, 0)
  let isAsync ← eatIf <| seesWord "async" <&&> lookNext fun t =>
    !t.newline && (Token.beginsKey t || t.isMark "*")
  let isGenerator ← eat "*"
  let isName ← seesName
  let key ← propertyKey
  if isAsync || isGenerator || (← sees "(") || (← seesTyped "<") then
    discard (functionRest isAsync isGenerator true)
    return (false, 0)
  if ← eat ":" then return (← rule (.assignment true)).asElement
  require (key.isSome && isName)
  if ← eat "=" then
    assigned
    modify fun s => { s with covers := s.covers + 1 }
    return (true, 1)
  return (true, 0)

def object : Parser Form := do
  let properties ← braces (gather "\x7d" property)
  let (valid, covers) := properties.foldl joinElement (true, 0)
  return .pattern valid covers

def decoratedClass : Parser Unit := do
  decorators
  discard classLiteral

def wordExpression : Parser Form := do
  let t ← current
  match if t.marred then "" else t.text with
  | "this" | "null" | "true" | "false" => other advance
  | "function" => other (discard (functionLiteral false false))
  | "class" => other (discard classLiteral)
  | text =>
    if ← eatIf (pure (text == "async") <&&> nextFunction) then
      other (discard (functionLiteral true false))
    else .name <$> name

def primary : Parser Form := do
  let t ← current
  match t.kind with
  | .word => wordExpression
  | .number | .text => other advance
  | .template _ => other (template false)
  | .mark =>
    match t.text with
    | "(" => Form.marked <$> parens (rule .expression)
    | "[" => array
    | "\x7b" => object
    | "/" | "/=" => regex
    | "@" => other decoratedClass
    | _ => failure
  | _ => failure

/-! ### Members and calls -/

def callArguments : Parser Unit :=
  discard <| parens <| gather ")" do
    pass "..."
    assigned

def subscript : Parser Unit := squares (skip .expression)

def operatorMarks : List String := [
  ",", "=", "+=", "-=", "*=", "/=", "%=", "**=", "&=", "|=", "^=", "&&=", "||=", "??=", "?", "??",
  "||", "&&", "|", "^", "&", "==", "!=", "===", "!==", "<", ">", "<=", ">=", "+", "-", "*", "/",
  "%", "**"]

def beginsExpression (t : Token) : Bool :=
  match t.kind with
  | .word =>
    Token.isName t || ["this", "null", "true", "false", "function", "class", "new", "super",
      "delete", "typeof", "void", "import"].contains t.text
  | .number | .text | .template _ | .privateName => true
  | .mark =>
    ["(", "[", "\x7b", "+", "-", "~", "!", "++", "--", "/", "/=", "<", "@"].contains t.text
  | .done => false

def followsTypeArguments (t : Token) : Bool :=
  if t.isMark "(" || (match t.kind with | .template _ => true | _ => false) then true
  else if t.isMark "<" || t.isMark ">" || t.isMark "+" || t.isMark "-" then false
  else
    t.newline || (t.kind == .mark && operatorMarks.contains t.text) ||
      ["in", "instanceof", "as", "satisfies"].contains t.text || !beginsExpression t

/-- Types in angle brackets after an expression, if what follows allows to read them so.  An `=`
right after the closing bracket makes it a comparison. -/
def expressionTypeArguments : Parser Bool :=
  seesTyped "<" <&&> do
    let read ← attempt do
      openTypeArguments
      require ((← get).after.head? != some '=')
      expect ">"
      require (followsTypeArguments (← current))
    return read.isSome

structure Suffixed where
  form : Form
  isChain : Bool

def Suffixed.become (x : Suffixed) (form : Form) : Suffixed :=
  { x with form := if x.isChain then .chain else form }

def chainLink : Parser Unit := do
  if ← sees "(" then callArguments
  else if ← sees "[" then subscript
  else if ← seesTyped "<" then
    typeArguments
    callArguments
  else memberName

/-- One member, call, template or mark after an expression.  Calls are left out in the callee of
`new`. -/
def suffix (calls : Bool) (x : Suffixed) : Parser (Option Suffixed) := do
  let t ← current
  match t.kind with
  | .template _ =>
    require !x.isChain
    template true
    return some (x.become .other)
  | .mark =>
    match t.text with
    | "." =>
      advance
      memberName
      return some (x.become .target)
    | "[" =>
      subscript
      return some (x.become .target)
    | "?." =>
      require calls
      advance
      chainLink
      return some ⟨.chain, true⟩
    | "(" =>
      if !calls then return none
      callArguments
      return some (x.become .other)
    | "!" =>
      if t.newline || !(← typesAllowed) then return none
      advance
      return some { x with form := x.form.marked }
    | _ =>
      if ← expressionTypeArguments then return some (x.become .other)
      return none
  | _ => return none

def construct : Parser Form := do
  expectWord "new"
  if ← eat "." then return ← other (expectWord "target")
  let isImport ← seesWord "import"
  require !(isImport && (← nextMark "("))
  let base ←
    if ← seesWord "new" then rule .construct
    else if isImport then other do
      advance
      expect "."
      expectWord "meta"
    else if ← eatWord "super" then other do require (← seesAny [".", "["])
    else primary
  discard (iterating ⟨base, false⟩ (suffix false))
  require !(← sees "?.")
  if ← sees "(" then callArguments
  return .other

def importExpression : Parser Unit := do
  expectWord "import"
  if ← eat "." then
    if ← eatWord "meta" then return
    require (← seesAnyWord ["defer", "source"])
    advance
  let parts ← parens (gatherSome ")" assigned)
  require (parts.length ≤ 2)

def callee : Parser Form := do
  let base ←
    if ← seesWord "new" then construct
    else if ← eatWord "super" then other do require (← seesAny ["(", ".", "["])
    else if ← seesWord "import" then other importExpression
    else primary
  return (← iterating ⟨base, false⟩ (suffix true)).form

/-! ### Operators with one operand -/

/-- An operand, which no power may follow. -/
def operand : Parser Form := do
  let form ← rule .unary
  require !(← sees "**")
  return form

def seesAwait : Parser Bool :=
  seesWord "await" <&&> do
    if (← get).context.awaits then return true
    lookNext fun t => !t.newline &&
      (t.kind == .word && !(["in", "of", "instanceof", "as", "satisfies"].contains t.text) ||
        t.kind == .number || t.kind == .text)

def updated : Parser Form := do
  let form ← rule .callee
  if ← eatIf (seesAny ["++", "--"] <&&> sameLine) then
    require form.isSimple
    return .other
  else return form

def unary : Parser Form := do
  if (← seesAny ["+", "-", "~", "!"]) || (← seesAnyWord ["delete", "typeof", "void"]) then
    advance
    other (discard operand)
  else if ← eatAny ["++", "--"] then
    require (← rule .unary).isSimple
    return .other
  else if ← seesAwait then
    require (← get).context.awaits
    advance
    other (discard operand)
  else if ← sees "<" then
    if ← markupAllowed then
      let form ← rule .element
      advance
      return form
    require (← typesAllowed)
    enclosed "<" ">" aType
    return (← operand).marked
  else updated

/-! ### Operators with two operands -/

def powerOf (t : Token) : Nat :=
  match t.kind with
  | .mark =>
    match t.text with
    | "??" => 1
    | "||" => 2
    | "&&" => 3
    | "|" => 4
    | "^" => 5
    | "&" => 6
    | "==" | "!=" | "===" | "!==" => 7
    | "<" | ">" | "<=" | ">=" => 8
    | "<<" | ">>" | ">>>" => 9
    | "+" | "-" => 10
    | "*" | "/" | "%" => 11
    | "**" => 12
    | _ => 0
  | .word =>
    if t.marred then 0 else if t.text == "instanceof" || t.text == "in" then 8 else 0
  | _ => 0

/-- The form of two operands with an operator between them.  `??` is not to be mixed with `||` and
`&&`. -/
def joined : Nat → Form → Form → Option Form
  | 1, .logical, _ | 1, _, .logical => none
  | 1, _, _ => some .coalesce
  | 2, .coalesce, _ | 2, _, .coalesce | 3, .coalesce, _ | 3, _, .coalesce => none
  | 2, _, _ | 3, _, _ => some .logical
  | _, _, _ => some .other

/-- One operator and its right operand, if it binds tighter than `power`.  A type may be attached
by `as` or `satisfies`. -/
def operation (power : Nat) (left : Form) : Parser (Option Form) := do
  let isCast := (← seesAnyWord ["as", "satisfies"]) && (← typesAllowed) && (← sameLine)
  if isCast && power < 8 then
    advance
    unless ← eatWord "const" do innerType
    return some left.marked
  joinAngles
  let t ← current
  let p := powerOf t
  let allowed := !(t.isWord "in") || (← get).context.inAllowed
  if allowed && (p > power || (p == 12 && power == 12)) then
    advance
    return some (← joined p left (← rule (.binary p)))
  else return none

def binary (power : Nat) : Parser Form := do
  let first ←
    if (← current).kind == .privateName then other do
      advance
      require (power < 8 && (← seesWord "in") && (← get).context.inAllowed)
      advance
      skip (.binary 8)
    else rule .unary
  iterating first (operation power)

/-! ### Assignments -/

def assignmentMarks : List String := [
  "+=", "-=", "*=", "/=", "%=", "**=", "<<=", ">>=", ">>>=", "&=", "|=", "^=", "&&=", "||=", "??="]

def yieldExpression : Parser Unit := do
  advance
  let t ← current
  let ends := t.newline || t.kind == .done ||
    (t.kind == .mark && [")", "]", "\x7d", ",", ";", ":"].contains t.text) ||
    t.isWord "in" || t.isWord "of"
  unless ends do
    pass "*"
    assigned

/-- Whether a function with type parameters may start here.  Where markup is allowed, only some
beginnings are not markup. -/
def seesGenericArrow : Parser Bool :=
  seesTyped "<" <&&> do
    if !(← markupAllowed) then return true
    look do
      advance
      passWord "const"
      discard word
      if ← eatWord "extends" then return !(← seesAny ["=", ">", "/"])
      seesAny [",", "="]

/-- An arrow function with its parameters in brackets, if one starts here.  If `returnType` is
false, one whose result has a type needs a colon after it. -/
def arrowFunction (returnType isAsync : Bool) : Parser Bool := do
  let whole ← attempt do
    let colon := (← arrowHead isAsync) && !returnType
    if colon then
      arrowBody isAsync
      require (← sees ":")
    return colon
  if whole == some false then arrowBody isAsync
  return whole.isSome

def nameArrow : Parser Bool :=
  seesName <&&> nextMark "=>" <&&> do
    discard name
    require (← sameLine)
    arrowBody false
    return true

def asyncArrow (returnType : Bool) : Parser Bool := do
  let simple ← look do
    advance
    require (← sameLine)
    discard word
    return (← sees "=>") && (← sameLine)
  if simple then
    advance
    within ({ · with awaits := true }) (discard name)
    arrowBody true
    return true
  else if ← lookNext fun next => !next.newline && (next.isMark "(" || next.isMark "<") then
    let start ← get
    advance
    if ← arrowFunction returnType true then return true
    set start
    return false
  else nameArrow

def anyArrow (returnType : Bool) : Parser Bool := do
  if (← sees "(") || (← seesGenericArrow) then arrowFunction returnType false
  else if ← seesWord "async" then asyncArrow returnType
  else nameArrow

def assignment (returnType : Bool) : Parser Form := do
  if (← seesWord "yield") && (← get).context.yields then return ← other yieldExpression
  if ← anyArrow returnType then return .other
  let form ← rule (.binary 0)
  joinAngles
  if ← eat "=" then
    assignTo form
    skip (.assignment returnType)
    return .assignment
  else if ← eatAny assignmentMarks then
    require form.isSimple
    other (skip (.assignment returnType))
  else if ← eat "?" then
    within ({ · with inAllowed := true }) (skip (.assignment !(← typesAllowed)))
    expect ":"
    other (skip (.assignment returnType))
  else return form

def expression : Parser Form := do
  let form ← rule (.assignment true)
  if ← sees "," then other (repeatIf (eat ",") assigned) else return form

end ReactiveMarkup.Script.Grammar
