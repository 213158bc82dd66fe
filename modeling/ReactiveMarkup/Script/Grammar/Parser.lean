/-
Reading a script token by token.

A parser either fails, and then the script is not well formed, or goes on with a
new state.  The rules of the grammar refer to each other in circles, so each is given
the others (`Rules`): a rule asks for a `Goal` and learns the `Form` of what was read.
The circle is closed where the whole grammar is at hand.
-/
import ReactiveMarkup.Script.Token

namespace ReactiveMarkup.Script.Grammar

structure Context where
  inAllowed : Bool := true
  yields : Bool := false
  awaits : Bool := true
  returns : Bool := false
  ambient : Bool := false
  conditionals : Bool := true

/-- Where a parser is.  `covers` counts the properties `a = b` in object literals that are only
right if the literal turns out to be a pattern. -/
structure State where
  dialect : Dialect
  context : Context
  token : Token
  after : List Char
  previousStop : Nat
  covers : Nat

inductive Goal where
  | expression
  | assignment (returnType : Bool)
  | binary (power : Nat)
  | unary
  | callee
  | construct
  | element
  | statement (alone : Bool)
  | block
  | items
  | type
  | binding

/-- What a rule has read, as far as others need to know.  Expressions: a name, another target of an
assignment, a literal that may be a pattern (with the number of its properties `a = b`), an
assignment, a chain of `||` and `&&`, a chain of `??`, a chain with `?.`, or something else.
Bindings: the names they bind. -/
inductive Form where
  | name (text : String)
  | target
  | pattern (valid : Bool) (covers : Nat)
  | assignment
  | logical
  | coalesce
  | chain
  | bound (names : List String)
  | other

abbrev Rules := Goal → StateT State Option Form

abbrev Parser := ReaderT Rules (StateT State Option)

def rule (goal : Goal) : Parser Form := fun rules => rules goal

def skip (goal : Goal) : Parser Unit := discard (rule goal)

def other (p : Parser Unit) : Parser Form := do
  p
  return .other

/-! ### Tokens -/

def current : Parser Token := do return (← get).token

def advance : Parser Unit := do
  let s ← get
  let (token, after) ← Token.next? s.token.stop s.after
  set { s with token, after, previousStop := s.token.stop }

def sees (mark : String) : Parser Bool := do return (← current).isMark mark

def seesWord (word : String) : Parser Bool := do return (← current).isWord word

def seesAny (marks : List String) : Parser Bool := do
  let t ← current
  return t.kind == .mark && marks.contains t.text

def seesAnyWord (words : List String) : Parser Bool := do
  let t ← current
  return t.kind == .word && !t.marred && words.contains t.text

def sameLine : Parser Bool := do return !(← current).newline

/-- Takes a token if a test holds. -/
def eatIf (test : Parser Bool) : Parser Bool := do
  let holds ← test
  if holds then advance
  return holds

def eat (mark : String) : Parser Bool := eatIf (sees mark)

def eatAny (marks : List String) : Parser Bool := eatIf (seesAny marks)

def eatWord (word : String) : Parser Bool := eatIf (seesWord word)

def pass (mark : String) : Parser Unit := discard (eat mark)

def passWord (word : String) : Parser Unit := discard (eatWord word)

def require (condition : Bool) : Parser Unit := if condition then pure () else failure

def expect (mark : String) : Parser Unit := do require (← eat mark)

def expectWord (word : String) : Parser Unit := do require (← eatWord word)

def typesAllowed : Parser Bool := do return (← get).dialect.types

def markupAllowed : Parser Bool := do return (← get).dialect.markup

/-- Whether a mark is here that has to do with types. -/
def seesTyped (mark : String) : Parser Bool := typesAllowed <&&> sees mark

/-! ### Combinations -/

def look (p : Parser Bool) : Parser Bool := fun rules s =>
  match p rules s with
  | some (b, _) => some (b, s)
  | none => some (false, s)

def lookNext (p : Token → Bool) : Parser Bool :=
  look do
    advance
    return p (← current)

def nextMark (mark : String) : Parser Bool := lookNext (·.isMark mark)

/-- Tries a parser and stays in place if it fails. -/
def attempt {α : Type} (p : Parser α) : Parser (Option α) := fun rules s =>
  match p rules s with
  | some (a, s) => some (some a, s)
  | none => some (none, s)

/-- Repeats a step until it says that it is done, at most `fuel` times. -/
def iterateFor {α : Type} (step : α → Parser (Option α)) : Nat → α → Parser α
  | 0, _ => failure
  | fuel + 1, a => do
    match ← step a with
    | some b => iterateFor step fuel b
    | none => return a

/-- Repeats a step until it says that it is done.  Steps read at least one character each. -/
def iterating {α : Type} (a : α) (step : α → Parser (Option α)) : Parser α := do
  iterateFor step ((← get).after.length + 3) a

/-- Repeats a parser as long as a test holds before it. -/
def repeatIf (test : Parser Bool) (p : Parser Unit) : Parser Unit :=
  iterating () fun _ => do
    if ← test then some <$> p else return none

def eatAll (test : Parser Bool) : Parser Unit := repeatIf (eatIf test) (pure ())

def upTo (closing : String) (p : Parser Unit) : Parser Unit :=
  repeatIf (not <$> sees closing) p

/-- Items with commas between them and perhaps one at the end, up to a closing mark. -/
def gather {α : Type} (closing : String) (item : Parser α) : Parser (List α) := do
  let (items, _) ← iterating (([], true) : List α × Bool) fun (items, more) => do
    if !more || (← sees closing) then return none
    let a ← item
    return some (a :: items, ← eat ",")
  require (← sees closing)
  return items.reverse

def gatherSome {α : Type} (closing : String) (item : Parser α) : Parser (List α) := do
  require !(← sees closing)
  gather closing item

def within {α : Type} (change : Context → Context) (p : Parser α) : Parser α := do
  let old := (← get).context
  modify ({ · with context := change old })
  let a ← p
  modify ({ · with context := old })
  return a

/-- Inside of brackets everything is allowed again. -/
def bracketed {α : Type} (p : Parser α) : Parser α :=
  within ({ · with inAllowed := true, conditionals := true }) p

def enclosed {α : Type} (opening closing : String) (p : Parser α) : Parser α := do
  expect opening
  let a ← bracketed p
  expect closing
  return a

def parens {α : Type} (p : Parser α) : Parser α := enclosed "(" ")" p

def squares {α : Type} (p : Parser α) : Parser α := enclosed "[" "]" p

def braces {α : Type} (p : Parser α) : Parser α := enclosed "\x7b" "\x7d" p

/-- Ends a statement: by a semicolon, before a closing brace, at the end, or at the end of a
line. -/
def endStatement : Parser Unit := do
  let t ← current
  unless ← eat ";" do require (t.isMark "\x7d" || t.kind == .done || t.newline)

/-! ### Words -/

def reservedWords : List String := [
  "break", "case", "catch", "class", "const", "continue", "debugger", "default", "delete", "do",
  "else", "enum", "export", "extends", "false", "finally", "for", "function", "if", "import", "in",
  "instanceof", "new", "null", "return", "super", "switch", "this", "throw", "true", "try",
  "typeof", "var", "void", "while", "with"]

def Token.isName (t : Token) : Bool := t.kind == .word && !reservedWords.contains t.text

def Token.beginsKey (t : Token) : Bool :=
  t.kind == .word || t.kind == .text || t.kind == .number || t.kind == .privateName ||
    t.isMark "["

def seesName : Parser Bool := do
  let t ← current
  let c := (← get).context
  return Token.isName t && !(t.text == "yield" && c.yields) && !(t.text == "await" && c.awaits)

def word : Parser String := do
  let t ← current
  require (t.kind == .word)
  advance
  return t.text

def name : Parser String := do
  require (← seesName)
  word

def optionalName : Parser (Option String) := do
  if ← seesName then some <$> name else return none

def nextName : Parser Bool := lookNext fun t => Token.isName t && !t.newline

def nextFunction : Parser Bool := lookNext fun t => t.isWord "function" && !t.newline

def memberName : Parser Unit := do
  let t ← current
  require (t.kind == .word || t.kind == .privateName)
  advance

/-! ### Joining angle brackets -/

/-- The operator that starts with an angle bracket, given what follows the bracket. -/
def angleOperator (mark : String) (after : List Char) : String :=
  if mark == "<" then
    match after with
    | '<' :: '=' :: _ => "<<="
    | '<' :: _ => "<<"
    | '=' :: _ => "<="
    | _ => "<"
  else
    match after with
    | '>' :: '>' :: '=' :: _ => ">>>="
    | '>' :: '>' :: _ => ">>>"
    | '>' :: '=' :: _ => ">>="
    | '>' :: _ => ">>"
    | '=' :: _ => ">="
    | _ => ">"

/-- Joins an angle bracket with the marks that follow it to the longest operator. -/
def joinAngles : Parser Unit := modify fun s =>
  if s.token.isMark "<" || s.token.isMark ">" then
    let operator := angleOperator s.token.text s.after
    let more := operator.length - 1
    { s with
      token := { s.token with text := operator, stop := s.token.stop + more }
      after := s.after.drop more }
  else s

end ReactiveMarkup.Script.Grammar
