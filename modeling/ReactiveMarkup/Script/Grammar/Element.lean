/-
Markup inside of scripts.

Between the tags of an element, text is not read as tokens but as it stands.  An
element is therefore read up to the `>` that ends it without going on, and its
surroundings say how to go on from there.
-/
import ReactiveMarkup.Script.Grammar.Expression

namespace ReactiveMarkup.Script.Grammar

open Text (cut?)

def extendWord : Parser Unit := modify fun s =>
  let isPart (c : Char) : Bool := Text.continuesName c || c == '-'
  let more := s.after.takeWhile isPart
  { s with
    token := { s.token with
      text := s.token.text ++ String.ofList more, stop := s.token.stop + more.length }
    after := s.after.dropWhile isPart }

def hyphenName : Parser String := do
  require ((← current).kind == .word)
  extendWord
  word

def elementName : Parser String := do
  let first ← hyphenName
  if ← eat ":" then return first ++ ":" ++ (← hyphenName)
  iterating first fun text => do
    if ← eat "." then return some (text ++ "." ++ (← hyphenName))
    return none

/-- Goes on from `=` to the value of an attribute.  Between quotes everything stands for itself. -/
def advanceToValue : Parser Unit := do
  let s ← get
  match ← skipGap? .between s.token.stop false s.after with
  | (offset, newline, c :: rest) =>
    if c = '\"' || c = '\'' then
      let (inside, after) ← cut? [c] rest
      set { s with
        token := ⟨.text, "", false, newline, offset, offset + inside.length + 2⟩
        after
        previousStop := s.token.stop }
    else advance
  | _ => failure

def elementAttribute : Parser Unit := do
  if ← sees "\x7b" then
    braces do
      expect "..."
      assigned
  else
    discard hyphenName
    if ← eat ":" then discard hyphenName
    if ← sees "=" then
      advanceToValue
      if (← current).kind == .text then advance
      else if ← sees "\x7b" then braces assigned
      else
        skip .element
        advance

/-- Makes a mark the current token, given the text that starts with it. -/
def placeMark (offset : Nat) (s : List Char) : Parser Unit :=
  match s with
  | c :: rest => modify fun st => { st with
      token := ⟨.mark, c.toString, false, false, offset, offset + 1⟩
      after := rest
      previousStop := st.token.stop }
  | [] => failure

/-- The content of an element, from its `>` on, up to the `<` of its closing tag. -/
def elementContent : Parser Unit :=
  iterating () fun _ => do
    let s ← get
    let isText (c : Char) : Bool := c != '{' && c != '<' && c != '>' && c != '}'
    let text := s.after.takeWhile isText
    placeMark (s.token.stop + text.length) (s.after.dropWhile isText)
    if ← sees "<" then
      if ← nextMark "/" then return none
      skip .element
    else
      expect "\x7b"
      if ← eat "..." then bracketed assigned
      else unless ← sees "\x7d" do bracketed (skip .expression)
      require (← sees "\x7d")
    return some ()

def optionalElementName : Parser String := do
  if ← sees ">" then return "" else elementName

/-- An element or a group of elements, up to the `>` that ends it without going on. -/
def element : Parser Unit := do
  expect "<"
  let name ← optionalElementName
  unless name == "" do
    if ← seesTyped "<" then typeArguments
    repeatIf (not <$> seesAny ["/", ">"]) elementAttribute
  unless name != "" && (← eat "/") do
    require (← sees ">")
    elementContent
    expect "<"
    expect "/"
    require (name == (← optionalElementName))
  require (← sees ">")

end ReactiveMarkup.Script.Grammar
