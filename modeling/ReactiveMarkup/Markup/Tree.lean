/-
Markup as a tree of elements and texts.

Tags have to nest, and a closing tag repeats the name of its opening tag
exactly. Void elements have no content, and their closing tags are ignored.
Blank texts are dropped.
-/
import ReactiveMarkup.Markup.Token

namespace ReactiveMarkup.Markup

open Text

structure Tag where
  name : String
  attributes : List Attribute
  position : Position
  deriving DecidableEq, Repr

inductive Node where
  | text (content : String)
  | element (tag : Tag) (children : List Node)

/-- Components have names that start with a capital. -/
def isComponent (tag : String) : Bool :=
  match tag.toList with
  | [] => false
  | c :: _ => isCapital c

def voidNames : List String := [
  "area", "base", "br", "col", "embed", "hr", "img", "input", "link", "meta", "source", "track",
  "wbr"]

def isVoid (tag : String) : Bool := !isComponent tag && voidNames.contains (lowered tag)

/-- An element that is still open, with the nodes before it on its level, last one first. -/
structure Open where
  tag : Tag
  before : List Node

namespace Node

/-- Builds the tree from the rest of the tokens. `level` holds the nodes of the innermost open
element so far, last one first, and `opens` the open elements, innermost first. -/
def build (file : String) (level : List Node) :
    List Open → Option Fault → List Lexeme → Except Fault (List Node)
  | opens, fault, [] =>
    match fault, opens with
    | some fault, _ => .error fault
    | none, [] => .ok level.reverse
    | none, o :: _ => .error ⟨.unclosed o.tag.name, file, o.tag.position, none⟩
  | opens, fault, lexeme :: rest =>
    match lexeme.token with
    | .comment => build file level opens fault rest
    | .text content =>
      if isBlankText content then build file level opens fault rest
      else build file (.text content :: level) opens fault rest
    | .opening name attributes selfClosing =>
      let tag : Tag := ⟨name, attributes, lexeme.position⟩
      if selfClosing || isVoid name then build file (.element tag [] :: level) opens fault rest
      else build file [] (⟨tag, level⟩ :: opens) fault rest
    | .closing name =>
      if isVoid name then build file level opens fault rest
      else match opens with
        | [] => .error ⟨.strayClosing name, file, lexeme.position, some lexeme.context⟩
        | o :: opens =>
          if o.tag.name = name then
            build file (.element o.tag level.reverse :: o.before) opens fault rest
          else
            .error ⟨.mismatchedClosing o.tag.name name, file, lexeme.position,
              some lexeme.context⟩

def ofLexemes (file : String) (lexemes : List Lexeme) (fault : Option Fault) :
    Except Fault (List Node) :=
  build file [] [] fault lexemes

end Node

def parse (file : String) (origin : Position) (text : String) : Except Fault (List Node) :=
  let (lexemes, fault) := scan file origin text.toList
  Node.ofLexemes file lexemes fault

end ReactiveMarkup.Markup
