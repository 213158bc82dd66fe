/-
Nodes as text.

* `Store.html`: a tree as HTML;
* `Store.textContent`: the text in a tree;
* `Store.describe`: a short description of a node;
* `Store.template`: a tree from HTML, to be copied.
-/
import ReactiveMarkup.Dom.Node
import ReactiveMarkup.Html.Read

namespace ReactiveMarkup.Dom

def voidTags : List String := [
  "area", "base", "br", "col", "embed", "hr", "img", "input", "link", "meta", "source", "track",
  "wbr"]

def escapeText (s : String) : String :=
  String.ofList (s.toList.flatMap fun c =>
    if c = '&' then "&amp;".toList
    else if c = '<' then "&lt;".toList
    else if c = '>' then "&gt;".toList
    else [c])

def escapeAttribute (s : String) : String :=
  String.ofList (s.toList.flatMap fun c =>
    if c = '&' then "&amp;".toList
    else if c = '\"' then "&quot;".toList
    else [c])

def attributeText (name value : String) : String :=
  " " ++ name ++ "=\"" ++ escapeAttribute value ++ "\""

namespace Store

variable {H : Type}

/-- The start tag of an element, with the style unless there is an attribute for it. -/
def startTag (d : Node H) : String :=
  let attributes := String.join (d.attributes.map fun (k, v) => attributeText k v)
  let style :=
    if d.style.isEmpty || d.attributes.has "style" then ""
    else attributeText "style" ("; ".intercalate (d.style.map fun (k, v) => k ++ ": " ++ v))
  "<" ++ d.tag ++ attributes ++ style ++ ">"

def htmlWithin (s : Store H) : Nat → NodeId → String
  | 0, _ => ""
  | fuel + 1, n =>
    let d := s.node n
    match d.kind with
    | .text => escapeText d.data
    | .comment => "<!--" ++ d.data ++ "-->"
    | .document | .fragment => String.join (d.children.map (s.htmlWithin fuel))
    | .element =>
      if voidTags.contains d.tag then startTag d
      else
        startTag d ++ String.join (d.children.map (s.htmlWithin fuel)) ++ "</" ++ d.tag ++ ">"

def html (s : Store H) (n : NodeId) : String := s.htmlWithin (s.nodes.size + 1) n

def textWithin (s : Store H) : Nat → NodeId → String
  | 0, _ => ""
  | fuel + 1, n =>
    let d := s.node n
    match d.kind with
    | .text => d.data
    | .comment => ""
    | _ => String.join (d.children.map (s.textWithin fuel))

def textContent (s : Store H) (n : NodeId) : String := s.textWithin (s.nodes.size + 1) n

def describe (s : Store H) (n : NodeId) : String :=
  let d := s.node n
  match d.kind with
  | .element => "<" ++ d.tag ++ ">"
  | .text => "#text(" ++ describeText d.data ++ ")"
  | .comment => "<!--" ++ d.data ++ "-->"
  | .fragment => "#fragment[" ++ toString d.children.length ++ "]"
  | .document => "#document"

def label (s : Store H) (n : NodeId) : String :=
  let d := s.node n
  match d.kind with
  | .element => "<" ++ d.tag ++ ">"
  | .text => "#text:" ++ d.data
  | .comment => "#comment:" ++ d.data
  | .fragment => "#fragment"
  | .document => "#document"

end Store

inductive Outline where
  | mk (label : String) (children : List Outline)

namespace Store

variable {H : Type}

def outlineWithin (s : Store H) : Nat → NodeId → Outline
  | 0, n => .mk (s.label n) []
  | fuel + 1, n => .mk (s.label n) ((s.children n).map (s.outlineWithin fuel))

def outline (s : Store H) (n : NodeId) : Outline := s.outlineWithin s.nodes.size n

/-! ### Templates -/

/-- The nodes of a finished tree, made for a document. -/
def plant (document : NodeId) : Html.Tree → Store H → Store H × NodeId
  | .text data, s => s.create document .text "" data
  | .comment data, s => s.create document .comment "" data
  | .element name attributes children, s =>
    let (s, n) := s.create document .element name
    let s := attributes.foldl (fun s (k, v) => s.setAttribute n k v) s
    (plantAll n children s, n)
where
  plantAll (n : NodeId) : List Html.Tree → Store H → Store H
    | [], s => s
    | t :: rest, s =>
      let (s, c) := plant document t s
      plantAll n rest (s.append n c)

/-- The nodes that HTML stands for, made for a document: one node, or a fragment of several. -/
def template (s : Store H) (document : NodeId) (html : String) : Except Error (Store H × NodeId) :=
  match Html.parse html with
  | [] => .error .emptyTemplate
  | [t] => .ok (plant document t s)
  | trees =>
    let (s, n) := s.create document .fragment
    .ok (plant.plantAll document n trees s, n)

end Store

end ReactiveMarkup.Dom
