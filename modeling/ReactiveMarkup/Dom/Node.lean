/-
Documents as trees of nodes.

The store holds all nodes, whichever tree they are in. A parent lists its
children, and a child links to its parent. Inserting a fragment inserts its
children, and leaves it empty.
-/
import ReactiveMarkup.Dom.Scalar
import ReactiveMarkup.Table
import ReactiveMarkup.Text.Chars

namespace ReactiveMarkup.Dom

abbrev NodeId := Nat

abbrev ListenerId := Nat

inductive Kind where
  | document
  | fragment
  | element
  | text
  | comment
  deriving DecidableEq, Repr

structure Listener (H : Type) where
  id : ListenerId
  event : String
  handler : H

/-- A node.  `H` is the type of what is done about an event. -/
structure Node (H : Type) where
  kind : Kind
  tag : String := ""
  data : String := ""
  attributes : Table String := []
  properties : Table Scalar := []
  style : Table String := []
  parent : Option NodeId := none
  children : List NodeId := []
  /-- The document that the node was made for. -/
  owner : Option NodeId := none
  listeners : List (Listener H) := []
  /-- What is done about an event that is listened for at the document. -/
  handlers : Table H := []
  /-- The listeners that came from properties. -/
  direct : Table ListenerId := []
  /-- Of a document, the events that are listened for once for all of it. -/
  delegated : List String := []

inductive Error where
  | emptyTemplate
  | notAChild
  | mismatch (key : String)
  deriving DecidableEq, Repr

def Error.name : Error → String
  | emptyTemplate => "EmptyTemplate"
  | notAChild => "NotAChild"
  | mismatch _ => "PropMismatch"

def Error.message : Error → String
  | emptyTemplate => "template markup produced no nodes"
  | notAChild => "reference node is not a child of this node"
  | mismatch key => "value for prop \x60" ++ key ++ "\x60 does not fit how that key is applied"

structure Store (H : Type) where
  nodes : Array (Node H) := #[]
  nextListener : ListenerId := 0

namespace Store

variable {H : Type}

def node (s : Store H) (n : NodeId) : Node H := (s.nodes[n]?).getD { kind := .fragment }

def modify (s : Store H) (n : NodeId) (f : Node H → Node H) : Store H :=
  { s with nodes := s.nodes.modify n f }

def add (s : Store H) (node : Node H) : Store H × NodeId :=
  ({ s with nodes := s.nodes.push node }, s.nodes.size)

def children (s : Store H) (n : NodeId) : List NodeId := (s.node n).children

def parent? (s : Store H) (n : NodeId) : Option NodeId := (s.node n).parent

/-! ### Moving -/

/-- The list with `n` put before `mark`, or last without a mark in it. -/
def putBefore (mark : Option NodeId) (n : NodeId) : List NodeId → List NodeId
  | [] => [n]
  | m :: rest => if mark = some m then n :: m :: rest else m :: putBefore mark n rest

def detach (s : Store H) (n : NodeId) : Store H :=
  match s.parent? n with
  | none => s
  | some p =>
    (s.modify p fun d => { d with children := d.children.erase n }).modify n
      fun d => { d with parent := none }

/-- Takes a child from its parent; nothing if it is not a child. -/
def removeChild? (s : Store H) (p n : NodeId) : Option (Store H) :=
  if (s.children p).contains n then
    some ((s.modify p fun d => { d with children := d.children.erase n }).modify n
      fun d => { d with parent := none })
  else none

def attach (s : Store H) (p : NodeId) (mark : Option NodeId) (n : NodeId) : Store H :=
  ((s.detach n).modify n fun d => { d with parent := some p }).modify p
    fun d => { d with children := putBefore mark n d.children }

def empty (s : Store H) (n : NodeId) : Store H :=
  (s.children n).foldl (fun s c => s.modify c fun d => { d with parent := none })
    (s.modify n fun d => { d with children := [] })

/-- Inserts a node, or the children of a fragment, before a child or last. -/
def insertAt (s : Store H) (p : NodeId) (mark : Option NodeId) (n : NodeId) : Store H :=
  if (s.node n).kind = .fragment then
    (s.children n).foldl (fun s c => s.attach p mark c) (s.empty n)
  else s.attach p mark n

def append (s : Store H) (p n : NodeId) : Store H := s.insertAt p none n

/-- Inserts a node, or the children of a fragment, before a node; nothing if that is no child of the
parent. -/
def insertBefore? (s : Store H) (p n mark : NodeId) : Option (Store H) :=
  if s.parent? mark = some p then some (s.insertAt p (some mark) n) else none

/-! ### Documents -/

def create (s : Store H) (document : NodeId) (kind : Kind) (tag : String := "")
    (data : String := "") : Store H × NodeId :=
  s.add { kind, tag := Text.lowered tag, data, owner := some document }

def newDocument (s : Store H) : Store H × NodeId :=
  let (s, document) := s.add { kind := .document }
  let (s, body) := s.create document .element "body"
  (s.append document body, document)

def body? (s : Store H) (document : NodeId) : Option NodeId :=
  (s.children document).find? fun n => (s.node n).tag == "body"

/-! ### What is in use -/

/-- Whether a node is held or has an ancestor that is. The number of nodes bounds the search. -/
def isAliveWithin (s : Store H) (held : List NodeId) : Nat → NodeId → Bool
  | 0, _ => false
  | fuel + 1, n =>
    held.contains n ||
      match s.parent? n with
      | none => false
      | some p => s.isAliveWithin held fuel p

/-- Whether a node is in use, given the nodes held from outside: it or a node above it is held. -/
def isAlive (s : Store H) (held : List NodeId) (n : NodeId) : Bool :=
  s.isAliveWithin held (s.nodes.size + 1) n

def parentIn? (s : Store H) (held : List NodeId) (n : NodeId) : Option NodeId :=
  (s.parent? n).filter (s.isAlive held)

def documentIn? (s : Store H) (held : List NodeId) (n : NodeId) : Option NodeId :=
  if (s.node n).kind = .document then some n else (s.node n).owner.filter (s.isAlive held)

/-! ### Attributes, properties and style -/

def elementProperties : List String := [
  "id", "className", "title", "lang", "dir", "hidden", "tabIndex", "value", "checked", "selected",
  "disabled", "readOnly", "required", "placeholder", "name", "type", "href", "src", "alt",
  "htmlFor", "textContent", "innerHTML", "multiple", "autofocus", "draggable"]

/-- Whether a node has a property.  Only elements have any. -/
def hasProperty (s : Store H) (n : NodeId) (name : String) : Bool :=
  (s.node n).kind = .element &&
    (elementProperties.contains name || (s.node n).properties.has name)

def setData (s : Store H) (n : NodeId) (data : String) : Store H :=
  s.modify n fun d => { d with data }

def setAttribute (s : Store H) (n : NodeId) (name value : String) : Store H :=
  s.modify n fun d => { d with attributes := d.attributes.put name value }

def removeAttribute (s : Store H) (n : NodeId) (name : String) : Store H :=
  s.modify n fun d => { d with attributes := d.attributes.erase name }

def setProperty (s : Store H) (n : NodeId) (name : String) (value : Scalar) : Store H :=
  s.modify n fun d => { d with properties := d.properties.put name value }

def setStyle (s : Store H) (n : NodeId) (name value : String) : Store H :=
  s.modify n fun d => { d with style := d.style.put name value }

/-- Gives an element a value under a name: as a property if the element has one of the name that is
not for accessibility or data, otherwise as an attribute. A value that counts as false takes the
attribute away. -/
def setValue (s : Store H) (n : NodeId) (name : String) (value : Scalar) : Store H :=
  let asProperty := s.hasProperty n name && !(name.startsWith "aria-" || name.startsWith "data-")
  if value.isFalsy then
    let s := s.removeAttribute n name
    if asProperty then s.setProperty n name (.text "") else s
  else if asProperty then s.setProperty n name value
  else s.setAttribute n name value.toText

/-! ### Copies -/

/-- A copy of a node alone, without what listens to events. -/
def copyNode (s : Store H) (n : NodeId) : Store H × NodeId :=
  let d := s.node n
  s.add {
    kind := d.kind
    tag := d.tag
    data := d.data
    attributes := d.attributes
    properties := d.properties
    style := d.style
    owner := d.owner }

def copyWithin : Nat → Store H → NodeId → Store H × NodeId
  | 0, s, n => s.copyNode n
  | fuel + 1, s, n =>
    let (s', m) := s.copyNode n
    ((s.children n).foldl (fun s c =>
      let (s, c) := copyWithin fuel s c
      s.append m c) s', m)

def copy (s : Store H) (n : NodeId) (deep : Bool) : Store H × NodeId :=
  if deep then copyWithin s.nodes.size s n else s.copyNode n

end Store

end ReactiveMarkup.Dom
