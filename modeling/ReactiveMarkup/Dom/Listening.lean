/-
Who listens to events at nodes.

A node has listeners, called when an event passes it. For some events there is
one listener at the document, which looks into the handlers of the nodes that
the event has passed.
-/
import ReactiveMarkup.Dom.Key
import ReactiveMarkup.Dom.Node

namespace ReactiveMarkup.Dom

namespace Store

variable {H : Type}

def addListener (s : Store H) (n : NodeId) (event : String) (handler : H) :
    Store H × ListenerId :=
  let id := s.nextListener
  ({ s.modify n (fun d => { d with listeners := d.listeners ++ [⟨id, event, handler⟩] }) with
    nextListener := id + 1 }, id)

def removeListener (s : Store H) (n : NodeId) (id : ListenerId) : Store H :=
  s.modify n fun d => { d with listeners := d.listeners.filter fun l => l.id != id }

def listenersFor (s : Store H) (n : NodeId) (event : String) : List (Listener H) :=
  (s.node n).listeners.filter fun l => l.event == event

def setHandler (s : Store H) (n : NodeId) (event : String) (handler : H) : Store H :=
  s.modify n fun d => { d with handlers := d.handlers.put event handler }

def clearHandler (s : Store H) (n : NodeId) (event : String) : Store H :=
  s.modify n fun d => { d with handlers := d.handlers.erase event }

/-- Listens at a document for an event, unless it does already. `walk` is what is done about it:
looking up the handlers of the nodes that it has passed. -/
def delegate (s : Store H) (document : NodeId) (event : String) (walk : H) : Store H :=
  if (s.node document).delegated.contains event then s
  else
    let s := s.modify document fun d => { d with delegated := d.delegated ++ [event] }
    (s.addListener document event walk).1

def disposeWithin : Nat → Store H → NodeId → Store H
  | 0, s, _ => s
  | fuel + 1, s, n =>
    let s := s.modify n fun d => { d with listeners := [], handlers := [], direct := [] }
    (s.children n).foldl (disposeWithin fuel) s

def dispose (s : Store H) (n : NodeId) : Store H := disposeWithin (s.nodes.size + 1) s n

def removeDirect (s : Store H) (n : NodeId) (event : String) : Store H :=
  match (s.node n).direct.get? event with
  | some id => s.removeListener n id
  | none => s

/-- Gives an element what it does about an event. One that is listened for at the document gets a
handler; `document` is the document, if still in use, and `walk` what is done there. Any other gets
a listener, in place of an earlier one from properties. -/
def setEvent (s : Store H) (n : NodeId) (document : Option NodeId) (event : String)
    (handler walk : H) : Store H :=
  if isDelegatedName event then
    let s := s.setHandler n event handler
    match document with
    | some document => s.delegate document event walk
    | none => s
  else
    let (s, id) := (s.removeDirect n event).addListener n event handler
    s.modify n fun d => { d with direct := d.direct.put event id }

def removeEvent (s : Store H) (n : NodeId) (event : String) : Store H :=
  (s.removeDirect n event).clearHandler n event

end Store

structure Event where
  name : String
  target : NodeId
  current : Option NodeId := none
  stopped : Bool := false
  prevented : Bool := false
  deriving DecidableEq, Repr

end ReactiveMarkup.Dom
