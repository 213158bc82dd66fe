/-
The keys under which an element is given its properties.

* `Key.ofText`: what a key asks for;
* `delegatedNames`: the events that are listened for once for a whole document.
-/
import ReactiveMarkup.Text.Chars

namespace ReactiveMarkup.Dom

inductive Key where
  | children
  | style
  | event (name : String)
  | attribute (name : String)
  deriving DecidableEq, Repr

/-- What a key asks for. The keys `@name`, `on:name` and `onName` ask for an event, named in lower
case. -/
def Key.ofText (key : String) : Key :=
  if key = "children" then .children
  else if key = "style" then .style
  else
    match key.toList with
    | '@' :: name => .event (String.ofList (name.map Text.toLower))
    | 'o' :: 'n' :: ':' :: name => .event (String.ofList (name.map Text.toLower))
    | 'o' :: 'n' :: c :: name =>
      if Text.isUpper c then .event (String.ofList ((c :: name).map Text.toLower))
      else .attribute key
    | _ => .attribute key

def delegatedNames : List String := [
  "beforeinput", "click", "dblclick", "contextmenu", "focusin", "focusout", "input", "keydown",
  "keyup", "mousedown", "mousemove", "mouseout", "mouseover", "mouseup", "pointerdown",
  "pointermove", "pointerout", "pointerover", "pointerup", "touchend", "touchmove", "touchstart"]

def isDelegatedName (name : String) : Bool := delegatedNames.contains name

end ReactiveMarkup.Dom
