/-
Reading HTML.

* `parse`: the trees that a text stands for.
-/
import ReactiveMarkup.Html.Rules

namespace ReactiveMarkup.Html

open Text

def takeAll : List Token → Build Unit
  | [] => return ()
  | token :: rest => do take token; takeAll rest

def Builder.inForeign (b : Builder) : Bool :=
  match b.name? b.current with
  | some (.html, _) | none => false
  | _ => true

/-- Reads a text to its end. Each turn reads some of it, so its length bounds the turns. -/
def readAll : Nat → List Char → Build Unit
  | 0, _ | _, [] => take .finish
  | fuel + 1, s => do
    let b ← get
    let (tokens, rest) := Token.next b.content b.inForeign s
    takeAll tokens
    readAll fuel rest

def Tree.isBlankText : Tree → Bool
  | .text data => Text.isBlankText data
  | _ => false

/-- The trees that a text stands for, without the `html`, `head` and `body` elements and blank texts
between trees. -/
def parse (text : String) : List Tree :=
  let s := clean text.toList
  ((readAll s.length s).run {}).2.store.forest.filter fun t => !t.isBlankText

end ReactiveMarkup.Html
