/-
Putting nodes in and taking them out.

* `Store.place`: puts a node before a mark;
* `Store.discard`: takes a node out for good.
-/
import ReactiveMarkup.Dom.Listening

namespace ReactiveMarkup.Dom.Store

variable {H : Type}

/-- Puts a node before a mark, or last if the mark is not a child. -/
def place (s : Store H) (p : NodeId) (mark : Option NodeId) (n : NodeId) : Store H :=
  match mark with
  | none => s.append p n
  | some m => (s.insertBefore? p n m).getD (s.append p n)

/-- Takes a node out of its tree, and stops all listening in it. -/
def discard (s : Store H) (n : NodeId) : Store H := (s.detach n).dispose n

end ReactiveMarkup.Dom.Store
