/-
Reading `item in list` and `item, index in list`.

The two names are names of variables, `in` stands between blanks, and the list is
all that follows, however it continues.  Blanks around the whole are dropped; if
nothing but blanks follows `in`, at least two of them, the last one is the list.
-/
import ReactiveMarkup.Template.Node

namespace ReactiveMarkup.Template.ForClause

open Text

/-- The list at the end of a clause, given all that follows `in`. -/
def takeList? (s : List Char) : Option (List Char) :=
  match s with
  | [] => none
  | c :: rest =>
    if isBlank c then
      if rest.all isBlank then rest.getLast?.map ([·]) else some (trim rest)
    else none

def takeSource? (s : List Char) : Option (List Char) :=
  match s with
  | [] => none
  | c :: _ =>
    if isBlank c then (drop? ['i', 'n'] (trimStart s)).bind takeList? else none

def parse? (text : String) : Option ForClause := do
  let (item, rest) ← takeIdentifier (trimStart text.toList)
  match trimStart rest with
  | ',' :: after => do
    let (index, rest) ← takeIdentifier (trimStart after)
    let list ← takeSource? rest
    return ⟨String.ofList item, some (String.ofList index), String.ofList list⟩
  | _ => do
    let list ← takeSource? rest
    return ⟨String.ofList item, none, String.ofList list⟩

end ReactiveMarkup.Template.ForClause
