/-
From markup to meaning.

Every attribute lands in exactly one place: `tn-if`, `tn-for`, `tn-else-if` and
`tn-else` are directives, a name after `:` is bound to an expression, a name after
`@` is an event, and all others are plain.  Expressions have to be there and are
trimmed.  Of a directive given twice the last one counts.
-/
import ReactiveMarkup.Template.ForClause

namespace ReactiveMarkup.Template

open Text (trimmed isBlankText Position)

inductive Role where
  | condition
  | each
  | binding (name : String)
  | event (name : String)
  | elseIf
  | otherwise
  | plain
  deriving DecidableEq, Repr

def Role.ofName (name : String) : Role :=
  if name == "tn-if" then condition
  else if name == "tn-for" then each
  else match name.toList with
    | ':' :: rest => binding (String.ofList rest)
    | '@' :: rest => event (String.ofList rest)
    | _ =>
      if name == "tn-else-if" then elseIf
      else if name == "tn-else" then otherwise
      else plain

def requireValue (name : String) (value : Option String) (file tag : String)
    (position : Position) : Except Fault String :=
  match value with
  | some text =>
    if isBlankText text then .error ⟨.missingValue name tag, file, position, none⟩
    else .ok (trimmed text)
  | none => .error ⟨.missingValue name tag, file, position, none⟩

def requireClause (value file tag : String) (position : Position) : Except Fault ForClause :=
  match ForClause.parse? value with
  | some clause => .ok clause
  | none => .error ⟨.invalidFor tag value, file, position, some value⟩

def Head.add (file : String) (head : Head) (a : Markup.Attribute) : Except Fault Head := do
  let required := requireValue a.name a.value file head.tag head.position
  match Role.ofName a.name with
  | .condition =>
    let e ← required
    return { head with directives := { head.directives with condition := some e } }
  | .each =>
    let e ← required
    let clause ← requireClause e file head.tag head.position
    return { head with directives := { head.directives with each := some clause } }
  | .binding name =>
    let e ← required
    return { head with bindings := head.bindings ++ [⟨name, e⟩] }
  | .event name =>
    let e ← required
    return { head with events := head.events ++ [⟨name, e⟩] }
  | .elseIf =>
    let e ← required
    return { head with directives := { head.directives with elseIf := some e } }
  | .otherwise =>
    return { head with directives := { head.directives with otherwise := true } }
  | .plain => return { head with attributes := head.attributes ++ [a] }

def Head.bare (tag : Markup.Tag) : Head where
  tag := tag.name
  isComponent := Markup.isComponent tag.name
  attributes := []
  bindings := []
  events := []
  directives := {}
  position := tag.position

def Head.ofTag (file : String) (tag : Markup.Tag) : Except Fault Head :=
  tag.attributes.foldlM (Head.add file) (Head.bare tag)

mutual

def Node.ofMarkup (file : String) : Markup.Node → Except Fault Node
  | .text content => .ok (.text (Markup.segments content))
  | .element tag children => do
    let head ← Head.ofTag file tag
    let children ← lower file children
    return .element head children

def lower (file : String) : List Markup.Node → Except Fault (List Node)
  | [] => .ok []
  | node :: rest => do
    let node ← Node.ofMarkup file node
    let rest ← lower file rest
    return node :: rest

end

end ReactiveMarkup.Template
