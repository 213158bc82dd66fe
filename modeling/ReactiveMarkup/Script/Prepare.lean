/-
A script made ready for its component.

Imports go to the front of the module, statements about types only go away, and
calls for properties are expanded in what is left.  An import that binds types
among other names is written anew without them.  If the script is not well formed,
only the imports at the starts of lines are found.
-/
import ReactiveMarkup.Script.ImportLine
import ReactiveMarkup.Script.PropsCall
import ReactiveMarkup.Script.Grammar.Module

namespace ReactiveMarkup.Script

open Text

structure Prepared where
  imports : List String
  body : String
  deriving DecidableEq, Repr

def slice (script : List Char) (extent : Extent) : List Char :=
  (script.take extent.stop).drop extent.start

def withSemicolon (s : List Char) : String :=
  String.ofList ((s.reverse.dropWhile (· == ';')).reverse ++ [';'])

def Specifier.isType (s : Specifier) : Bool := s.kind == .named true

/-- The clause of an import without the names marked as types, if any other is left. -/
def keepClause? (script : List Char) (specifiers : List Specifier) : Option String :=
  let kept := specifiers.filter fun s => !s.isType
  let text (s : Specifier) : String := String.ofList (slice script s.extent)
  let standard := (kept.filter fun s => s.kind == .standard).getLast?.map text
  let named := (kept.filter fun s => s.kind != .standard).map text
  let braces := "\x7b " ++ ", ".intercalate named ++ " \x7d"
  match standard, named.isEmpty with
  | none, true => none
  | some name, true => some name
  | none, false => some braces
  | some name, false => some (name ++ ", " ++ braces)

/-- An import as it is kept, if it binds anything but types. -/
def keepImport? (script : List Char) (extent : Extent) (i : Import) : Option String :=
  let whole := withSemicolon (slice script extent)
  if i.isType then none
  else match i.clause with
    | none => some whole
    | some specifiers =>
      if specifiers.any Specifier.isType then
        (keepClause? script specifiers).map fun clause =>
          "import " ++ clause ++ " from " ++ String.ofList (slice script i.source) ++ ";"
      else some whole

def Item.isRemoved (item : Item) : Bool :=
  match item.kind with
  | .import _ | .typeOnly => true
  | .other => false

def between (script : List Char) : Nat → List Extent → List Char
  | offset, [] => script.drop offset
  | offset, e :: rest => slice script ⟨offset, e.start⟩ ++ between script e.stop rest

def importsOf (script : List Char) (items : List Item) : List String :=
  items.filterMap fun item =>
    match item.kind with
    | .import i => keepImport? script item.extent i
    | _ => none

def stripStatements (script : List Char) (language : String) : List String × List Char :=
  if script.all isBlank then ([], [])
  else match outline? (Dialect.ofName language) script with
    | some items =>
      (importsOf script items,
        between script 0 ((items.filter Item.isRemoved).map Item.extent))
    | none => liftImportLines script

def prepare (script language : String) : Prepared :=
  let (imports, body) := stripStatements script.toList language
  { imports, body := String.ofList (trim (expandProps body)) }

end ReactiveMarkup.Script
