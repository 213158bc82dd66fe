/-
The text of a component's module.

A module starts with the imports of the script and one from the runtime. Its
default export is a function that runs the script and builds the nodes. If
elements handle events, a call at the end has them delegated.
-/
import ReactiveMarkup.Component.Sections
import ReactiveMarkup.Output.Build
import ReactiveMarkup.Output.Draft
import ReactiveMarkup.Script.Prepare

namespace ReactiveMarkup.Output

open Text (quote)
open Template (Node plan)
open Component (Sections)

def standardRuntime : String := "tanni/runtime"

def standardName : String := "Component"

/-- What a user may choose.  `id` names the source in reports. -/
structure Options where
  id : Option String := none
  runtime : String := standardRuntime
  name : String := standardName
  deriving DecidableEq, Repr

def Options.file (options : Options) : String := options.id.getD "<anonymous>"

structure Compiled where
  code : String
  css : String
  deriving DecidableEq, Repr

def runtimeImport (runtime : String) : String :=
  "import \x7b createEffect as " ++ effectName ++ ", delegateEvents as " ++ delegateName ++
    ", mergeProps as " ++ mergeName ++ " \x7d from " ++ quote runtime ++ ";"

/-- The call that asks for events to be delegated, if there are any. -/
def delegateLines (events : List String) : List String :=
  if events.isEmpty then []
  else ["", delegateName ++ "([" ++ ", ".intercalate (events.map quote) ++ "]);"]

/-- The lines of a module up to those of its script. -/
def prologue (options : Options) (script : Script.Prepared) : List String :=
  script.imports ++
  [runtimeImport options.runtime, "",
    "export default function " ++ options.name ++ "(__props = \x7b\x7d) \x7b"] ++
  if script.body.isEmpty then [] else [script.body]

/-- The lines of a function that runs statements, after those of the script. -/
def functionDrafts (statements : List Statement) : List Draft :=
  blockDrafts statements ++ [⟨.stays, [.wording "return ", .used .root, .wording ";"]⟩]

def moduleLines (options : Options) (script : Script.Prepared) (statements : List Statement)
    (events : List String) : List String :=
  prologue options script ++ write 1 (functionDrafts statements) ++
    "\x7d" :: delegateLines events

def generate (nodes : List Node) (sections : Sections) (options : Options) :
    Except Fault Compiled := do
  let items ← plan options.file nodes
  let script := Script.prepare sections.script sections.language
  let lines := moduleLines options script (buildRoot items) (delegatedEvents nodes)
  return {
    code := "\n".intercalate lines ++ "\n"
    css := "\n\n".intercalate sections.styles }

end ReactiveMarkup.Output
