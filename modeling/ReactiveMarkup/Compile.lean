/-
From a component file to its module.

* `compileSource`: the stages one after the other;
* `compile`: the same, with faults told as reports.
-/
import ReactiveMarkup.Output.Module
import ReactiveMarkup.Template.Lowering

namespace ReactiveMarkup

open Component (Sections)
open Output (Options Compiled)

def compileSource (source : String) (options : Options) : Except Fault Compiled := do
  let sections ← Sections.ofText options.file source
  let markup ← Markup.parse options.file sections.origin sections.template
  let nodes ← Template.lower options.file markup
  Output.generate nodes sections options

def compile (source : String) (options : Options) : Except Report Compiled :=
  (compileSource source options).mapError Fault.report

end ReactiveMarkup
