import ReactiveMarkup.Project
import ReactiveMarkup.Proofs.Cache
import ReactiveMarkup.Proofs.Component.Separation
import ReactiveMarkup.Proofs.Dom.Copies
import ReactiveMarkup.Proofs.Markup.Printing
import ReactiveMarkup.Proofs.Naming
import ReactiveMarkup.Proofs.Output.Delegates
import ReactiveMarkup.Proofs.Output.Literals
import ReactiveMarkup.Proofs.Output.Updates
import ReactiveMarkup.Proofs.Program.Delegation
import ReactiveMarkup.Proofs.Program.Observing
import ReactiveMarkup.Proofs.Program.Swaps
import ReactiveMarkup.Proofs.Reactive.Attribution
import ReactiveMarkup.Proofs.Reactive.Batches
import ReactiveMarkup.Proofs.Reactive.Heights
import ReactiveMarkup.Proofs.Reactive.Memos
import ReactiveMarkup.Proofs.Script.Brackets
import ReactiveMarkup.Proofs.Script.Statements
import ReactiveMarkup.Proofs.Template.Texts
