/-
What statements do, and what code words stand for.

A statement that needs a name that stands for nothing leaves that behind, and does
no more.
-/
import ReactiveMarkup.Program.Building

namespace ReactiveMarkup.Program

open Dom (NodeId Scalar)
open Reactive (Action View SourceId)

/-! ### Names -/

def nodeNamed (n : String) : Act (Option NodeId) := do
  match (← ask).nodes.get? n with
  | some id => return some id
  | none => log (.unbound n); return none

def withNode (n : String) (f : NodeId → Act Unit) : Act Unit := do
  match ← nodeNamed n with
  | some id => f id
  | none => return ()

def withNodes (m n : String) (f : NodeId → NodeId → Act Unit) : Act Unit := do
  let a ← nodeNamed m
  let b ← nodeNamed n
  match a, b with
  | some a, some b => f a b
  | _, _ => return ()

def markNamed : Option String → Act (Option NodeId)
  | some n => nodeNamed n
  | none => return none

def bindNode (n : String) (id : NodeId) : Act Unit :=
  tell fun w => { w with nodes := w.nodes.put n id }

def bindCell (c : String) (kind : CellKind) (source : SourceId) : Act Unit :=
  tell fun w => { w with cells := w.cells.put c { kind, source } }

def withWritable (c : String) (f : SourceId → Act Unit) : Act Unit := do
  match (← ask).cells.get? c with
  | some { kind := .signal, source } | some { kind := .pair, source } => f source
  | _ => log (.unbound c)

def withRecord (p : String) (f : Nat → Act Unit) : Act Unit := do
  match (← ask).records.get? p with
  | some record => f record
  | none => log (.unbound p)

def newRecord : Act Nat := do
  let record := (← ask).contents.size
  tell fun w => { w with contents := w.contents.push [] }
  return record

def changeRecord (record : Nat) (f : Table Accessor → Table Accessor) : Act Unit :=
  tell fun w => { w with contents := w.contents.modify record f }

/-! ### Events -/

def changeEvent (e : EventId) (f : Dom.Event → Dom.Event) : Act Unit :=
  tell fun w => { w with events := w.events.modify e f }

def handle (e : EventId) (n : NodeId) : Handler → Act Unit
  | .block env body => discard (perform (.block { env with event := some e } body) [.node n])
  | .walk name => do
    let target := ((← ask).event e).target
    discard (perform (.walk e name target) [.node n])

def handleAll (e : EventId) (n : NodeId) : List Handler → Act Unit
  | [] => return ()
  | h :: rest => do
    handle e n h
    handleAll e n rest

def parentOf (n : NodeId) : Act (Option NodeId) := do
  let v ← survey
  return v.host.store.parentIn? (rootsOf v) n

/-- Takes an event to a node, and then to its parent unless it was stopped. -/
def bubble (e : EventId) (n : NodeId) : Act Unit := do
  changeEvent e fun event => { event with current := some n }
  let w ← ask
  handleAll e n ((w.store.listenersFor n (w.event e).name).map (·.handler))
  if ((← ask).event e).stopped then return ()
  match ← parentOf n with
  | some p => discard (perform (.bubble e p))
  | none => return ()

/-- Takes an event to the handler of a node, and then to its parent unless it was stopped; not to
the document. -/
def walk (e : EventId) (name : String) (n : NodeId) : Act Unit := do
  let node := (← ask).store.node n
  if node.kind = .document then return ()
  match node.handlers.get? name with
  | some h =>
    changeEvent e fun event => { event with current := some n }
    handle e n h
    if ((← ask).event e).stopped then return ()
  | none => pure ()
  match ← parentOf n with
  | some p => discard (perform (.walk e name p))
  | none => return ()

def dispatch (n : NodeId) (name : String) : Act Unit := do
  let e := (← ask).events.size
  tell fun w => { w with events := w.events.push { name, target := n } }
  discard (perform (.bubble e n) [.event e])
  changeEvent e fun event => { event with current := none }
  log (.dispatched ((← ask).event e))

def changeCurrent (env : Env) (f : Dom.Event → Dom.Event) : Act Unit :=
  match env.event with
  | some e => changeEvent e f
  | none => return ()

/-! ### Statements -/

def exec (env : Env) : Stmt → Act Unit
  | .log es => do log (.values (← evalAll env es))
  | .eval e => discard (eval env e)
  | .cond e yes no => do
    let c ← eval env e
    discard (perform (.block env (if c.isTruthy then yes else no)))
  | .raise message => Action.raise message
  | .attempt body =>
    Action.attempt (.block env body) fun
      | .ok _ => Action.pure ()
      | .error message => log (.failed message)
  -- Sources
  | .signal c e => do
    let v ← eval env e
    Action.signal v (bindCell c .signal)
  | .pair c e => do
    let v ← eval env e
    Action.signal v (bindCell c .pair)
  | .memo c body e => Action.memo (.value env.later body e) (bindCell c .memo)
  | .effect body => Action.effect (.block env.later body) (Action.pure ())
  | .set c e => do
    let v ← eval env e
    withWritable c fun s => Action.write s v (Action.pure ())
  | .update c e =>
    withWritable c fun s =>
      Action.read s false fun old => do
        let v ← eval { env with it := old } e
        Action.write s v (Action.pure ())
  | .drop c => tell fun w => { w with cells := w.cells.erase c }
  | .batch body => Action.batch (.block env body) fun _ => Action.pure ()
  | .untrack body => Action.untrack (.block env body) fun _ => Action.pure ()
  | .cleanup body =>
    Action.cleanup (.block env.later body) fun accepted =>
      if accepted then Action.pure () else log .noComputation
  | .mount body => Action.later (.untracked env.later body) (Action.pure ())
  | .later body => Action.later (.block env.later body) (Action.pure ())
  | .flush => Action.flush fun n => log (.flushed n)
  -- Nodes
  | .element n tag => do bindNode n (← create (← ask).document .element tag)
  | .text n e => do
    let v ← eval env e
    bindNode n (← create (← ask).document .text "" v.toText)
  | .comment n e => do
    let v ← eval env e
    bindNode n (← create (← ask).document .comment "" v.toText)
  | .fragment n => do bindNode n (← create (← ask).document .fragment)
  | .newDocument d => do
    let (store, document) := (← ask).store.newDocument
    tell fun w => { w with store, document, nodes := w.nodes.put d document }
  | .dropDocument d =>
    tell fun w => { w with nodes := w.nodes.erase d, document := w.main }
  | .unbind n => tell fun w => { w with nodes := w.nodes.erase n }
  | .child new n i => withNode n fun id => do
    match ((← ask).store.children id)[i]? with
    | some c => bindNode new c
    | none => log .noChild
  | .append p n => withNodes p n fun p n => change fun s => s.append p n
  | .before p n mark => do
    let p ← nodeNamed p
    let n ← nodeNamed n
    let mark ← markNamed mark
    match p, n with
    | some p, some n =>
      match mark with
      | none => change fun s => s.append p n
      | some m =>
        match (← ask).store.insertBefore? p n m with
        | some store => tell fun w => { w with store }
        | none => log (.problem .notAChild)
    | _, _ => return ()
  | .removeChild p n => withNodes p n fun p n => do
    match (← ask).store.removeChild? p n with
    | some store => tell fun w => { w with store }
    | none => log (.problem .notAChild)
  | .remove n => withNode n fun n => change fun s => s.detach n
  | .copy new n deep => withNode n fun n => do
    let (store, m) := (← ask).store.copy n deep
    tell fun w => { w with store }
    bindNode new m
  | .dispose n => withNode n fun n => change fun s => s.dispose n
  | .setData n e => withNode n fun n => do
    let v ← eval env e
    change fun s => s.setData n v.toText
  | .setAttribute n k e => withNode n fun n => do
    let v ← eval env e
    change fun s => s.setAttribute n k v.toText
  | .removeAttribute n k => withNode n fun n => change fun s => s.removeAttribute n k
  | .setProperty n k e => withNode n fun n => do
    let v ← eval env e
    change fun s => s.setProperty n k v.toScalar
  | .setStyle n k e => withNode n fun n => do
    let v ← eval env e
    change fun s => s.setStyle n k v.toText
  | .outline n => withNode n fun n => do log (.outline ((← ask).store.outline n))
  -- Events
  | .listen n event l body => withNode n fun n => do
    let (store, id) := (← ask).store.addListener n event (.block env.later body)
    tell fun w => { w with store, listeners := w.listeners.put l id }
  | .unlisten n l => withNode n fun n => do
    let w ← ask
    match w.listeners.get? l with
    | some id =>
      change fun s => s.removeListener n id
      log (.removed ((w.store.node n).listeners.any fun x => x.id == id))
    | none => log (.removed false)
  | .handler n event body => withNode n fun n =>
    change fun s => s.setHandler n event (.block env.later body)
  | .clearHandler n event => withNode n fun n => change fun s => s.clearHandler n event
  | .delegate events => tell fun w =>
    { w with store :=
        events.foldl (fun s event => s.delegate w.document event (.walk event)) w.store }
  | .dispatch n event => withNode n fun n => dispatch n event
  | .stop => changeCurrent env fun event => { event with stopped := true }
  | .prevent => changeCurrent env fun event => { event with prevented := true }
  -- Content and properties
  | .insert p content mark => withNode p fun p => do
    let mark ← markNamed mark
    let x := (← perform (.build env content) (.node p :: mark.toList.map .node)).toContent
    insert p x mark []
  | .describeContent content => do
    let x := (← perform (.build env content)).toContent
    log (.description (x.describe (← ask).store))
  | .spread n pairs => withNode n fun n => do
    let gifts ← buildGifts env [] pairs
    match ← applyAll n gifts with
    | .ok _ => return ()
    | .error e => log (.problem e)
  | .template t html => do
    let w ← ask
    match w.store.template w.document html with
    | .ok (store, n) => tell fun w => { w with store, templates := w.templates.put t n }
    | .error e => log (.problem e)
  | .instantiate n t => do
    match (← ask).templates.get? t with
    | some root =>
      let (store, m) := (← ask).store.copy root true
      tell fun w => { w with store }
      bindNode n m
    | none => log (.unbound t)
  | .record p => do
    let record ← newRecord
    tell fun w => { w with records := w.records.put p record }
  | .putAccessor p k e => withRecord p fun record =>
    changeRecord record fun t => t.put k (.expr env.later e)
  | .putValue p k e => withRecord p fun record => do
    let v ← eval env e
    changeRecord record fun t => t.put k (.value v.toScalar)
  | .removeKey p k => withRecord p fun record => changeRecord record fun t => t.erase k
  | .merge v defaults p => do
    let pairs ← evalPairs env Value.toScalar defaults
    let record ← match (← ask).records.get? p with
      | some record => pure record
      | none => newRecord
    tell fun w => { w with views := w.views.put v { record, defaults := .ofPairs pairs } }

def execAll (env : Env) : Block → Act Unit
  | [] => return ()
  | s :: rest => do
    exec env s
    execAll env rest

/-! ### Code words -/

def silently (a : Act Unit) : Act Result := do a; return .nothing

def body : Code → Act Result
  | .block env body => silently (execAll env body)
  | .value env body e => do
    execAll env body
    return .value (← eval env e)
  | .untracked env body => Action.untrack (.block env body) Action.pure
  | .build env content => return .content (← build env content)
  | .nodes document content => return .nodes (← nodesOf document content)
  | .insertion i => silently (refresh i)
  | .bubble e n => silently (bubble e n)
  | .walk e name n => silently (walk e name n)

def language : Reactive.Language setting where
  body := body
  nothing := .nothing
  value := Result.toValue
  named w := w.cells.map fun (_, cell) => cell.source

end ReactiveMarkup.Program
