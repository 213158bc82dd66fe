/-
Content: how it is built, put into nodes and kept up to date.

Content that is asked for at each use runs code, so building it and turning it
into nodes go through calls.
-/
import ReactiveMarkup.Program.Evaluation

namespace ReactiveMarkup.Program

open Dom (NodeId Scalar)
open Reactive (Action View)

/-! ### Built content -/

mutual

def Built.ofValue : Value → Built
  | .scalar s => .scalar s
  | .list items => .list (Built.ofValues items)

def Built.ofValues : List Value → List Built
  | [] => []
  | v :: rest => Built.ofValue v :: Built.ofValues rest

end

mutual

def Built.leaves : Built → List Built
  | .list items => Built.leavesAll items
  | leaf => [leaf]

def Built.leavesAll : List Built → List Built
  | [] => []
  | x :: rest => Built.leaves x ++ Built.leavesAll rest

end

/-- The nodes that content holds on to. -/
def Built.items (x : Built) : List Item :=
  x.leaves.filterMap fun
    | .node n => some (.node n)
    | _ => none

mutual

def Built.describe (store : Dom.Store Handler) : Built → String
  | .node n => "Node(" ++ store.describe n ++ ")"
  | .scalar s => "Scalar(" ++ s.describe ++ ")"
  | .list items => "List([" ++ ", ".intercalate (Built.describeAll store items) ++ "])"
  | .accessor .. => "Accessor(..)"

def Built.describeAll (store : Dom.Store Handler) : List Built → List String
  | [] => []
  | x :: rest => Built.describe store x :: Built.describeAll store rest

end

def Result.toContent : Result → Built
  | .content c => c
  | _ => .scalar .null

def Result.toNodes : Result → List NodeId
  | .nodes ns => ns
  | _ => []

/-! ### Nodes -/

def create (document : NodeId) (kind : Dom.Kind) (tag : String := "") (data : String := "") :
    Act NodeId := do
  let (store, n) := (← ask).store.create document kind tag data
  tell fun w => { w with store }
  return n

def change (f : Dom.Store Handler → Dom.Store Handler) : Act Unit :=
  tell fun w => { w with store := f w.store }

def nodesOfLeaves (document : NodeId) : List NodeId → List Built → Act (List NodeId)
  | found, [] => return found
  | found, .node n :: rest => nodesOfLeaves document (found ++ [n]) rest
  | found, .scalar s :: rest => do
    if s.isRenderable then
      let n ← create document .text "" s.toText
      nodesOfLeaves document (found ++ [n]) rest
    else nodesOfLeaves document found rest
  | found, .accessor env content :: rest => do
    let held := .node document :: found.map .node ++ rest.flatMap Built.items
    let built := (← perform (.build env content) held).toContent
    let more := (← perform (.nodes document built) (held ++ built.items)).toNodes
    nodesOfLeaves document (found ++ more) rest
  | found, .list _ :: rest => nodesOfLeaves document found rest

/-- The nodes of content. Nothing and truth values have none; other scalars are texts. -/
def nodesOf (document : NodeId) (x : Built) : Act (List NodeId) :=
  nodesOfLeaves document [] x.leaves

/-! ### Putting content in -/

def documentFor (n : NodeId) : Act NodeId := do
  let v ← survey
  match v.host.store.documentIn? (rootsOf v) n with
  | some document => return document
  | none =>
    let (store, document) := v.host.store.newDocument
    tell fun w => { w with store }
    return document

def splice (parent : NodeId) (mark : Option NodeId) : List NodeId → Act Unit
  | [] => return ()
  | n :: rest => do
    change fun s => s.place parent mark n
    splice parent mark rest

/-- Puts content into a node, before a mark or last. Content that is asked for is kept up to
date. -/
def insert (parent : NodeId) (x : Built) (mark : Option NodeId) (held : List Item) : Act Unit := do
  let document ← documentFor parent
  match x with
  | .accessor env content =>
    let i := (← ask).insertions.size
    tell fun w =>
      { w with insertions := w.insertions.push { parent, mark, document, env, content } }
    Action.effect (.insertion i) (Action.pure ())
  | x =>
    let held := .node parent :: .node document :: mark.toList.map .node ++ x.items ++ held
    let nodes := (← perform (.nodes document x) held).toNodes
    splice parent mark nodes

/-- The nodes that content had when it was last asked for. -/
def World.listed (w : World) (i : Nat) : List NodeId := ((w.insertions[i]?).map (·.nodes)).getD []

/-- Puts the nodes that content has now in the place of those that it had. A node that is there
again is kept as it is. -/
def swap (i : Nat) (x : Insertion) (nodes : List NodeId) : Act Unit := do
  tell fun w =>
    { w with store :=
        ((w.listed i).filter fun n => !nodes.contains n).foldl Dom.Store.discard w.store }
  splice x.parent x.mark nodes
  tell fun w => { w with insertions := w.insertions.modify i fun x => { x with nodes } }

/-- Brings content that was put in up to date. -/
def refresh (i : Nat) : Act Unit := do
  match (← ask).insertions[i]? with
  | none => return ()
  | some x =>
    let built := (← perform (.build x.env x.content)).toContent
    let nodes := (← perform (.nodes x.document built) built.items).toNodes
    swap i x nodes

/-! ### Building -/

def buildAll (env : Env) : List Built → List Content → Act (List Built)
  | built, [] => return built
  | built, c :: rest => do
    let x := (← perform (.build env c) (built.flatMap Built.items)).toContent
    buildAll env (built ++ [x]) rest

/-- Builds content for each of some values, after what is built so far. -/
def buildEach (env : Env) (c : Content) : Nat → List Built → List Value → Act (List Built)
  | _, built, [] => return built
  | i, built, v :: rest => do
    let env := { env with item := v, index := .ofNat i }
    let x := (← perform (.build env c) (built.flatMap Built.items)).toContent
    buildEach env c (i + 1) (built ++ [x]) rest

def insertAll (env : Env) (n : NodeId) : List Content → Act Unit
  | [] => return ()
  | c :: rest => do
    let x := (← perform (.build env c) [.node n]).toContent
    insert n x none []
    insertAll env n rest

def setAttributes (env : Env) (n : NodeId) : List (String × Expr) → Act Unit
  | [] => return ()
  | (k, e) :: rest => do
    let v ← eval env e
    change fun s => s.setAttribute n k v.toText
    setAttributes env n rest

def build (env : Env) : Content → Act Built
  | .node n => do
    return match (← ask).nodes.get? n with
      | some id => .node id
      | none => .scalar .null
  | .value e => return Built.ofValue (← eval env e)
  | .list items => return .list (← buildAll env [] items)
  | .accessor content => return .accessor env.later content
  | .element tag attributes children => do
    let n ← create (← ask).document .element tag
    setAttributes env n attributes
    insertAll env n children
    return .node n
  | .each e content => do
    match ← eval env e with
    | .list items => return .list (← buildEach env content 0 [] items)
    | .scalar _ => return .list []
  | .cond e yes no => do
    let c ← eval env e
    return (← perform (.build env (if c.isTruthy then yes else no))).toContent
  | .after body content => do
    discard (perform (.block env body))
    return (← perform (.build env content)).toContent

/-! ### Giving properties -/

def Gift.items : Gift → List Item
  | .children content => content.items
  | _ => []

def buildGift (env : Env) (held : List Item) : Given → Act Gift
  | .value e => return .value (← eval env e).toScalar
  | .style entries => return .style (← evalPairs env Value.toText entries)
  | .children content => return .children (← perform (.build env content) held).toContent
  | .handler body => return .handler env.later body

def buildGifts (env : Env) : List (String × Gift) → List (String × Given) →
    Act (List (String × Gift))
  | built, [] => return built
  | built, (k, given) :: rest => do
    let gift ← buildGift env (built.flatMap fun (_, g) => g.items) given
    buildGifts env (built ++ [(k, gift)]) rest

/-- Gives a node something under a key; an error if the two do not fit. -/
def apply (n : NodeId) (key : String) (gift : Gift) (held : List Item) :
    Act (Except Dom.Error Unit) := do
  match Dom.Key.ofText key, gift with
  | .children, .children content => insert n content none held; return .ok ()
  | .children, .value s => insert n (.scalar s) none held; return .ok ()
  | .style, .style entries =>
    change fun s => entries.foldl (fun s (k, v) => s.setStyle n k v) s
    return .ok ()
  | .style, .value v => change fun s => s.setValue n "style" v; return .ok ()
  | .event name, .handler env body =>
    let v ← survey
    let document := v.host.store.documentIn? (rootsOf v) n
    change fun s => s.setEvent n document name (.block env body) (.walk name)
    return .ok ()
  | .event name, .value .null => change fun s => s.removeEvent n name; return .ok ()
  | .attribute name, .value v => change fun s => s.setValue n name v; return .ok ()
  | _, _ => return .error (.mismatch key)

def applyAll (n : NodeId) : List (String × Gift) → Act (Except Dom.Error Unit)
  | [] => return .ok ()
  | (key, gift) :: rest => do
    let held := .node n :: rest.flatMap fun (_, g) => g.items
    match ← apply n key gift held with
    | .ok _ => applyAll n rest
    | .error e => return .error e

end ReactiveMarkup.Program
