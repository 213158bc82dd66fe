/-
What code does to the world.

There are a few ways only in which code changes the world, whatever is asked of the world
otherwise.  So one pass over all code words is enough: each change that they make is one of
the moves below, and the nodes, documents and events that a move is about are known by then.
Content is built and put in by calls, so other code may run between the time that a node is
named and the time that it is put in; what is known has to last meanwhile.
-/
import ReactiveMarkup.Program.Run
import ReactiveMarkup.Proofs.Dom.Registers
import ReactiveMarkup.Proofs.Reactive.Hosts

namespace ReactiveMarkup.Program

open List

open Dom (NodeId ListenerId Scalar)
open Dom.Store (Quiet SameTrees IsDocument)
open Reactive (Action Regime SourceId)

variable {α β : Type} {R : Regime setting} {w w' : World} {n p : NodeId}

/-! ### Moves -/

/-- What code has to know before it puts nodes in, makes nodes and serves events. -/
structure Terms where
  /-- Which nodes may be put in, and have others put in. -/
  Node : World → NodeId → Prop
  /-- Which nodes may own new ones. -/
  Document : World → NodeId → Prop
  Event : EventId → Prop

variable {T : Terms}

inductive Move (T : Terms) (w : World) : World → Prop
  | name (name : String) {n : NodeId} (hn : T.Node w n) :
      Move T w { w with nodes := w.nodes.put name n }
  | unname (name : String) {document : NodeId} (hd : T.Document w document) :
      Move T w { w with nodes := w.nodes.erase name, document }
  | create {document : NodeId} (hd : T.Document w document) (kind : Dom.Kind) (tag data : String) :
      Move T w { w with store := (w.store.create document kind tag data).1 }
  | document : Move T w { w with store := w.store.newDocument.1 }
  | openDocument (name : String) : Move T w { w with
      store := w.store.newDocument.1
      document := w.store.newDocument.2
      nodes := w.nodes.put name w.store.newDocument.2 }
  | copy (n : NodeId) (deep : Bool) : Move T w { w with store := (w.store.copy n deep).1 }
  | template {html : String} {store : Dom.Store Handler} {n : NodeId} (name : String)
      (h : w.store.template w.document html = .ok (store, n)) :
      Move T w { w with store, templates := w.templates.put name n }
  | insertAt {p n : NodeId} (hp : T.Node w p) (hn : T.Node w n) (mark : Option NodeId) :
      Move T w { w with store := w.store.insertAt p mark n }
  | removeChild {p n : NodeId} {store : Dom.Store Handler}
      (h : w.store.removeChild? p n = some store) : Move T w { w with store }
  | detach (n : NodeId) : Move T w { w with store := w.store.detach n }
  /-- Attributes, properties, styles and texts. -/
  | content {store : Dom.Store Handler} (hq : Quiet w.store store) (ht : SameTrees w.store store) :
      Move T w { w with store }
  | insertion {x : Insertion} (hp : T.Node w x.parent) (hd : T.Document w x.document) :
      Move T w { w with insertions := w.insertions.push x }
  | fill (i : Nat) (nodes : List NodeId) :
      Move T w { w with insertions := w.insertions.modify i fun x => { x with nodes } }
  | dispose (n : NodeId) : Move T w { w with store := w.store.dispose n }
  | discard (ns : List NodeId) : Move T w { w with store := ns.foldl Dom.Store.discard w.store }
  | setEvent (n : NodeId) {document : Option NodeId}
      (hd : ∀ d, document = some d → T.Document w d) (event : String) (env : Env) (body : Block) :
      Move T w { w with
        store := w.store.setEvent n document event (.block env body) (.walk event) }
  | removeEvent (n : NodeId) (event : String) :
      Move T w { w with store := w.store.removeEvent n event }
  | listen (n : NodeId) (event l : String) (env : Env) (body : Block) : Move T w { w with
      store := (w.store.addListener n event (.block env body)).1
      listeners := w.listeners.put l (w.store.addListener n event (.block env body)).2 }
  | unlisten (n : NodeId) {l : String} {id : ListenerId} (h : w.listeners.get? l = some id) :
      Move T w { w with store := w.store.removeListener n id }
  | handle (n : NodeId) (event : String) (env : Env) (body : Block) :
      Move T w { w with store := w.store.setHandler n event (.block env body) }
  | unhandle (n : NodeId) (event : String) :
      Move T w { w with store := w.store.clearHandler n event }
  | delegate (events : List String) : Move T w { w with
      store := events.foldl (fun s event => s.delegate w.document event (.walk event)) w.store }
  | send (name : String) (target : NodeId) :
      Move T w { w with events := w.events.push { name, target } }
  | serve {e : EventId} (he : T.Event e) (current : Option NodeId) :
      Move T w { w with events := w.events.modify e fun event => { event with current } }
  | stop (e : EventId) :
      Move T w { w with events := w.events.modify e fun event => { event with stopped := true } }
  | prevent (e : EventId) :
      Move T w { w with events := w.events.modify e fun event => { event with prevented := true } }
  /-- All else that the world holds. -/
  | books (cells : Table Cell) (templates : Table NodeId) (records : Table Nat)
      (views : Table Overlay) (contents : Array (Table Accessor)) (log : List Entry) :
      Move T w { w with cells, templates, records, views, contents, log }

theorem Move.place (hp : T.Node w p) (hn : T.Node w n) (mark : Option NodeId) :
    Move T w { w with store := w.store.place p mark n } := by
  obtain ⟨mark', hm⟩ := w.store.place_eq p mark n
  rw [hm]
  exact .insertAt hp hn mark'

/-! ### Regimes that allow for them -/

def Built.All (P : NodeId → Prop) (x : Built) : Prop := ∀ n, Built.node n ∈ x.leaves → P n

def Terms.Result (T : Terms) (w : World) : Program.Result → Prop
  | .content x => x.All (T.Node w)
  | .nodes ns => ∀ n ∈ ns, T.Node w n
  | _ => True

def Terms.Code (T : Terms) (w : World) : Program.Code → Prop
  | .nodes document x => T.Document w document ∧ x.All (T.Node w)
  | .bubble e _ | .walk e _ _ => T.Event e
  | _ => True

/-- Which code words are kept for later. -/
def Code.Lasting : Code → Prop
  | .build .. | .nodes .. | .bubble .. | .walk .. => False
  | _ => True

/-- Whether a regime allows for all moves, and gives what has to be known for them. -/
class Allows (R : Regime setting) (T : outParam Terms) : Prop where
  code : ∀ {w code}, R.CodeFits w code ↔ T.Code w code
  result : ∀ {w r}, R.ResultFits w r ↔ T.Result w r
  kept : ∀ {code : Code}, code.Lasting → R.Kept code
  node_later : ∀ {w w' n}, R.Later w w' → T.Node w n → T.Node w' n
  document_later : ∀ {w w' d}, R.Later w w' → T.Document w d → T.Document w' d
  node_of_lt : ∀ {w : World} {n}, n < w.store.nodes.size → T.Node w n
  document_of : ∀ {w : World} {d}, w.store.IsDocument d → T.Document w d
  named : ∀ {w name n}, R.Good w → w.nodes.get? name = some n → T.Node w n
  child : ∀ {w n c}, R.Good w → c ∈ w.store.children n → T.Node w c
  copied : ∀ {w} n deep, R.Good w →
    T.Node { w with store := (w.store.copy n deep).1 } (w.store.copy n deep).2
  placed : ∀ {w x}, R.Good w → x ∈ w.insertions → T.Node w x.parent ∧ T.Document w x.document
  main : ∀ {w}, R.Good w → T.Document w w.main
  document : ∀ {w}, R.Good w → T.Document w w.document
  owner : ∀ {w held n d}, R.Good w → w.store.documentIn? held n = some d → T.Document w d
  event : ∀ {w}, R.Good w → T.Event w.events.size
  move : ∀ {w w'}, R.Good w → Move T w w' → R.Allowed w w' → R.Later w w'

/-! ### Nodes of content -/

section Content

variable {P : NodeId → Prop}

theorem Built.node_mem_leavesAll {items} :
    Built.node n ∈ Built.leavesAll items ↔ ∃ x ∈ items, Built.node n ∈ x.leaves := by
  induction items with
  | nil => simp [Built.leavesAll]
  | cons x rest ih => simp [Built.leavesAll, ih]

theorem Built.all_list {items} (h : ∀ x ∈ items, x.All P) : (Built.list items).All P := by
  intro n hn
  rw [Built.leaves, Built.node_mem_leavesAll] at hn
  obtain ⟨x, hx, hn⟩ := hn
  exact h x hx n hn

theorem Built.all_scalar (s : Scalar) : (Built.scalar s).All P :=
  fun n hn => absurd (mem_singleton.1 hn) (by simp)

mutual

theorem Built.all_ofValue : ∀ v : Value, (Built.ofValue v).All P
  | .scalar s => by
    rw [Built.ofValue]
    exact Built.all_scalar s
  | .list items => by
    rw [Built.ofValue]
    exact Built.all_list (Built.all_ofValues items)

theorem Built.all_ofValues : ∀ vs : List Value, ∀ x ∈ Built.ofValues vs, x.All P
  | [] => by simp [Built.ofValues]
  | v :: rest => by
    rw [Built.ofValues]
    exact forall_mem_cons.2 ⟨Built.all_ofValue v, Built.all_ofValues rest⟩

end

theorem Built.all_node (h : P n) : (Built.node n).All P := by
  intro m hm
  obtain rfl := Built.node.inj (mem_singleton.1 hm)
  exact h

theorem Built.all_accessor (env : Env) (content : Content) : (Built.accessor env content).All P :=
  fun n hn => absurd (mem_singleton.1 hn) (by simp)

theorem Terms.all_toContent (h : T.Result w r) : r.toContent.All (T.Node w) := by
  cases r with
  | content x => exact h
  | _ => exact Built.all_scalar _

theorem Terms.node_of_toNodes (h : T.Result w r) : ∀ n ∈ r.toNodes, T.Node w n := by
  cases r with
  | nodes ns => exact h
  | _ => exact forall_mem_nil _

end Content

/-! ### Actions -/

variable (R) in
/-- Whether an action keeps to a regime, and ends with what is asked of its result. -/
abbrev Keeps (Q : World → α → Prop) (a : Act α) (w : World) : Prop := R.Upholds Q a w

variable (R) in
/-- Whether an action keeps to a regime, wherever it starts. -/
def Harmless (a : Act α) : Prop := ∀ w : World, R.Good w → Keeps R (fun _ _ => True) a w

theorem Keeps.bind {P : World → α → Prop} {Q : World → β → Prop} (hw : R.Good w)
    (ha : Keeps R P a w) (hf : ∀ w' x, R.Later w w' → P w' x → Keeps R Q (f x) w') :
    Keeps R Q (a >>= f) w :=
  Regime.upholds_bind hw ha hf

namespace Harmless

variable {a : Act α} {f : α → Act β}

theorem keeps_bind (ha : Harmless R a) (hw : R.Good w)
    (hf : ∀ w' x, R.Later w w' → Keeps R Q (f x) w') : Keeps R Q (a >>= f) w :=
  (ha w hw).bind hw fun w' x hl _ => hf w' x hl

theorem bind (ha : Harmless R a) (hf : ∀ x, Harmless R (f x)) : Harmless R (a >>= f) :=
  fun _ hw => ha.keeps_bind hw fun w' x hl => hf x w' hl.good

theorem pure (x : α) : Harmless R (Pure.pure x) := fun _ _ => trivial

theorem discard (ha : Harmless R a) : Harmless R (discard a) := ha.bind fun _ => .pure ()

theorem read (s : SourceId) (tracked : Bool) {k : Value → Act α} (hk : ∀ v, Harmless R (k v)) :
    Harmless R (Action.read s tracked k) := fun w hw v => hk v w hw

end Harmless

theorem harmless_ask {f : World → Act α} (hf : ∀ w, Harmless R (f w)) : Harmless R (ask >>= f) :=
  fun w hw => hf w w hw

theorem harmless_survey {f : Reactive.View setting → Act α} (hf : ∀ v, Harmless R (f v)) :
    Harmless R (survey >>= f) :=
  fun w hw v _ => hf v w hw

variable {Q : World → α → Prop}

theorem keeps_ask (h : Keeps R Q (f w) w) : Keeps R Q (ask >>= f) w := h

theorem harmless_askCell (q : CellQuery) (c : String) : Harmless R (askCell q c) := by
  refine harmless_ask fun w => ?_
  cases w.cells.get? c with
  | none => exact .pure _
  | some cell =>
    cases q with
    | get | peek => exact .read _ _ .pure
    | subscribers =>
      dsimp only
      split
      · exact .pure _
      · exact harmless_survey fun _ => .pure _
    | describe => exact harmless_survey fun _ => .pure _

variable [allows : Allows R T]

include allows

variable {x : Built}

theorem Built.All.later (h : x.All (T.Node w)) (hl : R.Later w w') :
    x.All (T.Node w') := fun n hn => Allows.node_later hl (h n hn)

theorem keepFits {code} (hc : T.Code w code) (hk : code.Lasting) : R.KeepFits w code :=
  ⟨Allows.code.2 hc, Allows.kept hk⟩

variable {held : List Item}

theorem keeps_perform {code} (hc : T.Code w code) :
    Keeps R (fun w r => T.Result w r) (perform code held) w :=
  ⟨Allows.code.2 hc, fun _ _ _ hr => Allows.result.1 hr⟩

theorem harmless_perform (code : Code) (held : List Item) (hc : ∀ w, T.Code w code) :
    Harmless R (perform code held) :=
  fun w _ => ⟨Allows.code.2 (hc w), fun _ _ _ _ => trivial⟩

theorem keeps_tell (hw : R.Good w) (h : Move T w (f w)) :
    Keeps R (fun w' _ => w' = f w) (tell f) w :=
  fun ha => ⟨Allows.move hw h ha, rfl⟩

theorem keeps_move (hw : R.Good w) (h : Move T w (f w)) : Keeps R (fun _ _ => True) (tell f) w :=
  fun ha => ⟨Allows.move hw h ha, trivial⟩

theorem harmless_tell (h : ∀ w, Move T w (f w)) : Harmless R (tell f) :=
  fun w hw => keeps_move hw (h w)

theorem harmless_log (entry : Entry) : Harmless R (log entry) :=
  harmless_tell fun _ => .books _ _ _ _ _ _

theorem harmless_content (hq : ∀ s, Quiet s (f s)) (ht : ∀ s, SameTrees s (f s)) :
    Harmless R (change f) :=
  harmless_tell fun w => .content (hq w.store) (ht w.store)

theorem harmless_modify (n : NodeId) (hq : ∀ d, (f d).registers = d.registers)
    (ht : ∀ s, SameTrees s (s.modify n f)) : Harmless R (change fun s => s.modify n f) :=
  harmless_content (fun _ => Dom.Store.quiet_modify n hq) ht

/-! ### Expressions -/

theorem harmless_readProperty (record : Nat) (key : String) :
    Harmless R (readProperty record key) := by
  refine harmless_ask fun w => ?_
  split
  · rename_i accessor _
    cases accessor with
    | value s => exact .pure _
    | expr env e =>
      exact (harmless_perform (.value env [] e) [] fun _ => trivial).bind fun _ => .pure _
  · exact .pure _

theorem harmless_askRecord (q : RecordQuery) (p : String) : Harmless R (askRecord q p) := by
  refine harmless_ask fun w => ?_
  split
  · exact .pure _
  · cases q with
    | get key => exact (harmless_readProperty _ key).bind fun _ => .pure _
    | _ => exact .pure _

theorem harmless_askView (q : RecordQuery) (v : String) : Harmless R (askView q v) := by
  refine harmless_ask fun w => ?_
  split
  · exact .pure _
  · cases q with
    | get key => exact (harmless_readProperty _ key).bind fun _ => .pure _
    | _ => exact .pure _

mutual

theorem harmless_eval (env : Env) : ∀ e : Expr, Harmless R (eval env e)
  | .literal _ | .item | .index | .it => by rw [eval]; exact .pure _
  | .cell q c => by rw [eval]; exact harmless_askCell q c
  | .arith _ a b | .less a b | .equal a b => by
    rw [eval]
    exact (harmless_eval env a).bind fun _ => (harmless_eval env b).bind fun _ => .pure _
  | .not a => by rw [eval]; exact (harmless_eval env a).bind fun _ => .pure _
  | .cond c a b => by
    rw [eval]
    refine (harmless_eval env c).bind fun v => ?_
    split
    · exact harmless_eval env a
    · exact harmless_eval env b
  | .join es | .list es => by rw [eval]; exact (harmless_evalAll env es).bind fun _ => .pure _
  | .untrack e => by rw [eval]; exact fun _ _ => ⟨Allows.code.2 trivial, fun _ _ _ _ => trivial⟩
  | .tracking | .node _ _ | .key _ _ _ => by rw [eval]; exact harmless_survey fun _ => .pure _
  | .event _ | .same _ _ => by rw [eval]; exact harmless_ask fun _ => .pure _
  | .record q p => by rw [eval]; exact harmless_askRecord q p
  | .view q v => by rw [eval]; exact harmless_askView q v

theorem harmless_evalAll (env : Env) : ∀ es : List Expr, Harmless R (evalAll env es)
  | [] => by rw [evalAll]; exact .pure _
  | e :: rest => by
    rw [evalAll]
    exact (harmless_eval env e).bind fun _ => (harmless_evalAll env rest).bind fun _ => .pure _

end

theorem harmless_evalPairs (env : Env) (f : Value → α) :
    ∀ pairs : List (String × Expr), Harmless R (evalPairs env f pairs)
  | [] => .pure _
  | (_, e) :: rest =>
    (harmless_eval env e).bind fun _ => (harmless_evalPairs env f rest).bind fun _ => .pure _

/-! ### Content -/

theorem keeps_perform_build {env} {content} (hw : R.Good w)
    (hf : ∀ w' r, R.Later w w' → r.toContent.All (T.Node w') → Keeps R Q (f r) w') :
    Keeps R Q (perform (.build env content) held >>= f) w :=
  Keeps.bind hw (keeps_perform trivial)
    fun w' r hl hr => hf w' r hl (Terms.all_toContent hr)

variable {document : NodeId}

theorem keeps_perform_nodes (hw : R.Good w) (hd : T.Document w document) (hx : x.All (T.Node w))
    (hf : ∀ w' r, R.Later w w' → (∀ n ∈ r.toNodes, T.Node w' n) → Keeps R Q (f r) w') :
    Keeps R Q (perform (.nodes document x) held >>= f) w :=
  Keeps.bind hw (keeps_perform ⟨hd, hx⟩)
    fun w' r hl hr => hf w' r hl (Terms.node_of_toNodes hr)

theorem keeps_create (hw : R.Good w) (hd : T.Document w document) (kind : Dom.Kind)
    (tag data : String) : Keeps R (fun w n => T.Node w n) (create document kind tag data) w :=
  fun ha => ⟨Allows.move hw (.create hd kind tag data) ha,
    Allows.node_of_lt (R := R) (by simp)⟩

theorem keeps_documentFor (hw : R.Good w) (n : NodeId) :
    Keeps R (fun w d => T.Document w d) (documentFor n) w := by
  intro v hv
  obtain rfl := hv
  simp only [Action.bind]
  split
  · rename_i d hd
    exact Allows.owner hw hd
  · exact fun ha => ⟨Allows.move hw .document ha,
      Allows.document_of (R := R) (Dom.Store.isDocument_newDocument _)⟩

theorem keeps_splice (mark : Option NodeId) {nodes} (hw : R.Good w) (hp : T.Node w p)
    (hn : ∀ n ∈ nodes, T.Node w n) : Keeps R (fun _ _ => True) (splice p mark nodes) w := by
  induction nodes generalizing w with
  | nil => trivial
  | cons n rest ih =>
    obtain ⟨hn, hrest⟩ := forall_mem_cons.1 hn
    refine Keeps.bind hw (keeps_move hw (.place hp hn mark)) fun w' _ hl _ => ?_
    exact ih hl.good (Allows.node_later hl hp) fun m hm => Allows.node_later hl (hrest m hm)

theorem keeps_nodesOfLeaves {leaves} {found} (hw : R.Good w) (hd : T.Document w document)
    (hf : ∀ n ∈ found, T.Node w n) (hl : ∀ n, Built.node n ∈ leaves → T.Node w n) :
    Keeps R (fun w ns => ∀ n ∈ ns, T.Node w n) (nodesOfLeaves document found leaves) w := by
  induction leaves generalizing found w with
  | nil => exact hf
  | cons x rest ih =>
    have hrest : ∀ n, Built.node n ∈ rest → T.Node w n := fun n hn =>
      hl n (.tail _ hn)
    have later : ∀ w' (more : List NodeId), R.Later w w' → (∀ n ∈ more, T.Node w' n) →
        Keeps R (fun w ns => ∀ n ∈ ns, T.Node w n)
          (nodesOfLeaves document (found ++ more) rest) w' := by
      intro w' more hlater hm
      refine ih hlater.good (Allows.document_later hlater hd) ?_ fun n hn =>
        Allows.node_later hlater (hrest n hn)
      exact forall_mem_append.2 ⟨fun n hn => Allows.node_later hlater (hf n hn), hm⟩
    cases x with
    | node n => exact later w [n] (.refl hw) (forall_mem_singleton.2 (hl n (.head _)))
    | scalar s =>
      simp only [nodesOfLeaves]
      split
      · refine (keeps_create hw hd .text "" s.toText).bind hw fun w' n hlater hn => ?_
        exact later w' [n] hlater (forall_mem_singleton.2 hn)
      · exact ih hw hd hf hrest
    | list items => exact ih hw hd hf hrest
    | accessor env content =>
      refine keeps_perform_build hw fun w' r hlater hr => ?_
      have hd' := Allows.document_later hlater hd
      refine keeps_perform_nodes hlater.good hd' hr fun w'' r' hlater' hr' => ?_
      exact later w'' _ (hlater.trans hlater') hr'

theorem keeps_insert (mark : Option NodeId) (held : List Item) (hw : R.Good w) (hp : T.Node w p)
    (hx : x.All (T.Node w)) : Keeps R (fun _ _ => True) (insert p x mark held) w := by
  refine Keeps.bind hw (keeps_documentFor hw p) fun w' document hl hd => ?_
  have hp' := Allows.node_later hl hp
  split
  · exact fun ha => ⟨Allows.move hl.good (.insertion hp' hd) ha, keepFits trivial trivial,
      fun _ _ => trivial⟩
  · refine keeps_perform_nodes hl.good hd (hx.later hl) fun w'' r hl' hr => ?_
    exact keeps_splice mark hl'.good (Allows.node_later hl' hp') hr

theorem harmless_refresh (i : Nat) : Harmless R (refresh i) := by
  intro w hw
  refine keeps_ask ?_
  split
  · trivial
  · rename_i x hx
    obtain ⟨hp, hd⟩ := Allows.placed hw (Array.mem_of_getElem? hx)
    refine keeps_perform_build hw fun w₁ r hl₁ hr => ?_
    refine keeps_perform_nodes hl₁.good (Allows.document_later hl₁ hd) hr fun w₂ r' hl₂ hr' => ?_
    -- What is not there any more is taken out; then the nodes are placed.
    refine Keeps.bind hl₂.good (keeps_move hl₂.good (.discard _)) fun w₃ _ hl₃ _ => ?_
    have hp₃ := Allows.node_later (hl₁.trans (hl₂.trans hl₃)) hp
    refine Keeps.bind hl₃.good (keeps_splice x.mark hl₃.good hp₃ fun n hn =>
      Allows.node_later hl₃ (hr' n hn)) fun w₄ _ hl₄ _ => ?_
    exact keeps_move hl₄.good (.fill i _)

/-! ### Building -/

theorem keeps_buildAll (env : Env) {contents} {built} (hw : R.Good w)
    (hb : ∀ x ∈ built, x.All (T.Node w)) :
    Keeps R (fun w xs => ∀ x ∈ xs, x.All (T.Node w)) (buildAll env built contents) w := by
  induction contents generalizing built w with
  | nil => exact hb
  | cons c rest ih =>
    refine keeps_perform_build hw fun w' r hl hr => ih hl.good ?_
    exact forall_mem_append.2 ⟨fun x hx => (hb x hx).later hl, forall_mem_singleton.2 hr⟩

theorem keeps_buildEach (env : Env) (c : Content) {values} {built} (hw : R.Good w)
    (hb : ∀ x ∈ built, x.All (T.Node w)) :
    Keeps R (fun w xs => ∀ x ∈ xs, x.All (T.Node w)) (buildEach env c i built values) w := by
  induction values generalizing env i built w with
  | nil => exact hb
  | cons v rest ih =>
    refine keeps_perform_build hw fun w' r hl hr => ih _ hl.good ?_
    exact forall_mem_append.2 ⟨fun x hx => (hb x hx).later hl, forall_mem_singleton.2 hr⟩

theorem keeps_insertAll (env : Env) {contents} (hw : R.Good w) (hn : T.Node w n) :
    Keeps R (fun _ _ => True) (insertAll env n contents) w := by
  induction contents generalizing w with
  | nil => trivial
  | cons c rest ih =>
    refine keeps_perform_build hw fun w' r hl hr => ?_
    have hn' := Allows.node_later hl hn
    exact Keeps.bind hl.good (keeps_insert none [] hl.good hn' hr) fun w'' _ hl' _ =>
      ih hl'.good (Allows.node_later hl' hn')

theorem harmless_setAttribute (n : NodeId) (k v : String) :
    Harmless R (change fun s => s.setAttribute n k v) :=
  harmless_modify n (fun _ => rfl) fun s => s.sameTrees_setAttribute n k v

theorem harmless_setAttributes (env : Env) (n : NodeId) :
    ∀ attributes : List (String × Expr), Harmless R (setAttributes env n attributes)
  | [] => .pure _
  | (k, e) :: rest =>
    (harmless_eval env e).bind fun v =>
      (harmless_setAttribute n k v.toText).bind fun _ => harmless_setAttributes env n rest

theorem keeps_build (env : Env) (content : Content) (hw : R.Good w) :
    Keeps R (fun w x => x.All (T.Node w)) (build env content) w := by
  cases content with
  | node name =>
    refine keeps_ask ?_
    split
    · rename_i id hid
      exact Built.all_node (Allows.named hw hid)
    · exact Built.all_scalar _
  | value e => exact (harmless_eval env e).keeps_bind hw fun w' v _ => Built.all_ofValue v
  | list items =>
    exact Keeps.bind hw (keeps_buildAll env hw (forall_mem_nil _))
      fun w' xs _ hxs => Built.all_list hxs
  | accessor content => exact Built.all_accessor _ _
  | element tag attributes children =>
    refine keeps_ask (Keeps.bind hw (keeps_create hw (Allows.document hw) .element tag "") ?_)
    intro w₁ n hl₁ hn
    refine (harmless_setAttributes env n attributes).keeps_bind hl₁.good fun w₂ _ hl₂ => ?_
    have hn₂ := Allows.node_later hl₂ hn
    refine Keeps.bind hl₂.good (keeps_insertAll env hl₂.good hn₂) fun w₃ _ hl₃ _ => ?_
    exact Built.all_node (Allows.node_later hl₃ hn₂)
  | each e content =>
    refine (harmless_eval env e).keeps_bind hw fun w' v hl => ?_
    cases v with
    | list items =>
      exact Keeps.bind hl.good (keeps_buildEach env content hl.good (forall_mem_nil _))
        fun w'' xs _ hxs => Built.all_list hxs
    | scalar s => exact Built.all_list (forall_mem_nil _)
  | cond e yes no =>
    refine (harmless_eval env e).keeps_bind hw fun w' v hl => ?_
    exact keeps_perform_build hl.good fun w'' r _ hr => hr
  | after body content =>
    have hb := (harmless_perform (R := R) (.block env body) [] fun _ => trivial).discard
    refine hb.keeps_bind hw fun w' _ hl => ?_
    exact keeps_perform_build hl.good fun w'' r _ hr => hr

/-! ### Giving properties -/

def Gift.All (P : NodeId → Prop) : Gift → Prop
  | .children x => x.All P
  | _ => True

theorem Gift.All.later {g : Gift} (h : g.All (T.Node w)) (hl : R.Later w w') :
    g.All (T.Node w') := by
  cases g with
  | children x => exact Built.All.later h hl
  | _ => trivial

theorem keeps_buildGift (env : Env) (held : List Item) (given : Given) (hw : R.Good w) :
    Keeps R (fun w g => g.All (T.Node w)) (buildGift env held given) w := by
  cases given with
  | value e => exact (harmless_eval env e).keeps_bind hw fun _ _ _ => trivial
  | style entries =>
    exact (harmless_evalPairs env Value.toText entries).keeps_bind hw fun _ _ _ => trivial
  | children content => exact keeps_perform_build hw fun _ _ _ hr => hr
  | handler body => trivial

theorem keeps_buildGifts (env : Env) {pairs} {built} (hw : R.Good w)
    (hb : ∀ g ∈ built, g.2.All (T.Node w)) :
    Keeps R (fun w gs => ∀ g ∈ gs, g.2.All (T.Node w)) (buildGifts env built pairs) w := by
  induction pairs generalizing built w with
  | nil => exact hb
  | cons pair rest ih =>
    refine Keeps.bind hw (keeps_buildGift env _ pair.2 hw) fun w' g hl hg => ih hl.good ?_
    exact forall_mem_append.2 ⟨fun x hx => (hb x hx).later hl, forall_mem_singleton.2 hg⟩

theorem keeps_apply (key : String) (held : List Item) (hw : R.Good w) (hn : T.Node w n)
    (hg : g.All (T.Node w)) : Keeps R (fun _ _ => True) (apply n key g held) w := by
  unfold apply
  split
  · exact Keeps.bind hw (keeps_insert none held hw hn hg) fun _ _ _ _ => trivial
  · exact Keeps.bind hw (keeps_insert none held hw hn (Built.all_scalar _)) fun _ _ _ _ => trivial
  · refine (harmless_content (fun s => ?_) fun s => ?_).bind (fun _ => .pure _) w hw
    · refine .foldl (fun s _ => Dom.Store.quiet_modify n ?_) _
      exact fun _ => rfl
    · exact SameTrees.foldl (fun s _ => s.sameTrees_setStyle n _ _) _
  · exact (harmless_content (fun s => s.quiet_setValue n "style" _)
      fun s => s.sameTrees_setValue n "style" _).bind (fun _ => .pure _) w hw
  · intro v hv
    obtain rfl := hv
    exact fun ha =>
      ⟨Allows.move hw (.setEvent n (fun _ hd => Allows.owner hw hd) _ _ _) ha, trivial⟩
  · exact Keeps.bind hw (keeps_move hw (.removeEvent n _)) fun _ _ _ _ => trivial
  · exact (harmless_content (fun s => s.quiet_setValue n _ _)
      fun s => s.sameTrees_setValue n _ _).bind (fun _ => .pure _) w hw
  · trivial

theorem keeps_applyAll {gifts} (hw : R.Good w) (hn : T.Node w n)
    (hg : ∀ g ∈ gifts, g.2.All (T.Node w)) : Keeps R (fun _ _ => True) (applyAll n gifts) w := by
  induction gifts generalizing w with
  | nil => trivial
  | cons gift rest ih =>
    obtain ⟨hgift, hrest⟩ := forall_mem_cons.1 hg
    refine Keeps.bind hw (keeps_apply gift.1 _ hw hn hgift) fun w' r hl _ => ?_
    cases r with
    | ok _ => exact ih hl.good (Allows.node_later hl hn) fun g hg => (hrest g hg).later hl
    | error e => trivial

/-! ### Names -/

theorem keeps_nodeNamed (name : String) (hw : R.Good w) :
    Keeps R (fun w r => ∀ n, r = some n → T.Node w n) (nodeNamed name) w := by
  refine keeps_ask ?_
  split
  · rename_i id hid
    intro n hn
    exact Option.some_inj.1 hn ▸ Allows.named hw hid
  · exact (harmless_log _).keeps_bind hw fun _ _ _ n hn => absurd hn (by simp)

theorem keeps_markNamed (mark : Option String) (hw : R.Good w) :
    Keeps R (fun w r => ∀ n, r = some n → T.Node w n) (markNamed mark) w := by
  cases mark with
  | none => exact fun n hn => absurd hn (by simp)
  | some name => exact keeps_nodeNamed name hw

theorem harmless_withNode {name}
    (hf : ∀ w n, R.Good w → T.Node w n → Keeps R (fun _ _ => True) (f n) w) :
    Harmless R (withNode name f) := fun w hw => by
  refine Keeps.bind hw (keeps_nodeNamed name hw) fun w' r hl hr => ?_
  cases r with
  | none => trivial
  | some n => exact hf w' n hl.good (hr n rfl)

theorem harmless_withNode_of {name} (hf : ∀ n, Harmless R (f n)) :
    Harmless R (withNode name f) := harmless_withNode fun w n hw _ => hf n w hw

theorem harmless_withNodes {m n}
    (hf : ∀ w a b, R.Good w → T.Node w a → T.Node w b → Keeps R (fun _ _ => True) (f a b) w) :
    Harmless R (withNodes m n f) := fun w hw => by
  refine Keeps.bind hw (keeps_nodeNamed m hw) fun w₁ a hl₁ ha => ?_
  refine Keeps.bind hl₁.good (keeps_nodeNamed n hl₁.good) fun w₂ b hl₂ hb => ?_
  cases a with
  | none => trivial
  | some a =>
    cases b with
    | none => trivial
    | some b => exact hf w₂ a b hl₂.good (Allows.node_later hl₂ (ha a rfl)) (hb b rfl)

theorem keeps_bindNode (name : String) (hw : R.Good w) (hn : T.Node w n) :
    Keeps R (fun _ _ => True) (bindNode name n) w := keeps_move hw (.name name hn)

theorem harmless_bindCell (c : String) (kind : CellKind) (source : SourceId) :
    Harmless R (bindCell c kind source) := harmless_tell fun _ => .books _ _ _ _ _ _

theorem harmless_withWritable (hf : ∀ s, Harmless R (f s)) : Harmless R (withWritable c f) := by
  refine harmless_ask fun w => ?_
  split
  · exact hf _
  · exact hf _
  · exact harmless_log _

theorem harmless_withRecord {p} (hf : ∀ r, Harmless R (f r)) : Harmless R (withRecord p f) := by
  refine harmless_ask fun w => ?_
  split
  · exact hf _
  · exact harmless_log _

theorem harmless_newRecord : Harmless R newRecord :=
  harmless_ask fun _ => Harmless.bind (harmless_tell fun _ => .books _ _ _ _ _ _) fun _ => .pure _

theorem harmless_changeRecord (record : Nat) (f : Table Accessor → Table Accessor) :
    Harmless R (changeRecord record f) := harmless_tell fun _ => .books _ _ _ _ _ _

/-! ### Events -/

variable {e : EventId}

theorem harmless_serve (he : T.Event e) (current : Option NodeId) :
    Harmless R (changeEvent e fun event => { event with current }) :=
  harmless_tell fun _ => .serve he current

omit allows in
theorem harmless_changeCurrent (env : Env) {f : Dom.Event → Dom.Event}
    (hf : ∀ e, Harmless R (changeEvent e f)) : Harmless R (changeCurrent env f) := by
  unfold changeCurrent
  split
  · exact hf _
  · exact .pure _

theorem harmless_handle (he : T.Event e) (n : NodeId) (h : Handler) :
    Harmless R (handle e n h) := by
  cases h with
  | block env body => exact (harmless_perform (.block _ body) _ fun _ => trivial).discard
  | walk name =>
    exact harmless_ask fun w => (harmless_perform (.walk e name _) _ fun _ => he).discard

theorem harmless_handleAll (he : T.Event e) (n : NodeId) :
    ∀ hs : List Handler, Harmless R (handleAll e n hs)
  | [] => .pure _
  | h :: rest => (harmless_handle he n h).bind fun _ => harmless_handleAll he n rest

omit allows in
theorem harmless_onward (n : NodeId) {f : Option NodeId → Act Unit} (hnone : Harmless R (f none))
    (hsome : ∀ p, Harmless R (f (some p))) : Harmless R (parentOf n >>= f) := by
  refine Harmless.bind (harmless_survey fun _ => .pure _) fun r => ?_
  cases r with
  | none => exact hnone
  | some p => exact hsome p

theorem harmless_bubble (he : T.Event e) (n : NodeId) : Harmless R (bubble e n) := by
  refine (harmless_serve he _).bind fun _ => harmless_ask fun w => ?_
  refine (harmless_handleAll he n _).bind fun _ => harmless_ask fun w => ?_
  split
  · exact .pure _
  · exact harmless_onward n (.pure _) fun p =>
      (harmless_perform (.bubble e p) [] fun _ => he).discard

theorem harmless_walk (he : T.Event e) (name : String) (n : NodeId) :
    Harmless R (walk e name n) := by
  have onward (p : NodeId) : Harmless R (discard (perform (.walk e name p))) :=
    (harmless_perform (.walk e name p) [] fun _ => he).discard
  refine harmless_ask fun w => ?_
  dsimp only
  split
  · exact .pure _
  · split
    · refine (harmless_serve he _).bind fun _ => ?_
      refine (harmless_handle he n _).bind fun _ => harmless_ask fun w => ?_
      split
      · exact .pure _
      · exact harmless_onward n (.pure _) onward
    · exact harmless_onward n (.pure _) onward

theorem harmless_dispatch (n : NodeId) (name : String) : Harmless R (dispatch n name) := by
  intro w hw
  have he : T.Event w.events.size := Allows.event hw
  refine fun ha => ⟨Allows.move hw (.send name n) ha, Allows.code.2 he, fun w' _ hl _ => ?_⟩
  have hend :
    Harmless R (changeEvent w.events.size (fun event => { event with current := none }) >>=
      fun _ => ask >>= fun w' => log (.dispatched (w'.event w.events.size))) :=
    (harmless_serve he none).bind fun _ => harmless_ask fun _ => harmless_log _
  exact hend w' hl.good

/-! ### Statements -/

theorem harmless_before (env : Env) (p n : String) (mark : Option String) :
    Harmless R (exec env (.before p n mark)) := by
  intro w hw
  refine Keeps.bind hw (keeps_nodeNamed p hw) fun w₁ p hl₁ hp => ?_
  refine Keeps.bind hl₁.good (keeps_nodeNamed n hl₁.good) fun w₂ n hl₂ hn => ?_
  refine Keeps.bind hl₂.good (keeps_markNamed mark hl₂.good) fun w₃ mark hl₃ _ => ?_
  split
  · rename_i p n
    have hp : T.Node w₃ p := Allows.node_later (hl₂.trans hl₃) (hp p rfl)
    have hn : T.Node w₃ n := Allows.node_later hl₃ (hn n rfl)
    split
    · exact keeps_move hl₃.good (.insertAt hp hn none)
    · refine keeps_ask ?_
      split
      · rename_i store hs
        obtain rfl := Option.some_inj.1 (Option.ite_none_right_eq_some.1 hs).2
        exact keeps_move hl₃.good (.insertAt hp hn (some _))
      · exact harmless_log _ w₃ hl₃.good
  · trivial

theorem keeps_bindCopy (name : String) (hw : R.Good w) (n : NodeId) (deep : Bool) :
    Keeps R (fun _ _ => True) (do
      let (store, m) := (← ask).store.copy n deep
      tell fun w => { w with store }
      bindNode name m) w :=
  keeps_ask <| Keeps.bind hw (keeps_tell hw (.copy n deep)) fun _ _ hl heq =>
    keeps_bindNode name hl.good (heq ▸ Allows.copied n deep hw)

theorem keeps_bindCreated (name : String) (kind : Dom.Kind) (tag data : String) (hw : R.Good w) :
    Keeps R (fun _ _ => True) (do bindNode name (← create (← ask).document kind tag data)) w :=
  keeps_ask (Keeps.bind hw (keeps_create hw (Allows.document hw) kind tag data)
    fun _ _ hl hn => keeps_bindNode name hl.good hn)

theorem harmless_exec (env : Env) (s : Stmt) : Harmless R (exec env s) := by
  cases s with
  | log es => exact (harmless_evalAll env es).bind fun _ => harmless_log _
  | eval e => exact (harmless_eval env e).discard
  | cond e yes no =>
    refine (harmless_eval env e).bind fun _ => ?_
    exact (harmless_perform (.block env _) [] fun _ => trivial).discard
  | raise message => exact fun _ _ => trivial
  | attempt body =>
    exact fun _ _ => ⟨Allows.code.2 trivial, fun _ _ _ _ => trivial,
      fun w' m hl => harmless_log (.failed m) w' hl.good⟩
  | signal c e =>
    exact (harmless_eval env e).bind fun v w hw s => harmless_bindCell c .signal s w hw
  | pair c e =>
    exact (harmless_eval env e).bind fun v w hw s => harmless_bindCell c .pair s w hw
  | memo c body e =>
    exact fun _ _ =>
      ⟨keepFits trivial trivial, fun w' s hl => harmless_bindCell c .memo s w' hl.good⟩
  | effect body => exact fun _ _ => ⟨keepFits trivial trivial, fun _ _ => trivial⟩
  | set c e =>
    exact (harmless_eval env e).bind fun v => harmless_withWritable fun s _ _ _ _ => trivial
  | update c e =>
    refine harmless_withWritable fun s => .read s false fun old => ?_
    exact (harmless_eval _ e).bind fun v _ _ _ _ => trivial
  | drop c => exact harmless_tell fun _ => .books _ _ _ _ _ _
  | batch _ | untrack _ => exact fun _ _ => ⟨Allows.code.2 trivial, fun _ _ _ _ => trivial⟩
  | cleanup body =>
    refine fun w hw => ⟨keepFits trivial trivial, fun accepted => ?_⟩
    cases accepted with
    | true => trivial
    | false => exact harmless_log .noComputation w hw
  | mount _ | later _ => exact fun _ _ => ⟨keepFits trivial trivial, trivial⟩
  | flush => exact fun _ _ w' n hl => harmless_log (.flushed n) w' hl.good
  | element n tag => exact fun w hw => keeps_bindCreated n .element tag "" hw
  | text n e =>
    exact (harmless_eval env e).bind fun v w hw => keeps_bindCreated n .text "" v.toText hw
  | comment n e =>
    exact (harmless_eval env e).bind fun v w hw => keeps_bindCreated n .comment "" v.toText hw
  | fragment n => exact fun w hw => keeps_bindCreated n .fragment "" "" hw
  | newDocument d => exact fun w hw => keeps_ask (keeps_move hw (.openDocument d))
  | dropDocument d => exact fun w hw => keeps_move hw (.unname d (Allows.main hw))
  | unbind n => exact fun w hw => keeps_move hw (.unname n (Allows.document hw))
  | child new n i =>
    refine harmless_withNode fun w n hw _ => keeps_ask ?_
    split
    · rename_i c hc
      exact keeps_bindNode new hw (Allows.child hw (mem_of_getElem? hc))
    · exact harmless_log _ w hw
  | append p n =>
    exact harmless_withNodes fun w p n hw hp hn => keeps_move hw (.insertAt hp hn none)
  | before p n mark => exact harmless_before env p n mark
  | removeChild p n =>
    refine harmless_withNodes fun w p n hw _ _ => keeps_ask ?_
    split
    · rename_i store hs
      exact keeps_move hw (.removeChild hs)
    · exact harmless_log _ w hw
  | remove n => exact harmless_withNode_of fun n => harmless_tell fun _ => .detach n
  | copy new n deep => exact harmless_withNode fun w n hw _ => keeps_bindCopy new hw n deep
  | dispose n => exact harmless_withNode_of fun n => harmless_tell fun _ => .dispose n
  | setData n e =>
    exact harmless_withNode_of fun n => (harmless_eval env e).bind fun v =>
      harmless_modify n (fun _ => rfl) fun s => s.sameTrees_setData n _
  | setAttribute n k e =>
    exact harmless_withNode_of fun n => (harmless_eval env e).bind fun v =>
      harmless_setAttribute n k _
  | removeAttribute n k =>
    exact harmless_withNode_of fun n =>
      harmless_modify n (fun _ => rfl) fun s => s.sameTrees_removeAttribute n k
  | setProperty n k e =>
    exact harmless_withNode_of fun n => (harmless_eval env e).bind fun v =>
      harmless_modify n (fun _ => rfl) fun s => s.sameTrees_setProperty n k _
  | setStyle n k e =>
    exact harmless_withNode_of fun n => (harmless_eval env e).bind fun v =>
      harmless_modify n (fun _ => rfl) fun s => s.sameTrees_setStyle n k _
  | outline n => exact harmless_withNode_of fun n => harmless_ask fun _ => harmless_log _
  | listen n event l body =>
    exact harmless_withNode fun w n hw _ => keeps_ask (keeps_move hw (.listen n event l _ body))
  | unlisten n l =>
    refine harmless_withNode fun w n hw _ => keeps_ask ?_
    split
    · rename_i id hid
      exact Keeps.bind hw (keeps_move hw (.unlisten n hid)) fun w' _ hl _ =>
        harmless_log _ w' hl.good
    · exact harmless_log _ w hw
  | handler n event body =>
    exact harmless_withNode_of fun n => harmless_tell fun _ => .handle n event _ body
  | clearHandler n event =>
    exact harmless_withNode_of fun n => harmless_tell fun _ => .unhandle n event
  | delegate events => exact harmless_tell fun _ => .delegate events
  | dispatch n event => exact harmless_withNode_of fun n => harmless_dispatch n event
  | stop => exact harmless_changeCurrent env fun e => harmless_tell fun _ => .stop e
  | prevent => exact harmless_changeCurrent env fun e => harmless_tell fun _ => .prevent e
  | insert p content mark =>
    refine harmless_withNode fun w p hw hp => ?_
    refine Keeps.bind hw (keeps_markNamed mark hw) fun w₁ mark hl₁ _ => ?_
    refine keeps_perform_build hl₁.good fun w₂ r hl₂ hr => ?_
    exact keeps_insert mark [] hl₂.good (Allows.node_later (hl₁.trans hl₂) hp) hr
  | describeContent content =>
    refine (harmless_perform (.build env content) [] fun _ => trivial).bind fun _ => ?_
    exact harmless_ask fun _ => harmless_log _
  | spread n pairs =>
    refine harmless_withNode fun w n hw hn => ?_
    refine Keeps.bind hw (keeps_buildGifts env hw (forall_mem_nil _)) ?_
    intro w₁ gifts hl₁ hg
    refine Keeps.bind hl₁.good (keeps_applyAll hl₁.good (Allows.node_later hl₁ hn) hg)
      fun w₂ r hl₂ _ => ?_
    cases r with
    | ok _ => trivial
    | error e => exact harmless_log _ w₂ hl₂.good
  | template t html =>
    refine fun w hw => keeps_ask ?_
    split
    · rename_i store n ht
      exact keeps_move hw (.template t ht)
    · exact harmless_log _ w hw
  | instantiate n t =>
    refine fun w hw => keeps_ask ?_
    split
    · exact keeps_bindCopy n hw _ true
    · exact harmless_log _ w hw
  | record p => exact harmless_newRecord.bind fun _ => harmless_tell fun _ => .books _ _ _ _ _ _
  | putAccessor _ _ _ | removeKey _ _ =>
    exact harmless_withRecord fun record => harmless_changeRecord record _
  | putValue p k e =>
    exact harmless_withRecord fun record => (harmless_eval env e).bind fun v =>
      harmless_changeRecord record _
  | merge v defaults p =>
    refine (harmless_evalPairs env Value.toScalar defaults).bind fun pairs => harmless_ask fun w =>
      ?_
    split
    · exact harmless_tell fun _ => .books _ _ _ _ _ _
    · exact harmless_newRecord.bind fun _ => harmless_tell fun _ => .books _ _ _ _ _ _

theorem harmless_execAll (env : Env) : ∀ body : Block, Harmless R (execAll env body)
  | [] => .pure _
  | s :: rest => (harmless_exec env s).bind fun _ => harmless_execAll env rest

theorem obeys_of_allows : R.Obeys language where
  body w code hw hc := by
    have hgives : ∀ {w : World} {r : Result}, T.Result w r → R.ResultFits w r := Allows.result.2
    have silent : ∀ a : Act Unit, Harmless R a → Keeps R R.ResultFits (silently a) w :=
      fun a ha => ha.keeps_bind hw fun _ _ _ => hgives trivial
    have hc : T.Code w code := Allows.code.1 hc
    cases code with
    | block env body => exact silent _ (harmless_execAll env body)
    | value env body e =>
      exact (harmless_execAll env body).keeps_bind hw fun w' _ hl =>
        (harmless_eval env e).keeps_bind hl.good fun _ _ _ => hgives trivial
    | untracked env body => exact ⟨Allows.code.2 trivial, fun _ _ _ hr => hr⟩
    | build env content =>
      exact Keeps.bind hw (keeps_build env content hw) fun _ _ _ hx => hgives hx
    | nodes document content =>
      exact Keeps.bind hw (keeps_nodesOfLeaves hw hc.1 (forall_mem_nil _) hc.2)
        fun _ _ _ hx => hgives hx
    | insertion i => exact silent _ (harmless_refresh i)
    | bubble e n => exact silent _ (harmless_bubble hc n)
    | walk e name n => exact silent _ (harmless_walk hc name n)
  nothing _ := Allows.result.2 trivial

end ReactiveMarkup.Program
