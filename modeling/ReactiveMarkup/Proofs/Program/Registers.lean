/-
What may come of registers and events.

All that a program changes is changed by a few kinds of edits.  Nodes are made and
moved, somebody listens or does not listen any more, an event is sent, stopped or
served.  The registers of nodes are in order after any edits: handlers are looked up at
documents only, each event for itself and once at most.

Serving an event is told apart from all other edits: only what takes the event from node
to node does it.  So where an event is not served, it keeps all but whether it is stopped
or prevented.
-/
import ReactiveMarkup.Proofs.Program.Courses

namespace ReactiveMarkup.Program

open List

open Dom (NodeId ListenerId)
open Dom.Store (Quiet IsDocument Owned)

variable {N : Nat} {fade : Prop} {w w' w'' : World} {n : NodeId}

/-! ### Registers of a node -/

/-- The event of a listener that looks up the handlers of the nodes which the event has passed. -/
def walked? (l : Dom.Listener Handler) : Option String :=
  match l.handler with
  | .walk event => some event
  | .block .. => none

/-- What holds of the registers of a node, if listeners have had numbers below `next`. -/
structure Tidy (next : ListenerId) (d : Dom.Node Handler) : Prop where
  /-- Only documents have handlers looked up, each event for itself, -/
  walks : ∀ l ∈ d.listeners, ∀ event, walked? l = some event → l.event = event ∧ d.kind = .document
  /-- and once at most. -/
  once : (d.listeners.filterMap walked?).Nodup
  known : ∀ event ∈ d.listeners.filterMap walked?, event ∈ d.delegated
  blocks : ∀ name h, d.handlers.get? name = some h → ∃ env body, h = .block env body
  ids : (d.listeners.map (·.id)).Nodup
  below : ∀ l ∈ d.listeners, l.id < next

/-- How the registers of a node change, and the number of the next listener then.  The numbers that
a program has, and that nodes remember, are `plain`; all listeners go only where some `fade`. -/
inductive Retune (plain : ListenerId → Prop) (fade : Prop) (next : ListenerId)
    (d : Dom.Node Handler) : Dom.Node Handler → ListenerId → Prop
  | listen (event : String) (env : Env) (body : Block) : Retune plain fade next d
      { d with listeners := d.listeners ++ [⟨next, event, .block env body⟩] } (next + 1)
  | unlisten {id : ListenerId} (hid : plain id) : Retune plain fade next d
      { d with listeners := d.listeners.filter fun l => l.id != id } next
  | handle (event : String) (env : Env) (body : Block) : Retune plain fade next d
      { d with handlers := d.handlers.put event (.block env body) } next
  | unhandle (event : String) : Retune plain fade next d
      { d with handlers := d.handlers.erase event } next
  | direct (event : String) {id : ListenerId} (hid : plain id) : Retune plain fade next d
      { d with direct := d.direct.put event id } next
  | hush (hf : fade) : Retune plain fade next d
      { d with listeners := [], handlers := [], direct := [] } next
  | watch (event : String) (hk : d.kind = .document) (hn : event ∉ d.delegated) :
      Retune plain fade next d
        { d with
          delegated := d.delegated ++ [event]
          listeners := d.listeners ++ [⟨next, event, .walk event⟩] } (next + 1)

section Retune

variable {plain : ListenerId → Prop} {next next' : ListenerId} {d d' : Dom.Node Handler}

section

variable (h : Retune plain fade next d d' next')

include h

theorem Retune.mono : Retune plain True next d d' next' := by
  cases h with
  | hush => exact .hush trivial
  | _ => constructor <;> assumption

theorem Retune.kind : d'.kind = d.kind := by
  cases h <;> rfl

theorem Retune.owner : d'.owner = d.owner := by
  cases h <;> rfl

theorem Retune.le : next ≤ next' := by
  cases h <;> first | exact Nat.le_refl _ | exact Nat.le_succ _

theorem Retune.listener (hl : l ∈ d'.listeners) : l ∈ d.listeners ∨ l.id = next := by
  cases h with
  | listen | watch =>
    rcases mem_append.1 hl with hl | hl
    · exact .inl hl
    · exact .inr (mem_singleton.1 hl ▸ rfl)
  | unlisten => exact .inl (mem_of_mem_filter hl)
  | hush => cases hl
  | _ => exact .inl hl

theorem Retune.remembered {event} {id}
    (hget : d'.direct.get? event = some id) : d.direct.get? event = some id ∨ plain id := by
  cases h with
  | direct e hid =>
    by_cases he : e = event
    · rw [he, Table.get?_put_self] at hget
      exact .inr (Option.some_inj.1 hget ▸ hid)
    · rw [Table.get?_put_ne _ _ he] at hget
      exact .inl hget
  | hush => exact absurd hget (by simp [Table.get?])
  | _ => exact .inl hget

end

theorem Tidy.mono (h : Tidy next d) (hle : next ≤ next') : Tidy next' d :=
  { h with below := fun l hl => Nat.lt_of_lt_of_le (h.below l hl) hle }

/-- A listener with the next number may be added if it is a plain one, or if it is the first to look
up handlers for an event that the document is known for. -/
theorem Tidy.push (h : Tidy next d) (hid : l.id = next)
    (hl : ∀ event, walked? l = some event → l.event = event ∧ d.kind = .document ∧
      event ∈ d.delegated ∧ event ∉ d.listeners.filterMap walked?) :
    Tidy (next + 1) { d with listeners := d.listeners ++ [l] } where
  walks := forall_mem_append.2 ⟨h.walks, forall_mem_singleton.2 fun event he =>
    ⟨(hl event he).1, (hl event he).2.1⟩⟩
  once := by
    rw [filterMap_append]
    cases hw : walked? l with
    | none => simpa [hw] using h.once
    | some event =>
      have hnew := (hl event hw).2.2.2
      rw [filterMap_cons_some hw]
      exact nodup_append.2 ⟨h.once, nodup_singleton _, fun a ha b hb hab => hnew
        (mem_singleton.1 hb ▸ hab ▸ ha)⟩
  known event he := by
    have he' : event ∈ (d.listeners ++ [l]).filterMap walked? := he
    rw [filterMap_append, mem_append] at he'
    rcases he' with he' | he'
    · exact h.known event he'
    · obtain ⟨m, hm, hw⟩ := mem_filterMap.1 he'
      obtain rfl := mem_singleton.1 hm
      exact (hl event hw).2.2.1
  blocks := h.blocks
  ids := by
    rw [map_append]
    refine nodup_append.2 ⟨h.ids, nodup_singleton _, fun a ha b hb hab => ?_⟩
    obtain ⟨m, hm, rfl⟩ := mem_map.1 ha
    have hlt : m.id < next := h.below m hm
    have hsame : m.id = l.id := hab.trans (mem_singleton.1 hb)
    rw [hsame, hid] at hlt
    exact Nat.lt_irrefl _ hlt
  below := forall_mem_append.2 ⟨fun m hm => Nat.lt_succ_of_lt (h.below m hm),
    forall_mem_singleton.2 (hid ▸ Nat.lt_succ_self _)⟩

theorem Retune.tidy (h : Retune plain fade next d d' next') (ht : Tidy next d) : Tidy next' d' := by
  cases h with
  | listen event env body => exact ht.push rfl fun event he => absurd he (by simp [walked?])
  | @unlisten id =>
    have hsub : (d.listeners.filter fun l => l.id != id).Sublist d.listeners :=
      filter_sublist
    exact ⟨fun l hl => ht.walks l (hsub.subset hl), ht.once.sublist (hsub.filterMap _),
      fun event he => ht.known event ((hsub.filterMap _).subset he), ht.blocks,
      ht.ids.sublist (hsub.map _), fun l hl => ht.below l (hsub.subset hl)⟩
  | handle event env body =>
    refine { ht with blocks := fun name h hget => ?_ }
    by_cases hname : event = name
    · subst hname
      rw [Table.get?_put_self] at hget
      exact ⟨env, body, (Option.some_inj.1 hget).symm⟩
    · rw [Table.get?_put_ne _ _ hname] at hget
      exact ht.blocks name h hget
  | unhandle event =>
    refine { ht with blocks := fun name h hget => ?_ }
    rw [Table.get?_erase] at hget
    exact ht.blocks name h (Option.ite_none_left_eq_some.1 hget).2
  | direct => exact { ht with }
  | hush =>
    exact ⟨forall_mem_nil _, nodup_nil, forall_mem_nil _,
      fun name h hget => absurd hget (by simp [Table.get?]), nodup_nil, forall_mem_nil _⟩
  | watch event hk hn =>
    have hmark : Tidy next { d with delegated := d.delegated ++ [event] } :=
      { ht with known := fun e he => mem_append_left _ (ht.known e he) }
    refine hmark.push rfl fun e he => ?_
    cases he
    exact ⟨rfl, hk, mem_append_right _ (.head _), fun he => hn (ht.known event he)⟩

end Retune

theorem tidy_quiet (hs : ∀ n, Tidy s.nextListener (s.node n)) (h : Quiet s s') (n : NodeId) :
    Tidy s'.nextListener (s'.node n) := by
  have htidy := hs n
  rw [← h.next] at htidy
  obtain ⟨hhearing, hd⟩ := h.heard n
  simp only [Dom.Node.hearing, Prod.mk.injEq] at hhearing
  obtain ⟨hl, hh, -⟩ := hhearing
  constructor
  · rw [hl]
    intro l hmem event he
    obtain ⟨hsame, hdoc⟩ := htidy.walks l hmem event he
    exact ⟨hsame, IsDocument.quiet hdoc h⟩
  · rw [hl]
    exact htidy.once
  · rw [hl, hd]
    exact htidy.known
  · rw [hh]
    exact htidy.blocks
  · rw [hl]
    exact htidy.ids
  · rw [hl]
    exact htidy.below

/-! ### Edits -/

/-- Whether a number has been given, and not to a listener that looks handlers up. -/
def Plain (s : Dom.Store Handler) (id : ListenerId) : Prop :=
  id < s.nextListener ∧ ∀ n, ∀ l ∈ (s.node n).listeners, l.id = id → walked? l = none

/-- How the world changes, where events below `N` are not served, and nodes lose all their listeners
only where some `fade`. -/
inductive Edit (N : Nat) (fade : Prop) (w : World) : World → Prop
  | quiet {store : Dom.Store Handler} (h : Quiet w.store store) : Edit N fade w { w with store }
  | retune (n : NodeId) (f : Dom.Node Handler → Dom.Node Handler) {next : ListenerId}
      (h : Retune (Plain w.store) fade w.store.nextListener (w.store.node n) (f (w.store.node n))
        next) :
      Edit N fade w { w with store := { w.store.modify n f with nextListener := next } }
  | list (l : String) {id : ListenerId} (hid : Plain w.store id) :
      Edit N fade w { w with listeners := w.listeners.put l id }
  | document (d : NodeId) (hd : w.store.IsDocument d) : Edit N fade w { w with document := d }
  | insertion (x : Insertion) (hx : w.store.IsDocument x.document) :
      Edit N fade w { w with insertions := w.insertions.push x }
  | fill (i : Nat) (nodes : List NodeId) :
      Edit N fade w { w with insertions := w.insertions.modify i fun x => { x with nodes } }
  | send (name : String) (target : NodeId) :
      Edit N fade w { w with events := w.events.push { name, target } }
  | stop (e : EventId) :
      Edit N fade w { w with events := w.events.modify e fun event =>
        { event with stopped := true } }
  | prevent (e : EventId) :
      Edit N fade w { w with events := w.events.modify e fun event =>
        { event with prevented := true } }
  | serve (e : EventId) (current : Option NodeId) (he : N ≤ e) :
      Edit N fade w { w with events := w.events.modify e fun event => { event with current } }
  | books {w' : World} (hs : w'.store = w.store) (hm : w'.main = w.main)
      (hd : w'.document = w.document) (hi : w'.insertions = w.insertions)
      (he : w'.events = w.events) (hl : w'.listeners = w.listeners) : Edit N fade w w'

/-- What holds of the registers of all nodes. -/
structure World.Registered (w : World) : Prop where
  tidy : ∀ n, Tidy w.store.nextListener (w.store.node n)
  owned : w.store.Owned
  /-- The document of the program is the first node of all. -/
  first : w.main = 0
  main : w.store.IsDocument w.main
  document : w.store.IsDocument w.document
  placed : ∀ x ∈ w.insertions, w.store.IsDocument x.document
  remembered : ∀ n event id, (w.store.node n).direct.get? event = some id → Plain w.store id
  listed : ∀ l id, w.listeners.get? l = some id → Plain w.store id

/-- What an event keeps: its name, its target and the node that is being served.  If it is stopped,
it stays so. -/
structure EventKept (w w' : World) (e : EventId) : Prop where
  name : (w'.event e).name = (w.event e).name
  target : (w'.event e).target = (w.event e).target
  current : (w'.event e).current = (w.event e).current
  stopped : (w.event e).stopped = true → (w'.event e).stopped = true

theorem EventKept.of_eq (h : w'.event e = w.event e) : EventKept w w' e := by
  constructor <;> rw [h]
  exact id

theorem EventKept.trans (h : EventKept w w' e) (h' : EventKept w' w'' e) : EventKept w w'' e :=
  ⟨h'.name.trans h.name, h'.target.trans h.target, h'.current.trans h.current,
    fun hs => h'.stopped (h.stopped hs)⟩

theorem event_modify_self (w : World) {e : EventId} (he : e < w.events.size)
    (f : Dom.Event → Dom.Event) :
    ({ w with events := w.events.modify e f }).event e = f (w.event e) := by
  simp [World.event, he, Array.getElem_modify_self]

theorem event_modify_ne (w : World) {e i : EventId} (hi : e ≠ i) (f : Dom.Event → Dom.Event) :
    ({ w with events := w.events.modify i f }).event e = w.event e := by
  simp [World.event, Array.getElem?_modify, hi.symm]

theorem event_modify (w : World) (e i : EventId) (f : Dom.Event → Dom.Event) :
    ({ w with events := w.events.modify i f }).event e = w.event e ∨
      e = i ∧ e < w.events.size ∧
        ({ w with events := w.events.modify i f }).event e = f (w.event e) := by
  by_cases hi : e = i
  · subst hi
    by_cases hlt : e < w.events.size
    · exact .inr ⟨rfl, hlt, event_modify_self w hlt f⟩
    · simp [World.event, hlt]
  · exact .inl (event_modify_ne w hi f)

theorem event_push_self (w : World) (event : Dom.Event) :
    ({ w with events := w.events.push event }).event w.events.size = event := by
  simp [World.event]

theorem event_push_ne (w : World) (event : Dom.Event) {e : EventId} (he : e ≠ w.events.size) :
    ({ w with events := w.events.push event }).event e = w.event e := by
  simp [World.event, Array.getElem?_push, he]

namespace Edit

/-- A change of registers that does not count as a new listener. -/
theorem retuneSame (n : NodeId) (f : Dom.Node Handler → Dom.Node Handler)
    (h : Retune (Plain w.store) fade w.store.nextListener (w.store.node n) (f (w.store.node n))
      w.store.nextListener) : Edit N fade w { w with store := w.store.modify n f } :=
  .retune n f h

theorem listen (n : NodeId) (event : String) (env : Env) (body : Block) :
    Edit N fade w { w with store := (w.store.addListener n event (.block env body)).1 } :=
  .retune n (fun d => { d with listeners := d.listeners ++ [⟨_, event, .block env body⟩] })
    (.listen event env body)

section

variable (h : Edit N fade w w')

include h

theorem mono : Edit N True w w' := by
  cases h with
  | retune n f h => exact .retune n f h.mono
  | _ => constructor <;> assumption

theorem isDocument (hd : w.store.IsDocument n) : w'.store.IsDocument n := by
  cases h with
  | quiet h => exact hd.quiet h
  | retune m f h =>
    rcases Dom.Store.node_modify w.store m n f with hn | ⟨rfl, -, hn⟩
    · exact (congrArg Dom.Node.kind hn).trans hd
    · exact (congrArg Dom.Node.kind hn).trans (h.kind.trans hd)
  | books hs _ _ _ _ _ =>
    rw [hs]
    exact hd
  | _ => exact hd

theorem kind (hn : n < w.store.nodes.size) :
    n < w'.store.nodes.size ∧ (w'.store.node n).kind = (w.store.node n).kind := by
  cases h with
  | quiet h => exact ⟨Nat.lt_of_lt_of_le hn h.size, congrArg Prod.fst (h.kept n hn)⟩
  | retune m f h =>
    refine ⟨by simpa using hn, ?_⟩
    rcases Dom.Store.node_modify w.store m n f with hsame | ⟨rfl, -, hnew⟩
    · exact congrArg Dom.Node.kind hsame
    · exact (congrArg Dom.Node.kind hnew).trans h.kind
  | books hs _ _ _ _ _ =>
    rw [hs]
    exact ⟨hn, rfl⟩
  | _ => exact ⟨hn, rfl⟩

theorem nextListener_le : w.store.nextListener ≤ w'.store.nextListener := by
  cases h with
  | quiet h => exact Nat.le_of_eq h.next.symm
  | retune m f h => exact h.le
  | books hs _ _ _ _ _ =>
    rw [hs]
  | _ => exact Nat.le_refl _

/-- The registers of a node are the same, or have changed in one of the ways there are. -/
theorem node (n : NodeId) : ((w'.store.node n).hearing = (w.store.node n).hearing ∧
        (w'.store.node n).delegated = (w.store.node n).delegated) ∨
      ∃ next, Retune (Plain w.store) fade w.store.nextListener (w.store.node n) (w'.store.node n)
        next := by
  cases h with
  | quiet h => exact .inl (h.heard n)
  | @retune m f next h =>
    rcases Dom.Store.node_modify w.store m n f with hn | ⟨rfl, -, hn⟩
    · exact .inl ⟨congrArg Dom.Node.hearing hn, congrArg Dom.Node.delegated hn⟩
    · exact .inr ⟨next, hn ▸ h⟩
  | books hs _ _ _ _ _ =>
    rw [hs]
    exact .inl ⟨rfl, rfl⟩
  | _ => exact .inl ⟨rfl, rfl⟩

theorem plain {id} (hid : Plain w.store id) : Plain w'.store id := by
  refine ⟨Nat.lt_of_lt_of_le hid.1 h.nextListener_le, fun n l hl he => ?_⟩
  rcases h.node n with ⟨hsame, -⟩ | ⟨next, hr⟩
  · have hlisteners : (w'.store.node n).listeners = (w.store.node n).listeners :=
      congrArg Prod.fst hsame
    exact hid.2 n l (hlisteners ▸ hl) he
  · rcases hr.listener hl with hl | hl
    · exact hid.2 n l hl he
    · exact absurd (he ▸ hl ▸ hid.1) (Nat.lt_irrefl _)

theorem registered (hw : w.Registered) : w'.Registered := by
  have hdoc : ∀ d, w.store.IsDocument d → w'.store.IsDocument d := fun d => h.isDocument
  have hplain : ∀ id, Plain w.store id → Plain w'.store id := fun id => h.plain
  have hdirect : ∀ n event id, (w'.store.node n).direct.get? event = some id →
    Plain w'.store id := by
    intro n event id hget
    refine hplain id ?_
    rcases h.node n with ⟨hsame, -⟩ | ⟨next, hr⟩
    · have hdirect : (w'.store.node n).direct = (w.store.node n).direct :=
        congrArg (fun r => r.2.2) hsame
      exact hw.remembered n event id (hdirect ▸ hget)
    · exact (hr.remembered hget).elim (hw.remembered n event id) fun hid => hid
  cases h with
  | quiet h =>
    exact ⟨tidy_quiet hw.tidy h, hw.owned.quiet h, hw.first, hdoc _ hw.main, hdoc _ hw.document,
      fun x hx => hdoc _ (hw.placed x hx), hdirect, fun l id hl => hplain id (hw.listed l id hl)⟩
  | @retune m f next h =>
    refine ⟨fun n => ?_, fun n d hd => ?_, hw.first, hdoc _ hw.main, hdoc _ hw.document,
      fun x hx => hdoc _ (hw.placed x hx), hdirect, fun l id hl => hplain id (hw.listed l id hl)⟩
    · show Tidy next ((w.store.modify m f).node n)
      rcases Dom.Store.node_modify w.store m n f with hn | ⟨rfl, -, hn⟩
      · rw [hn]
        exact (hw.tidy n).mono h.le
      · rw [hn]
        exact h.tidy (hw.tidy n)
    · have howner : ((w.store.modify m f).node n).owner = some d := hd
      rcases Dom.Store.node_modify w.store m n f with hn | ⟨rfl, -, hn⟩
      · rw [hn] at howner
        exact hdoc d (hw.owned n d howner)
      · rw [hn, h.owner] at howner
        exact hdoc d (hw.owned n d howner)
  | list l hid =>
    refine { hw with listed := fun m id hget => ?_ }
    by_cases hm : l = m
    · rw [hm, Table.get?_put_self] at hget
      exact Option.some_inj.1 hget ▸ hid
    · rw [Table.get?_put_ne _ _ hm] at hget
      exact hw.listed m id hget
  | document d hd => exact { hw with document := hd }
  | insertion x hx =>
    refine { hw with placed := fun y hy => ?_ }
    rcases Array.mem_push.1 hy with hy | rfl
    · exact hw.placed y hy
    · exact hx
  | fill i nodes =>
    refine { hw with placed := fun y hy => ?_ }
    obtain ⟨j, hj⟩ := Array.getElem?_of_mem hy
    rw [Array.getElem?_modify] at hj
    split at hj
    · obtain ⟨x, hx, rfl⟩ := Option.map_eq_some_iff.1 hj
      exact hw.placed x (Array.mem_of_getElem? hx)
    · exact hw.placed y (Array.mem_of_getElem? hj)
  | send | stop | prevent | serve => exact { hw with }
  | books hs hm hd hi he hl =>
    constructor
    · rw [hs]
      exact hw.tidy
    · rw [hs]
      exact hw.owned
    · rw [hm]
      exact hw.first
    · rw [hs, hm]
      exact hw.main
    · rw [hs, hd]
      exact hw.document
    · rw [hs, hi]
      exact hw.placed
    · exact hdirect
    · rw [hs, hl]
      exact hw.listed

theorem size_le : w.events.size ≤ w'.events.size := by
  cases h with
  | send name target => simp
  | stop e | prevent e | serve e current he => simp
  | books hs hm hd hi he hl => exact Nat.le_of_eq (congrArg Array.size he.symm)
  | _ => exact Nat.le_refl _

/-- Events that are there and not served keep what they keep. -/
theorem eventKept (hN : N ≤ w.events.size) {e : EventId} (he : e < N) :
    EventKept w w' e := by
  cases h with
  | send name target => exact .of_eq (event_push_ne w _ (Nat.ne_of_lt (Nat.lt_of_lt_of_le he hN)))
  | stop i =>
    rcases event_modify w e i fun event => { event with stopped := true } with hsame | ⟨-, -, hnew⟩
    · exact .of_eq hsame
    · constructor <;> rw [hnew]
      exact fun _ => rfl
  | prevent i =>
    rcases event_modify w e i fun event => { event with prevented := true } with
      hsame | ⟨-, -, hnew⟩
    · exact .of_eq hsame
    · constructor <;> rw [hnew]
      exact id
  | serve i current hi =>
    rcases event_modify w e i fun event => { event with current } with hsame | ⟨rfl, -, -⟩
    · exact .of_eq hsame
    · exact absurd hi (Nat.not_le_of_lt he)
  | books hs hm hd hi hev hl => exact .of_eq (by rw [World.event, World.event, hev])
  | _ => exact .of_eq rfl

end

end Edit

end ReactiveMarkup.Program
