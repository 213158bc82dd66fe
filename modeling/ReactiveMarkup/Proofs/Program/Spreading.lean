/-
What an element is given last counts.

A program may give an element something to do about an event, under any of the keys that
ask for the event, and may take it away again.  In between it may add listeners to the
element, and dispose of it, also along with a tree that it is in.  The element then has
one listener for the event that came from properties, which does what was given last, and
none if that was taken away.  For an event that is listened for at the document this goes
for the handler of the element.  All others who listen stay.

* `History.last_given_counts`: who listens then.
-/
import ReactiveMarkup.Proofs.Dom.Listening
import ReactiveMarkup.Proofs.Program.Edits
import ReactiveMarkup.Proofs.Program.Placing

namespace ReactiveMarkup.Program

open List Dom.Store Dom.Node

open Dom (NodeId Registrant isDelegatedName)
open Reactive (Action State)
open Relation (ReflTransGen)

/-! ### Deeds -/

inductive Deed where
  | give (event : String) (env : Env) (body : Block)
  | take (event : String)
  | listen (event : String) (env : Env) (body : Block)
  | hush

def World.given (w : World) (n : NodeId) (document : Option NodeId) (event : String) (env : Env)
    (body : Block) : World :=
  { w with store := w.store.setEvent n document event (.block env body) (.walk event) }

def World.listening (w : World) (n : NodeId) (event l : String) (env : Env) (body : Block) :
    World :=
  { w with
    store := (w.store.addListener n event (.block env body)).1
    listeners := w.listeners.put l w.store.nextListener }

/-- Whether a program does something about the events of a node, and the state that it comes to.

An element is given something under a key when properties are spread over it.  A node is also
disposed of with what it is in, by a statement or when content that is kept up to date drops
nodes. -/
inductive Does (n : NodeId) (st : State setting) : Deed → State setting → Prop
  | give {key event : String} {env : Env} {body : Block} {held : List Item}
      {k : Except Dom.Error Unit → Act Result}
      (hc : st.control = .acting ((apply n key (.handler env body) held).bind k))
      (hkey : Dom.Key.ofText key = .event event) :
      Does n st (.give event env body) { st with
        host := st.host.given n (st.host.store.documentIn? (rootsOf (st.view language)) n)
          event env body
        control := .acting (k (.ok ())) }
  | take {key event : String} {held : List Item} {k : Except Dom.Error Unit → Act Result}
      (hc : st.control = .acting ((apply n key (.value .null) held).bind k))
      (hkey : Dom.Key.ofText key = .event event) :
      Does n st (.take event) { st with
        host := { st.host with store := st.host.store.removeEvent n event }
        control := .acting (k (.ok ())) }
  | listen {x event l : String} {env : Env} {body : Block} {k : Unit → Act Result}
      (hc : st.control = .acting ((exec env (.listen x event l body)).bind k))
      (hx : st.host.nodes.get? x = some n) :
      Does n st (.listen event env.later body) { st with
        host := st.host.listening n event l env.later body
        control := .acting (k ()) }
  | dispose {x : String} {m : NodeId} {env : Env} {k : Unit → Act Result}
      (hc : st.control = .acting ((exec env (.dispose x)).bind k))
      (hx : st.host.nodes.get? x = some m) (hw : st.host.store.Within n m) :
      Does n st .hush { st with
        host := { st.host with store := st.host.store.dispose m }
        control := .acting (k ()) }
  | discard {f : World → World} {a : Act Result} {ns : List NodeId} {m : NodeId}
      (hc : st.control = .acting (.change f a))
      (hf : f st.host = { st.host with store := ns.foldl Dom.Store.discard st.host.store })
      (hm : m ∈ ns) (hw : st.host.store.Within n m) :
      Does n st .hush { st with
        host := { st.host with store := ns.foldl Dom.Store.discard st.host.store }
        control := .acting a }

/-- Whether a program has come to a state with some deeds at an element, the latest first.  At the
start nobody listened there, and nothing else has changed who does. -/
inductive History (n : NodeId) : List Deed → State setting → Prop
  | start {st : State setting} : Course st → (st.host.store.node n).kind = .element →
      (st.host.store.node n).hearing = ([], [], []) → History n [] st
  | deed {ds : List Deed} {d : Deed} {st next : State setting} : History n ds st →
      Does n st d next → History n (d :: ds) next
  | other {ds : List Deed} {st next : State setting} : History n ds st → Onward st next →
      (next.host.store.node n).hearing = (st.host.store.node n).hearing → History n ds next

/-! ### What is to be expected -/

/-- What has been given last for an event, unless it was taken away, or the element was disposed
of. -/
def lastGiven (event : String) : List Deed → Option Handler
  | [] => none
  | .give e env body :: earlier =>
    if e = event then some (.block env body) else lastGiven event earlier
  | .take e :: earlier => if e = event then none else lastGiven event earlier
  | .listen .. :: earlier => lastGiven event earlier
  | .hush :: _ => none

/-- The listeners that have been added since the element was disposed of, in their order. -/
def added : List Deed → List (String × Handler)
  | [] => []
  | .listen event env body :: earlier => added earlier ++ [(event, .block env body)]
  | .hush :: _ => []
  | .give .. :: earlier | .take _ :: earlier => added earlier

/-- Who listens after some deeds, in their order. -/
def registrants : List Deed → List (Registrant Handler)
  | [] => []
  | .give event env body :: earlier =>
    if isDelegatedName event then registrants earlier
    else ((registrants earlier).filter fun r => !r.isFor event) ++ [⟨event, .block env body, true⟩]
  | .take event :: earlier => (registrants earlier).filter fun r => !r.isFor event
  | .listen event env body :: earlier => registrants earlier ++ [⟨event, .block env body, false⟩]
  | .hush :: _ => []

variable {event : String}

theorem filter_isFor_of_ne (h : e ≠ event) (rs : List (Registrant Handler)) :
    (rs.filter fun r => !r.isFor e).filter (·.isFor event) = rs.filter (·.isFor event) := by
  rw [filter_filter]
  refine filter_congr fun r _ => ?_
  cases hr : r.isFor event with
  | false => rfl
  | true =>
    have hevent : r.event = event := by
      have hboth := hr
      rw [Registrant.isFor, Bool.and_eq_true, beq_iff_eq] at hboth
      exact hboth.2
    have hnot : r.isFor e = false := by
      rw [Registrant.isFor, hevent, Bool.and_eq_false_iff]
      exact .inr (beq_false_of_ne h.symm)
    rw [hnot]
    rfl

theorem filter_isFor_self (event : String) (rs : List (Registrant Handler)) :
    (rs.filter fun r => !r.isFor event).filter (·.isFor event) = [] := by
  rw [filter_filter, filter_eq_nil_iff]
  intro r _
  cases r.isFor event <;> decide

theorem filter_not_given (event : String) (rs : List (Registrant Handler)) :
    (rs.filter fun r => !r.isFor event).filter (!·.given) = rs.filter (!·.given) := by
  rw [filter_filter]
  refine filter_congr fun r _ => ?_
  rw [Registrant.isFor]
  cases r.given <;> rfl

theorem registrants_isFor (hname : isDelegatedName event = false) (ds : List Deed) :
    (registrants ds).filter (·.isFor event) =
      (lastGiven event ds).toList.map fun handler => ⟨event, handler, true⟩ := by
  induction ds with
  | nil => rfl
  | cons d earlier ih =>
    cases d with
    | give e env body =>
      rw [registrants, lastGiven]
      by_cases he : e = event
      · rw [he, hname]
        simp [Registrant.isFor]
      · have hnew : Registrant.isFor ⟨e, Handler.block env body, true⟩ event = false := by
          simpa [Registrant.isFor] using he
        split
        · exact ih
        · rw [filter_append, filter_isFor_of_ne he, ih, filter_cons, hnew]
          simp
    | take e =>
      rw [registrants, lastGiven]
      by_cases he : e = event
      · rw [if_pos he, he, filter_isFor_self]
        rfl
      · rw [if_neg he, filter_isFor_of_ne he, ih]
    | listen e env body =>
      rw [registrants, lastGiven, filter_append, ih]
      simp [Registrant.isFor]
    | hush => rfl

theorem registrants_isFor_delegated (hname : isDelegatedName event = true) (ds : List Deed) :
    (registrants ds).filter (·.isFor event) = [] := by
  induction ds with
  | nil => rfl
  | cons d earlier ih =>
    cases d with
    | give e env body =>
      rw [registrants]
      split
      · exact ih
      · rename_i hnot
        have he : e ≠ event := by
          rintro rfl
          exact hnot hname
        rw [filter_append, filter_isFor_of_ne he, ih]
        simpa [Registrant.isFor] using he
    | take e =>
      rw [registrants, filter_filter, filter_eq_nil_iff]
      intro r hr
      rw [filter_eq_nil_iff] at ih
      simp [ih r hr]
    | listen e env body =>
      rw [registrants, filter_append, ih]
      simp [Registrant.isFor]
    | hush => rfl

theorem registrants_not_given (ds : List Deed) :
    ((registrants ds).filter (!·.given)).map (fun r => (r.event, r.handler)) = added ds := by
  induction ds with
  | nil => rfl
  | cons d earlier ih =>
    cases d with
    | give e env body =>
      rw [registrants, added]
      split
      · exact ih
      · rw [filter_append, filter_not_given, map_append, ih]
        simp
    | take e => rw [registrants, added, filter_not_given, ih]
    | listen e env body =>
      rw [registrants, added, filter_append, map_append, ih]
      simp
    | hush => rfl

/-! ### What deeds do -/

variable {n : NodeId} {ds : List Deed} {d : Deed} {st next : State setting}

variable {key : String}

theorem apply_give (hkey : Dom.Key.ofText key = .event event) (env : Env) (body : Block)
    (held : List Item) (k : Except Dom.Error Unit → Act Result) :
    (apply n key (.handler env body) held).bind k = .survey fun v => .change
      (fun w => w.given n (v.host.store.documentIn? (rootsOf v) n) event env body)
      (k (.ok ())) := by
  unfold apply
  rw [hkey]
  rfl

theorem apply_take (hkey : Dom.Key.ofText key = .event event) (held : List Item)
    (k : Except Dom.Error Unit → Act Result) :
    (apply n key (.value .null) held).bind k = .change
      (fun w => { w with store := w.store.removeEvent n event }) (k (.ok ())) := by
  unfold apply
  rw [hkey]
  rfl

/-- A program that looks up a name goes on with the node of the name. -/
theorem Onward.named {k : Unit → Act Result} (hc : st.control = .acting ((withNode x f).bind k))
    (hx : st.host.nodes.get? x = some n) : Onward st (st.act ((f n).bind k)) := by
  refine .step ?_ (not_loops_self _)
  simp only [State.step?, hc, withNode, nodeNamed, ask, Bind.bind, Action.bind, State.stepAction,
    hx]
  rfl

/-- A program that does something about the events of a node comes to the state after that. -/
theorem Does.onward (h : Does n st d next) (hf : st.host.store.IsForest) :
    ReflTransGen Onward st next := by
  cases h with
  | @give key event env body held k hc hkey =>
    rw [apply_give hkey] at hc
    have hset := Onward.act st (fun w => w.given n
      (st.host.store.documentIn? (rootsOf (st.view language)) n) event env body) (k (.ok ()))
      (sameTrees_setEvent _ n _ event _ _).not_loops
    exact .head (.survey hc) (.single hset)
  | @take key event held k hc hkey =>
    rw [apply_take hkey] at hc
    exact .single (.change hc rfl (sameTrees_removeEvent _ n event).not_loops)
  | @listen x event l env body k hc hx =>
    have hadd := Onward.act st (fun w =>
      { w with
        store := (st.host.store.addListener n event (.block env.later body)).1
        listeners := w.listeners.put l st.host.store.nextListener }) (k ())
      (sameTrees_addListener _ n event _).not_loops
    exact .head (.named hc hx) (.head (.look rfl) (.single hadd))
  | @dispose x m env k hc hx hw =>
    have hhush := Onward.act st (fun w => { w with store := w.store.dispose m }) (k ())
      (sameTrees_dispose _ m).not_loops
    exact .head (.named hc hx) (.single hhush)
  | @discard f a ns m hc hf' hm hw =>
    have hcut := (hf.discarded_foldl ns).cut
    exact .single (.change hc hf' (not_loops_of_parent? fun _ _ => hcut.parent?_sub))

theorem Does.course (h : Does n st d next) (hc : Course st) : Course next :=
  (hc.edits_of_steps (h.onward hc.sound.good.forest)).1

/-! ### Who listens -/

/-- What holds of an element after some deeds. -/
structure Told (n : NodeId) (ds : List Deed) (st : State setting) : Prop where
  course : Course st
  element : (st.host.store.node n).kind = .element
  proper : (st.host.store.node n).Proper st.host.store.nextListener
  listeners : (st.host.store.node n).registrants = registrants ds
  handlers : ∀ event, isDelegatedName event = true →
    (st.host.store.node n).handlers.get? event = lastGiven event ds

namespace Told

theorem ne_document (h : Told n ds st) {held} (hm : st.host.store.documentIn? held n = some m) :
    n ≠ m := by
  rintro rfl
  have hdoc := h.course.registered.good.1.owned.isDocument_of_documentIn? hm
  rw [Dom.Store.IsDocument, h.element] at hdoc
  cases hdoc

theorem start (hc : Course st) (hk : (st.host.store.node n).kind = .element)
    (hsilent : (st.host.store.node n).hearing = ([], [], [])) : Told n [] st := by
  have hboth := hsilent
  simp only [Dom.Node.hearing, Prod.mk.injEq] at hboth
  obtain ⟨hl, hh, -⟩ := hboth
  refine ⟨hc, hk, proper_silent _ hsilent, ?_, fun event _ => ?_⟩
  · rw [Dom.Node.registrants, hl]
    rfl
  · rw [hh]
    rfl

theorem other (h : Told n ds st) (hn : Onward st next)
    (hsame : (next.host.store.node n).hearing = (st.host.store.node n).hearing) :
    Told n ds next := by
  have hedits := h.course.edits_of_onward hn
  refine ⟨h.course.onward hn, ?_, (h.proper.mono (nextListener_le_of_edits hedits)).congr hsame, ?_,
    fun event he => ?_⟩
  · rw [(kind_of_edits hedits (lt_size_of_element h.element)).2]
    exact h.element
  · rw [registrants_congr hsame, h.listeners]
  · have hh : (next.host.store.node n).handlers = (st.host.store.node n).handlers :=
      congrArg (fun x => x.2.1) hsame
    rw [hh, h.handlers event he]

/-- An element that has been disposed of starts anew. -/
theorem hush (h : Told n ds st) (hnext : Does n st .hush next)
    (hk : (next.host.store.node n).kind = (st.host.store.node n).kind)
    (hsilent : (next.host.store.node n).hearing = ([], [], [])) : Told n (.hush :: ds) next := by
  have hnew := start (hnext.course h.course) (hk.trans h.element) hsilent
  exact ⟨hnew.course, hnew.element, hnew.proper, hnew.listeners, hnew.handlers⟩

/-- Each deed does what is expected of it. -/
theorem deed (h : Told n ds st) (hd : Does n st d next) : Told n (d :: ds) next := by
  obtain ⟨hcourse, hedits⟩ := h.course.edits_of_steps (hd.onward h.course.sound.good.forest)
  have hproper := h.proper.mono (nextListener_le_of_edits hedits)
  have hn := lt_size_of_element h.element
  cases hd with
  | @give key event env body held k hc hkey =>
    cases hname : isDelegatedName event with
    | true =>
      have hnode := node_setEvent_delegated hn
        (st.host.store.documentIn? (rootsOf (st.view language)) n) (fun m hm => h.ne_document hm)
        (.block env body) (.walk event) hname
      refine ⟨hcourse, ?_, ?_, ?_, fun e he => ?_⟩ <;> dsimp only [World.given] <;> rw [hnode]
      · exact h.element
      · exact ⟨hproper.below, hproper.known, hproper.events⟩
      · rw [registrants, hname]
        exact h.listeners
      · rw [lastGiven]
        by_cases hsame : event = e
        · rw [if_pos hsame, hsame, Table.get?_put_self]
        · rw [if_neg hsame, Table.get?_put_ne _ _ hsame]
          exact h.handlers e he
    | false =>
      have hnode := node_setEvent hn
        (st.host.store.documentIn? (rootsOf (st.view language)) n) (.block env body)
          (.walk event) hname
      have hcount := st.host.store.nextListener_setEvent n
        (st.host.store.documentIn? (rootsOf (st.view language)) n) (.block env body)
          (.walk event) hname
      refine ⟨hcourse, ?_, ?_, ?_, fun e he => ?_⟩ <;> dsimp only [World.given] <;> rw [hnode]
      · exact h.element
      · rw [hcount]
        exact h.proper.withGiven event _
      · rw [registrants_withGiven h.proper, h.listeners, registrants, hname,
          if_neg Bool.false_ne_true]
      · have hne : event ≠ e := by
          rintro rfl
          rw [hname] at he
          cases he
        rw [lastGiven, if_neg hne]
        exact h.handlers e he
  | @take key event held k hc hkey =>
    have hnode := node_removeEvent hn event
    refine ⟨hcourse, ?_, ?_, ?_, fun e he => ?_⟩ <;> dsimp only <;> rw [hnode]
    · exact h.element
    · have hwithout := hproper.withoutGiven event
      exact ⟨hwithout.below, hwithout.known, hwithout.events⟩
    · rw [registrants, ← h.listeners]
      exact registrants_withoutGiven h.proper event
    · rw [lastGiven, Table.get?_erase]
      by_cases hsame : event = e
      · rw [if_pos hsame, if_pos hsame.symm]
      · rw [if_neg hsame, if_neg fun he => hsame he.symm]
        exact h.handlers e he
  | @listen x event l env body k hc hx =>
    have hnode := node_addListener hn event (Handler.block env.later body)
    refine ⟨hcourse, ?_, ?_, ?_, fun e he => ?_⟩ <;> dsimp only [World.listening] <;> rw [hnode]
    · exact h.element
    · exact h.proper.withListener event _
    · rw [registrants_withListener h.proper, h.listeners, registrants]
    · exact h.handlers e he
  | @dispose x m env k hc hx hw =>
    have hhushed := h.course.sound.good.forest.hushed_dispose m
    exact h.hush (.dispose hc hx hw) (hhushed.trees.kind n) (hhushed.silent n hw)
  | @discard f a ns m hc hf hm hw =>
    have hgone := h.course.sound.good.forest.discarded_foldl ns
    exact h.hush (.discard hc hf hm hw) (hgone.cut.kind n) (hgone.silent n ⟨m, hm, hw⟩)

end Told

theorem History.told (h : History n ds st) : Told n ds st := by
  induction h with
  | start hc hk hsilent => exact .start hc hk hsilent
  | deed _ hd ih => exact ih.deed hd
  | other _ hn hsame ih => exact ih.other hn hsame

def Deed.spread? : Deed → Option String
  | .give event _ _ | .take event => some event
  | .listen .. | .hush => none

theorem Told.others_kept (h : Told n ds st) (hd : Does n st d next) (he : d.spread? = some event) :
    (next.host.store.node n).others event = (st.host.store.node n).others event ∧
      ∀ other, other ≠ event → (next.host.store.node n).handlers.get? other =
        (st.host.store.node n).handlers.get? other := by
  have hn := lt_size_of_element h.element
  cases hd with
  | @give key e env body held k hc hkey =>
    obtain rfl := Option.some_inj.1 he
    cases hname : isDelegatedName e with
    | true =>
      have hnode := node_setEvent_delegated hn
        (st.host.store.documentIn? (rootsOf (st.view language)) n) (fun m hm => h.ne_document hm)
        (.block env body) (.walk e) hname
      dsimp only [World.given]
      rw [hnode]
      exact ⟨rfl, fun other hne => Table.get?_put_ne _ _ hne.symm⟩
    | false =>
      have hnode := node_setEvent hn
        (st.host.store.documentIn? (rootsOf (st.view language)) n) (.block env body) (.walk e) hname
      dsimp only [World.given]
      rw [hnode]
      exact ⟨others_withGiven h.proper e _, fun _ _ => rfl⟩
  | @take key e held k hc hkey =>
    obtain rfl := Option.some_inj.1 he
    have hnode := node_removeEvent hn e
    rw [hnode]
    refine ⟨others_withoutGiven h.proper e, fun other hne => ?_⟩
    exact (Table.get?_erase _ _ _).trans (if_neg hne)
  | listen hc hx => cases he
  | dispose hc hx hw => cases he
  | discard hc hf hm hw => cases he

/-! ### Spreading properties -/

/-- What is done about an event if an element is given something under a key that asks for it. -/
def deedOf? (env : Env) (pair : String × Given) : Option Deed :=
  match Dom.Key.ofText pair.1, pair.2 with
  | .event event, .handler body => some (.give event env.later body)
  | .event event, .value (.literal .null) => some (.take event)
  | _, _ => none

variable {env : Env}

theorem deedOf?_handler (hkey : Dom.Key.ofText key = .event event) (body : Block) :
    deedOf? env (key, .handler body) = some (.give event env.later body) := by
  unfold deedOf?
  rw [hkey]

theorem deedOf?_null (hkey : Dom.Key.ofText key = .event event) :
    deedOf? env (key, .value (.literal .null)) = some (.take event) := by
  unfold deedOf?
  rw [hkey]

/-- Whether giving a node something under a key is a deed. -/
def Asks (pair : String × Gift) (d : Deed) : Prop :=
  ∃ event, Dom.Key.ofText pair.1 = .event event ∧
    ((∃ env body, pair.2 = .handler env body ∧ d = .give event env body) ∨
      (pair.2 = .value .null ∧ d = .take event))

theorem buildGift_of_deedOf? {pair} (h : deedOf? env pair = some d) (held : List Item) :
    ∃ gift, buildGift env held pair.2 = Action.pure gift ∧ Asks (pair.1, gift) d := by
  obtain ⟨key, given⟩ := pair
  unfold deedOf? at h
  dsimp only at h
  split at h
  · rename_i event body hkey
    cases h
    exact ⟨_, rfl, event, hkey, .inl ⟨_, _, rfl, rfl⟩⟩
  · rename_i event hkey
    cases h
    refine ⟨.value .null, ?_, event, hkey, .inr ⟨rfl, rfl⟩⟩
    rfl
  · cases h

theorem buildGifts_of_deeds {pairs} {deeds}
    (h : List.Forall₂ (fun pair d => deedOf? env pair = some d) pairs deeds)
    (built : List (String × Gift)) :
    ∃ gifts, buildGifts env built pairs = Action.pure (built ++ gifts) ∧
      List.Forall₂ Asks gifts deeds := by
  induction h generalizing built with
  | nil => exact ⟨[], by rw [append_nil]; rfl, .nil⟩
  | @cons pair d pairs deeds hfirst _ ih =>
    obtain ⟨gift, hgift, hasks⟩ :=
      buildGift_of_deedOf? hfirst (built.flatMap fun x => x.2.items)
    obtain ⟨gifts, hgifts, hrest⟩ := ih (built ++ [(pair.1, gift)])
    refine ⟨(pair.1, gift) :: gifts, ?_, .cons hasks hrest⟩
    have hall : buildGifts env built (pair :: pairs) =
        (buildGift env (built.flatMap fun x => x.2.items) pair.2).bind fun gift =>
          buildGifts env (built ++ [(pair.1, gift)]) pairs := rfl
    rw [hall, hgift]
    show buildGifts env (built ++ [(pair.1, gift)]) pairs = _
    rw [hgifts, append_assoc]
    rfl

theorem History.applyAll {gifts} {deeds} (hgifts : List.Forall₂ Asks gifts deeds)
    (h : History n ds st) {k : Except Dom.Error Unit → Act Result}
    (hc : st.control = .acting ((applyAll n gifts).bind k)) :
    ∃ w, History n (deeds.reverse ++ ds)
      { st with host := w, control := .acting (k (.ok ())) } := by
  induction hgifts generalizing ds st with
  | nil =>
    refine ⟨st.host, ?_⟩
    have hst : { st with control := .acting (k (.ok ())) } = st := by
      rw [show .acting (k (.ok ())) = st.control from hc.symm]
    rw [hst]
    exact h
  | @cons pair d gifts deeds hasks _ ih =>
    obtain ⟨key, gift⟩ := pair
    have hc := hc.trans (congrArg Reactive.Control.acting (Action.bind_assoc _ _ k))
    rw [reverse_cons, append_assoc]
    obtain ⟨event, hkey, ⟨env, body, rfl, rfl⟩ | ⟨rfl, rfl⟩⟩ := hasks
    · have hgiven := h.deed (.give hc hkey)
      obtain ⟨w, hw⟩ := ih hgiven rfl
      exact ⟨w, hw⟩
    · have htaken := h.deed (.take hc hkey)
      obtain ⟨w, hw⟩ := ih htaken rfl
      exact ⟨w, hw⟩

/-- Spreading properties that ask for events gives an element one thing after the other. -/
theorem History.spread (h : History n ds st) {k : Unit → Act Result} {pairs} {deeds}
    (hc : st.control = .acting ((exec env (.spread x pairs)).bind k))
    (hx : st.host.nodes.get? x = some n)
    (hp : List.Forall₂ (fun pair d => deedOf? env pair = some d) pairs deeds) :
    ∃ w, History n (deeds.reverse ++ ds) { st with host := w, control := .acting (k ()) } := by
  obtain ⟨gifts, hgifts, hasks⟩ := buildGifts_of_deeds hp []
  have hnext := h.other (Onward.named hc hx) rfl
  rw [hgifts] at hnext
  obtain ⟨w, hw⟩ := hnext.applyAll hasks
    (congrArg Reactive.Control.acting (Action.bind_assoc (Program.applyAll n gifts) _ k))
  exact ⟨w, hw⟩

/-! ### What is given last -/

/-- After a program has given an element things to do about events, under any keys, and has taken
some away again, with listeners added in between and the element disposed of at times,

* those listen who are expected to, in that order;
* for an event that is not listened for at the document, the element has one listener that came
  from properties, which does what was given last since it was disposed of, or none if nothing was
  given since then or that was taken away;
* for an event that is listened for at the document, this goes for the handler of the element;
* the other listeners are those that have been added since;
* and what is given or taken away further on does not affect who listens for other reasons or for
  other events. -/
theorem History.last_given_counts (h : History n ds st) :
    (st.host.store.node n).registrants = registrants ds ∧
      (∀ event, isDelegatedName event = false →
        ((st.host.store.node n).registrants.filter (·.isFor event)).map (·.handler) =
          (lastGiven event ds).toList) ∧
      (∀ event, isDelegatedName event = true →
        (st.host.store.node n).registrants.filter (·.isFor event) = [] ∧
          (st.host.store.node n).handlers.get? event = lastGiven event ds) ∧
      ((st.host.store.node n).registrants.filter (!·.given)).map (fun r => (r.event, r.handler)) =
        added ds ∧
      ∀ d next event, Does n st d next → d.spread? = some event →
        (next.host.store.node n).others event = (st.host.store.node n).others event ∧
          ∀ other, other ≠ event → (next.host.store.node n).handlers.get? other =
            (st.host.store.node n).handlers.get? other := by
  have htold := h.told
  refine ⟨htold.listeners, fun event hname => ?_,
    fun event hname => ⟨?_, htold.handlers event hname⟩,
    ?_, fun d next event hd he => htold.others_kept hd he⟩ <;> rw [htold.listeners]
  · rw [registrants_isFor hname, map_map]
    exact map_id _
  · exact registrants_isFor_delegated hname ds
  · exact registrants_not_given ds

def plainButton : Block := [.element "b" "button", .append "body" "b"]

/-- What the button does about three events, each given twice under different keys. -/
def buttonEvents : List (String × Given) := [
  ("onScroll", .handler [.stop]), ("on:SCROLL", .handler [.prevent]),
  ("@resize", .handler [.stop]), ("onResize", .value (.literal .null)),
  ("@Click", .handler [.stop]), ("on:click", .handler [.prevent])]

/-- The later handler for scrolling counts, that for resizing has been taken away, and clicks, which
are listened for at the document, get the later handler, too. -/
theorem History.last_given_counts_button : ∃ st : State setting,
    History 2 [.give "click" {} [.prevent], .give "click" {} [.stop], .take "resize",
      .give "resize" {} [.stop], .give "scroll" {} [.prevent], .give "scroll" {} [.stop]] st ∧
    ((st.host.store.node 2).registrants.filter (·.isFor "scroll")).map (·.handler) =
      [.block {} [.prevent]] ∧
    ((st.host.store.node 2).registrants.filter (·.isFor "resize")).map (·.handler) = [] ∧
    (st.host.store.node 2).handlers.get? "click" = some (.block {} [.prevent]) := by
  set st := stagedBy plainButton (.spread "b" buttonEvents)
  have hcourse : Course st := course_stagedBy (by decide +kernel)
  have hsilent : (st.host.store.node 2).hearing = ([], [], []) := by
    have hl : (st.host.store.node 2).listeners = [] := List.isEmpty_iff.1 (by decide +kernel)
    have hh : (st.host.store.node 2).handlers = [] := List.isEmpty_iff.1 (by decide +kernel)
    have hd : (st.host.store.node 2).direct = [] := List.isEmpty_iff.1 (by decide +kernel)
    rw [Dom.Node.hearing, hl, hh, hd]
  have hcontrol : st.control = .acting ((exec {} (.spread "b" buttonEvents)).bind
      fun _ => body (.block {} [])) := congrArg Reactive.Control.acting (body_block_cons {} _ [])
  have hdeeds : List.Forall₂ (fun pair d => deedOf? {} pair = some d) buttonEvents
      [.give "scroll" {} [.stop], .give "scroll" {} [.prevent], .give "resize" {} [.stop],
        .take "resize", .give "click" {} [.stop], .give "click" {} [.prevent]] :=
    .cons (deedOf?_handler (by decide +kernel) _) (.cons (deedOf?_handler (by decide +kernel) _)
      (.cons (deedOf?_handler (by decide +kernel) _) (.cons (deedOf?_null (by decide +kernel))
        (.cons (deedOf?_handler (by decide +kernel) _)
          (.cons (deedOf?_handler (by decide +kernel) _) .nil)))))
  obtain ⟨w, hw⟩ := (History.start hcourse (by decide +kernel) hsilent).spread hcontrol
    (by decide +kernel) hdeeds
  obtain ⟨-, hdirect, hdelegated, -⟩ := hw.last_given_counts
  exact ⟨_, hw, hdirect "scroll" (by decide +kernel), hdirect "resize" (by decide +kernel),
    (hdelegated "click" (by decide +kernel)).2⟩

end ReactiveMarkup.Program
