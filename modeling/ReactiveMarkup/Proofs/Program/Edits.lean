/-
What code does to registers and events.

All code makes edits of the few kinds there are, so what edits keep holds wherever a
program comes to.  The events that there are when some code starts are not served by it,
except by the code that takes an event from node to node.
-/
import ReactiveMarkup.Proofs.Program.Registers

namespace ReactiveMarkup.Program

open Dom.Store

open Dom (NodeId)
open Dom.Store (Quiet IsDocument Fades)
open Reactive (Regime State)
open Relation (ReflTransGen)

variable {N : Nat} {fade : Prop} {w w' : World} {n : NodeId}

/-! ### The regime of edits -/

/-- Which code words may run: documents are documents, and only events from `N` on are served. -/
def Code.Suits (N : Nat) (w : World) : Code → Prop
  | .nodes document _ => w.store.IsDocument document
  | .bubble e _ | .walk e _ _ => N ≤ e
  | _ => True

theorem isDocument_of_edits (h : ReflTransGen (Edit N fade) w w') (hd : w.store.IsDocument n) :
    w'.store.IsDocument n := by
  induction h with
  | refl => exact hd
  | tail _ hstep ih => exact hstep.isDocument ih

/-- The regime of edits, where only events from `N` on are served. -/
def registry (N : Nat) : Regime setting where
  Good w := w.Registered ∧ N ≤ w.events.size
  Allowed _ _ := True
  Before := ReflTransGen (Edit N True)
  CodeFits := Code.Suits N
  ResultFits _ _ := True
  Kept := Code.Lasting
  refl _ := .refl
  trans h h' := h.trans h'
  code_mono {_ _ code} h hc := by
    cases code with
    | nodes document x => exact isDocument_of_edits h hc
    | bubble e n | walk e name n => exact hc
    | _ => trivial
  result_mono _ _ := trivial

theorem later_of_edits (h : ReflTransGen (Edit N fade) w w') (hw : (registry N).Good w) :
    (registry N).Later w w' := by
  refine ⟨h.lift id fun _ _ => Edit.mono, ?_⟩
  induction h with
  | refl => exact hw
  | tail _ hstep ih => exact ⟨hstep.registered ih.1, Nat.le_trans ih.2 hstep.size_le⟩

theorem eventKept_of_edits (h : ReflTransGen (Edit N fade) w w') (hw : (registry N).Good w)
    {e : EventId}
    (he : e < N) : EventKept w w' e := by
  induction h with
  | refl => exact .of_eq rfl
  | tail hsteps hstep ih => exact ih.trans (hstep.eventKept (later_of_edits hsteps hw).good.2 he)

/-! ### Edits of moves -/

theorem edits_delegate (hd : w.store.IsDocument d) (event : String) :
    ReflTransGen (Edit N fade) w { w with store := w.store.delegate d event (.walk event) } := by
  unfold Dom.Store.delegate
  split
  · exact .refl
  · rename_i hnew
    have hwatch : Edit N fade w { w with store := { w.store.modify d fun x => { x with
        delegated := x.delegated ++ [event]
        listeners := x.listeners ++ [⟨w.store.nextListener, event, .walk event⟩] } with
          nextListener := w.store.nextListener + 1 } } :=
      .retune d _ (.watch event hd (by simpa using hnew))
    refine .single ?_
    dsimp only [Dom.Store.addListener]
    rw [modify_modify]
    exact hwatch

theorem edits_foldl_delegate (hd : w.store.IsDocument d) (events : List String) :
    ReflTransGen (Edit N fade) w
      { w with store :=
          events.foldl (fun s event => s.delegate d event (.walk event)) w.store } := by
  induction events generalizing w with
  | nil => exact .refl
  | cons event rest ih =>
    have hfirst : ReflTransGen (Edit N fade) w _ := edits_delegate hd event
    exact hfirst.trans (ih (isDocument_of_edits hfirst hd))

theorem edits_removeDirect (hw : w.Registered) (n : NodeId) (event : String) :
    ReflTransGen (Edit N fade) w { w with store := w.store.removeDirect n event } := by
  unfold Dom.Store.removeDirect
  split
  · rename_i id hid
    exact .single (.retuneSame n _ (.unlisten (hw.remembered n event id hid)))
  · exact .refl

theorem plain_addListener (hw : w.Registered) (n : NodeId) (event : String) (env : Env)
    (body : Block) :
    Plain (w.store.addListener n event (.block env body)).1 w.store.nextListener := by
  refine ⟨Nat.lt_succ_self _, fun m l hl he => ?_⟩
  have hold : l ∉ (w.store.node m).listeners := fun hl =>
    absurd ((hw.tidy m).below l hl) (he ▸ Nat.lt_irrefl _)
  rcases node_modify w.store n m fun d =>
    { d with listeners := d.listeners ++ [⟨w.store.nextListener, event, .block env body⟩] }
    with hm | ⟨-, -, hm⟩
  · exact absurd (hm ▸ hl) hold
  · rcases List.mem_append.1 (hm ▸ hl) with hl | hl
    · exact absurd hl hold
    · rw [List.mem_singleton.1 hl]
      rfl

theorem edits_setEvent {document} (hw : (registry N).Good w)
    (hd : ∀ d, document = some d → w.store.IsDocument d) (n : NodeId) (event : String) (env : Env)
    (body : Block) : ReflTransGen (Edit N fade) w
      { w with store := w.store.setEvent n document event (.block env body) (.walk event) } := by
  unfold Dom.Store.setEvent
  split
  · have hset : ReflTransGen (Edit N fade) w
        { w with store := w.store.setHandler n event (.block env body) } :=
      .single (.retuneSame n _ (.handle event env body))
    cases document with
    | none => exact hset
    | some d => exact hset.trans (edits_delegate (isDocument_of_edits hset (hd d rfl)) event)
  · have hfirst : ReflTransGen (Edit N fade) w _ := edits_removeDirect hw.1 n event
    refine hfirst.trans
      (.head (.listen n event env body) (.single (.retuneSame n _ (.direct event ?_))))
    exact plain_addListener (later_of_edits hfirst hw).good.1 n event env body

def registry.terms (N : Nat) : Terms where
  Node _ _ := True
  Document w d := w.store.IsDocument d
  Event e := N ≤ e

/-- All that code does to the world is done by edits.  Where nodes lose all their listeners, nothing
else happens to those who listen. -/
theorem edits_of_move (hw : (registry N).Good w) (hm : Move (registry.terms N) w w') :
    ReflTransGen (Edit N (Fades w.store w'.store)) w w' := by
  cases hm with
  | name | books => exact .single (.books rfl rfl rfl rfl rfl rfl)
  | unname name hd => exact .head (.document _ hd) (.single (.books rfl rfl rfl rfl rfl rfl))
  | create hd kind tag data => exact .single (.quiet (quiet_create hd kind tag data))
  | document => exact .single (.quiet w.store.quiet_newDocument)
  | openDocument name =>
    refine .head (.quiet w.store.quiet_newDocument)
      (.head (.document _ w.store.isDocument_newDocument) (.single ?_))
    exact .books rfl rfl rfl rfl rfl rfl
  | copy n deep => exact .single (.quiet (quiet_copy hw.1.owned n deep))
  | @template _ store _ name h =>
    exact .head (.quiet (quiet_template hw.1.document h)) (.single (.books rfl rfl rfl rfl rfl rfl))
  | insertAt hp hn mark => exact .single (.quiet (w.store.quiet_insertAt _ mark _))
  | removeChild h => exact .single (.quiet (quiet_removeChild? h))
  | detach n => exact .single (.quiet (w.store.quiet_detach n))
  | content hq ht => exact .single (.quiet hq)
  | insertion hp hd => exact .single (.insertion _ hd)
  | fill i nodes => exact .single (.fill i nodes)
  | dispose n =>
    exact disposeWithin_induction (P := fun s s' =>
      ReflTransGen (Edit N _) { w with store := s } { w with store := s' }) (fun _ => .refl)
      (fun h h' => h.trans h') (fun s m => .single (.retuneSame m _ (.hush (.dispose _ n)))) _ _ n
  | discard ns =>
    exact discard_induction (P := fun s s' =>
      ReflTransGen (Edit N _) { w with store := s } { w with store := s' }) (fun _ => .refl)
      (fun h h' => h.trans h') (fun s m => .single (.retuneSame m _ (.hush (.discard _ ns))))
      (fun s m => .single (.quiet (quiet_detach s m))) ns _
  | setEvent n hd event env body => exact edits_setEvent hw hd n event env body
  | removeEvent n event =>
    exact (edits_removeDirect hw.1 n event).tail (.retuneSame n _ (.unhandle event))
  | listen n event l env body =>
    exact .head (.listen n event env body)
      (.single (.list l (plain_addListener hw.1 n event env body)))
  | unlisten n h => exact .single (.retuneSame n _ (.unlisten (hw.1.listed _ _ h)))
  | handle n event env body => exact .single (.retuneSame n _ (.handle event env body))
  | unhandle n event => exact .single (.retuneSame n _ (.unhandle event))
  | delegate events => exact edits_foldl_delegate hw.1.document events
  | send name target => exact .single (.send name target)
  | serve he current => exact .single (.serve _ current he)
  | stop e => exact .single (.stop e)
  | prevent e => exact .single (.prevent e)

instance : Allows (registry N) (registry.terms N) where
  code {_ code} := by
    cases code with
    | nodes document x => exact ⟨fun h => ⟨h, fun _ _ => trivial⟩, fun h => h.1⟩
    | _ => exact Iff.rfl
  result {_ r} := by
    cases r with
    | nodes _ | content _ => exact ⟨fun _ _ _ => trivial, fun _ => trivial⟩
    | _ => exact Iff.rfl
  kept h := h
  node_later _ _ := trivial
  document_later hl hd := isDocument_of_edits hl.before hd
  node_of_lt _ := trivial
  document_of hd := hd
  named _ _ := trivial
  child _ _ := trivial
  copied _ _ _ := trivial
  placed hw hx := ⟨trivial, hw.1.placed _ hx⟩
  main hw := hw.1.main
  document hw := hw.1.document
  owner hw hd := hw.1.owned.isDocument_of_documentIn? hd
  event hw := hw.2
  move hw hm _ := later_of_edits (edits_of_move hw hm) hw

theorem registry_obeys (N : Nat) : (registry N).Obeys language := obeys_of_allows

/-! ### Courses -/

theorem heard_start (n : NodeId) : (World.start.store.node n).hearing = ([], [], []) ∧
    (World.start.store.node n).delegated = [] := by
  obtain ⟨hh, hd⟩ := (quiet_newDocument ({})).heard n
  exact ⟨hh.trans (by simp [Dom.Store.node, Dom.Node.hearing]), hd.trans (by simp [Dom.Store.node])⟩

theorem registered_start : World.start.Registered := by
  have hempty : ∀ n, Tidy 0 (({} : Dom.Store Handler).node n) := fun n =>
    ⟨by simp [Dom.Store.node], by simp [Dom.Store.node], by simp [Dom.Store.node],
      by simp [Dom.Store.node, Table.get?], by simp [Dom.Store.node], by simp [Dom.Store.node]⟩
  have howned : ({} : Dom.Store Handler).Owned := fun n d hd =>
    absurd hd (by simp [Dom.Store.node])
  have hquiet := quiet_newDocument ({} : Dom.Store Handler)
  have hdoc := isDocument_newDocument ({} : Dom.Store Handler)
  refine ⟨tidy_quiet hempty hquiet, howned.quiet hquiet, rfl, hdoc, hdoc,
    fun x hx => absurd hx (by simp [World.start]), fun n event id hget => ?_,
    fun l id hget => absurd hget (by simp [World.start, Table.get?])⟩
  have hsilent : (World.start.store.node n).direct = [] :=
    congrArg (fun r => r.2.2) (heard_start n).1
  exact absurd hget (by simp [hsilent, Table.get?])

theorem Course.registered {st} (h : Course st) : (registry 0).Sound st := by
  induction h with
  | start s =>
    have hw : (registry 0).Good World.start := ⟨registered_start, Nat.zero_le _⟩
    exact sound_start hw s
  | step hst hstep hloop ih => exact hst.sound_onward ih (.step hstep hloop) trivial
  | statement s hst hend ih => exact hst.sound_onward ih (.statement s hend) trivial
  | watch e hst hend ih => exact hst.sound_onward ih (.watch e hend) trivial

theorem Course.edits_of_onward {st next} (h : Course st) (hn : Onward st next) :
    ReflTransGen (Edit 0 True) st.host next.host := by
  cases hn with
  | step hstep _ =>
    obtain ⟨past, hs⟩ := h.session
    exact ((Regime.sound_iff.1 h.registered).step (registry_obeys 0) hs.orderly hstep trivial
      fun _ _ _ _ => Nat.zero_le _).2.before
  | statement s _ => exact .single (.books rfl rfl rfl rfl rfl rfl)
  | watch e _ => exact .refl

theorem Course.edits_of_steps {st next} (h : Course st) (hs : ReflTransGen Onward st next) :
    Course next ∧ ReflTransGen (Edit 0 True) st.host next.host := by
  induction hs with
  | refl => exact ⟨h, .refl⟩
  | tail _ hstep ih => exact ⟨ih.1.onward hstep, ih.2.trans (ih.1.edits_of_onward hstep)⟩

theorem kind_of_edits (h : ReflTransGen (Edit N fade) w w') (hn : n < w.store.nodes.size) :
    n < w'.store.nodes.size ∧ (w'.store.node n).kind = (w.store.node n).kind := by
  induction h with
  | refl => exact ⟨hn, rfl⟩
  | tail _ hstep ih =>
    obtain ⟨hlt, hkind⟩ := hstep.kind ih.1
    exact ⟨hlt, hkind.trans ih.2⟩

theorem nextListener_le_of_edits (h : ReflTransGen (Edit N fade) w w') :
    w.store.nextListener ≤ w'.store.nextListener := by
  induction h with
  | refl => exact Nat.le_refl _
  | tail _ hstep ih => exact Nat.le_trans ih hstep.nextListener_le

end ReactiveMarkup.Program
