/-
Who listens at a node, and on account of what.

A node remembers under each event which of its listeners came from properties.  That
listener is the one to go when the element is given something else for the event.  The
number of a listener that has gone may still be remembered, but no later listener has it.
-/
import ReactiveMarkup.Proofs.Dom.Registers

namespace ReactiveMarkup.Dom

open List

variable {H : Type} {next : ListenerId} {event : String} {handler : H}

/-- Somebody who listens at a node, and whether this came from properties. -/
structure Registrant (H : Type) where
  event : String
  handler : H
  given : Bool

/-- Whether a registrant is the one that came from properties for an event. -/
def Registrant.isFor (r : Registrant H) (event : String) : Bool := r.given && r.event == event

namespace Node

variable {d : Node H}

def isGiven (d : Node H) (l : Listener H) : Bool := d.direct.get? l.event == some l.id

/-- Who listens at a node, in their order. -/
def registrants (d : Node H) : List (Registrant H) :=
  d.listeners.map fun l => ⟨l.event, l.handler, d.isGiven l⟩

/-- The listeners of a node, without the one for an event that came from properties. -/
def others (d : Node H) (event : String) : List (Listener H) :=
  d.listeners.filter fun l => !(d.isGiven l && l.event == event)

/-- The node without the listener for an event that is remembered. -/
def withoutGiven (d : Node H) (event : String) : Node H :=
  { d with listeners := d.listeners.filter fun l => d.direct.get? event != some l.id }

/-- The node with another listener for an event that came from properties. -/
def withGiven (d : Node H) (event : String) (id : ListenerId) (handler : H) : Node H :=
  { d with
    listeners := (d.withoutGiven event).listeners ++ [⟨id, event, handler⟩]
    direct := d.direct.put event id }

def withListener (d : Node H) (event : String) (id : ListenerId) (handler : H) : Node H :=
  { d with listeners := d.listeners ++ [⟨id, event, handler⟩] }

/-- Whether a node remembers numbers only below `next`, as those of all its listeners are, and each
under the event of its listener. -/
structure Proper (next : ListenerId) (d : Node H) : Prop where
  below : ∀ l ∈ d.listeners, l.id < next
  known : ∀ event id, d.direct.get? event = some id → id < next
  events : ∀ event, ∀ l ∈ d.listeners, d.direct.get? event = some l.id → l.event = event

theorem proper_silent (next : ListenerId) (h : d.hearing = ([], [], [])) : d.Proper next := by
  simp only [hearing, Prod.mk.injEq] at h
  obtain ⟨hl, -, hd⟩ := h
  constructor
  · simp [hl]
  · simp [hd, Table.get?]
  · simp [hl]

section

variable (h : d.Proper next)

include h

/-- A listener is the one that is remembered under an event just if it is for that event and came
from properties. -/
theorem Proper.remembered (hl : l ∈ d.listeners) :
    (d.direct.get? event == some l.id) = (d.isGiven l && l.event == event) := by
  rw [Bool.eq_iff_iff, Bool.and_eq_true_iff, beq_iff_eq, isGiven, beq_iff_eq, beq_iff_eq]
  constructor
  · intro hget
    have hevent := h.events event l hl hget
    exact ⟨hevent ▸ hget, hevent⟩
  · rintro ⟨hget, rfl⟩
    exact hget

/-! ### What becomes of the listeners -/

theorem Proper.withoutGiven (event : String) : (d.withoutGiven event).Proper next :=
  ⟨fun l hl => h.below l (mem_of_mem_filter hl), h.known,
    fun e l hl => h.events e l (mem_of_mem_filter hl)⟩

theorem Proper.withGiven (event : String) (handler : H) :
    (d.withGiven event next handler).Proper (next + 1) := by
  have hbelow : ∀ l ∈ (d.withoutGiven event).listeners, l.id < next := (h.withoutGiven event).below
  refine ⟨forall_mem_append.2 ⟨fun l hl => Nat.lt_succ_of_lt (hbelow l hl),
    forall_mem_singleton.2 (Nat.lt_succ_self next)⟩, fun e id he => ?_, fun e l hl he => ?_⟩
  · have he : (d.direct.put event next).get? e = some id := he
    by_cases hsame : event = e
    · rw [hsame, Table.get?_put_self] at he
      exact Option.some_inj.1 he ▸ Nat.lt_succ_self next
    · rw [Table.get?_put_ne _ _ hsame] at he
      exact Nat.lt_succ_of_lt (h.known e id he)
  · have he : (d.direct.put event next).get? e = some l.id := he
    rcases mem_append.1 hl with hl | hl
    · by_cases hsame : event = e
      · -- The number that is remembered now is that of no earlier listener.
        rw [hsame, Table.get?_put_self] at he
        exact absurd (hbelow l hl) (Option.some_inj.1 he ▸ Nat.lt_irrefl _)
      · rw [Table.get?_put_ne _ _ hsame] at he
        exact h.events e l (mem_of_mem_filter hl) he
    · rw [mem_singleton.1 hl] at he ⊢
      by_contra hne
      rw [Table.get?_put_ne _ _ hne] at he
      exact absurd (h.known e next he) (Nat.lt_irrefl _)

theorem Proper.withListener (event : String) (handler : H) :
    (d.withListener event next handler).Proper (next + 1) := by
  refine ⟨forall_mem_append.2 ⟨fun l hl => Nat.lt_succ_of_lt (h.below l hl),
    forall_mem_singleton.2 (Nat.lt_succ_self next)⟩,
    fun e id he => Nat.lt_succ_of_lt (h.known e id he),
      fun e => forall_mem_append.2 ⟨h.events e, ?_⟩⟩
  exact forall_mem_singleton.2 fun he => absurd (h.known e next he) (Nat.lt_irrefl _)

theorem Proper.listeners_withoutGiven (event : String) :
    (d.withoutGiven event).listeners = d.others event := by
  refine filter_congr fun l hl => ?_
  rw [bne, h.remembered hl]

theorem registrants_withoutGiven (event : String) :
    (d.withoutGiven event).registrants = d.registrants.filter fun r => !r.isFor event := by
  rw [registrants, h.listeners_withoutGiven, registrants, filter_map]
  rfl

theorem others_withoutGiven (event : String) :
    (d.withoutGiven event).others event = d.others event := by
  rw [others, h.listeners_withoutGiven, others, filter_filter]
  refine filter_congr fun l _ => ?_
  exact Bool.and_self _

theorem isGiven_withGiven (hl : l ∈ (d.withoutGiven event).listeners) :
    (d.withGiven event next handler).isGiven l = d.isGiven l := by
  obtain ⟨hmem, hnot⟩ := mem_filter.1 hl
  show ((d.direct.put event next).get? l.event == some l.id) = (d.direct.get? l.event == some l.id)
  by_cases hsame : event = l.event
  · -- It is not remembered, before and after.
    have hne : next ≠ l.id := fun he => absurd (h.below l hmem) (he ▸ Nat.lt_irrefl _)
    rw [← hsame]
    rw [bne, Bool.not_eq_true'] at hnot
    rw [hnot]
    simpa using hne
  · rw [Table.get?_put_ne _ _ hsame]

theorem registrants_withGiven (event : String) (handler : H) :
    (d.withGiven event next handler).registrants =
      (d.registrants.filter fun r => !r.isFor event) ++ [⟨event, handler, true⟩] := by
  have hlisteners : (d.withGiven event next handler).listeners =
      (d.withoutGiven event).listeners ++ [⟨next, event, handler⟩] := rfl
  rw [← registrants_withoutGiven h, registrants, hlisteners, map_append]
  refine congrArg₂ (· ++ ·) (map_congr_left fun l hl => ?_) ?_
  · rw [isGiven_withGiven h hl]
    rfl
  · simp [isGiven, withGiven]

theorem others_withGiven (event : String) (handler : H) :
    (d.withGiven event next handler).others event = d.others event := by
  have hlisteners : (d.withGiven event next handler).listeners =
      (d.withoutGiven event).listeners ++ [⟨next, event, handler⟩] := rfl
  have hnew : (d.withGiven event next handler).isGiven ⟨next, event, handler⟩ = true := by
    simp [isGiven, withGiven]
  rw [others, hlisteners, filter_append, ← others_withoutGiven h, others]
  -- Of the listeners that were there, the same are kept; the new one is not.
  have hold : (d.withoutGiven event).listeners.filter
      (fun l => !((d.withGiven event next handler).isGiven l && l.event == event)) =
        (d.withoutGiven event).listeners.filter
          fun l => !((d.withoutGiven event).isGiven l && l.event == event) := by
    refine filter_congr fun l hl => ?_
    rw [isGiven_withGiven h hl]
    rfl
  rw [hold, filter_singleton, hnew]
  simp

theorem registrants_withListener (event : String) (handler : H) :
    (d.withListener event next handler).registrants = d.registrants ++
    [⟨event, handler, false⟩] := by
  have hnew : d.direct.get? event ≠ some next := fun he =>
    absurd (h.known event next he) (Nat.lt_irrefl _)
  rw [registrants, registrants]
  simpa [isGiven, withListener] using hnew

end

theorem registrants_congr {d' : Node H} (h : d'.hearing = d.hearing) :
    d'.registrants = d.registrants := by
  simp only [hearing, Prod.mk.injEq] at h
  obtain ⟨hl, -, hd⟩ := h
  simp only [registrants, isGiven, hl, hd]

theorem Proper.mono (hp : d.Proper next) {next'} (hle : next ≤ next') :
    d.Proper next' where
  below l hl := Nat.lt_of_lt_of_le (hp.below l hl) hle
  known e id he := Nat.lt_of_lt_of_le (hp.known e id he) hle
  events := hp.events

theorem Proper.congr {d' : Node H} (hp : d.Proper next) (h : d'.hearing = d.hearing) :
    d'.Proper next := by
  simp only [hearing, Prod.mk.injEq] at h
  obtain ⟨hl, -, hd⟩ := h
  constructor
  · rw [hl]
    exact hp.below
  · rw [hd]
    exact hp.known
  · rw [hl, hd]
    exact hp.events

end Node

/-! ### What an element is given -/

namespace Store

variable {s : Store H} {m n : NodeId}

theorem node_removeDirect (hn : n < s.nodes.size) (event : String) :
    (s.removeDirect n event).node n = (s.node n).withoutGiven event := by
  unfold removeDirect
  split
  · rename_i id hid
    rw [removeListener, node_modify_self _ hn]
    refine congrArg (fun ls => { s.node n with listeners := ls }) (filter_congr fun l _ => ?_)
    rw [hid, Bool.eq_iff_iff, bne_iff_ne, bne_iff_ne, ne_eq, ne_eq, Option.some_inj, eq_comm]
  · rename_i hnone
    have hall : (s.node n).listeners.filter (fun l => (none) != some l.id) =
        (s.node n).listeners := filter_eq_self.2 fun _ _ => rfl
    rw [Node.withoutGiven, hnone, hall]

theorem nextListener_removeDirect (s : Store H) (n : NodeId) (event : String) :
    (s.removeDirect n event).nextListener = s.nextListener := by
  unfold removeDirect
  split <;> rfl

theorem setEvent_eq (s : Store H) (n : NodeId) (document : Option NodeId) (handler walk : H)
    (hname : isDelegatedName event = false) :
    s.setEvent n document event handler walk =
      (((s.removeDirect n event).addListener n event handler).1.modify n fun d =>
        { d with direct := d.direct.put event s.nextListener }) := by
  rw [setEvent, hname, if_neg Bool.false_ne_true, addListener, nextListener_removeDirect]

theorem node_setEvent (hn : n < s.nodes.size) (document : Option NodeId) (handler walk : H)
    (hname : isDelegatedName event = false) :
    (s.setEvent n document event handler walk).node n =
      (s.node n).withGiven event s.nextListener handler := by
  have hsize : n < (s.removeDirect n event).nodes.size := by
    rwa [(sameTrees_removeDirect s n event).size]
  rw [setEvent_eq s n document handler walk hname,
    node_modify_self _ (by simpa [addListener] using hsize)]
  rw [addListener, nextListener_removeDirect]
  have hnode := node_modify_self
    (fun d => { d with listeners := d.listeners ++ [⟨s.nextListener, event, handler⟩] }) hsize
  rw [node_removeDirect hn] at hnode
  exact congrArg (fun d : Node H => { d with direct := d.direct.put event s.nextListener }) hnode

theorem nextListener_setEvent (s : Store H) (n : NodeId) (document : Option NodeId)
    (handler walk : H)
    (hname : isDelegatedName event = false) :
    (s.setEvent n document event handler walk).nextListener = s.nextListener + 1 := by
  rw [setEvent_eq s n document handler walk hname]
  exact congrArg (· + 1) (nextListener_removeDirect s n event)

theorem node_delegate_ne (h : m ≠ d) (s : Store H) (event : String) (walk : H) :
    (s.delegate d event walk).node m = s.node m := by
  unfold delegate
  split
  · rfl
  · exact (node_modify_ne _ h).trans (node_modify_ne _ h)

theorem node_setEvent_delegated (hn : n < s.nodes.size) (document : Option NodeId)
    (hd : ∀ d, document = some d → n ≠ d) (handler walk : H)
    (hname : isDelegatedName event = true) :
    (s.setEvent n document event handler walk).node n =
      { s.node n with handlers := (s.node n).handlers.put event handler } := by
  rw [setEvent, hname]
  cases document with
  | none => exact node_modify_self _ hn
  | some d => exact (node_delegate_ne (hd d rfl) _ event walk).trans (node_modify_self _ hn)

theorem node_removeEvent (hn : n < s.nodes.size) (event : String) :
    (s.removeEvent n event).node n =
      { (s.node n).withoutGiven event with handlers := (s.node n).handlers.erase event } := by
  rw [removeEvent, clearHandler,
    node_modify_self _ (by rwa [(sameTrees_removeDirect s n event).size]), node_removeDirect hn]
  rfl

theorem node_addListener (hn : n < s.nodes.size) (event : String) (handler : H) :
    (s.addListener n event handler).1.node n =
      (s.node n).withListener event s.nextListener handler :=
  node_modify_self _ hn

end Store

end ReactiveMarkup.Dom
