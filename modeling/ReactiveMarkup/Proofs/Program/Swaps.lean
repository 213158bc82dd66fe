/-
Content that is kept up to date.

Each time the content is asked for, the nodes that it had before and has no longer are
taken out for good, and those that it has now go right before the mark.  A fragment is
remembered as such, although only its children were put in: they stay behind when the
fragment is no longer listed, and a node that comes back in a fragment is taken out.

* `Rounds.content_swapped`: what a further round makes of the children, of the nodes
  that are no longer listed, and of those who listen;
* `fragment_left_behind`: what a fragment held is not taken out again.
-/
import Mathlib.Data.List.Permutation
import ReactiveMarkup.Proofs.Dom.Splicing
import ReactiveMarkup.Proofs.Program.Placing

namespace ReactiveMarkup.Program

open List

open Dom (NodeId)
open Dom.Store (Placeable Swapped)
open Reactive (Action State Steps)

/-! ### The end of a round -/

theorem settle?_splice (p : NodeId) (mark : Option NodeId) (ns : List NodeId) (w : World) :
    (splice p mark ns).settle? w =
      some ((), { w with store := ns.foldl (fun s n => s.place p mark n) w.store }) := by
  induction ns generalizing w with
  | nil => rfl
  | cons n rest ih => exact ih { w with store := w.store.place p mark n }

/-- What `swap` makes of the world. -/
def World.swapped (w : World) (i : Nat) (x : Insertion) (nodes : List NodeId) : World :=
  { w with
    store := nodes.foldl (fun s n => s.place x.parent x.mark n)
      (((w.listed i).filter fun n => !nodes.contains n).foldl Dom.Store.discard w.store)
    insertions := w.insertions.modify i fun x => { x with nodes } }

theorem settle?_swap (i : Nat) (x : Insertion) (nodes : List NodeId) (w : World) :
    (swap i x nodes).settle? w = some ((), w.swapped i x nodes) :=
  Action.settle?_bind (settle?_splice x.parent x.mark nodes _)

/-! ### Rounds -/

/-- A place that content is kept in, and what is there otherwise. -/
structure Spot where
  number : Nat
  parent : NodeId
  mark : NodeId
  /-- The other children of the parent, before the place and after the mark. -/
  before : List NodeId
  after : List NodeId
  /-- The nodes that the rest of the program leaves alone while they are not listed. -/
  Alone : NodeId → Prop

/-- What has come of content one time. -/
structure Round where
  nodes : List NodeId
  /-- What stood in the place when they came. -/
  stood : List NodeId
  brought : List NodeId

/-- What was listed in the last round. -/
def latest : List Round → List NodeId
  | [] => []
  | r :: _ => r.nodes

/-- What a round leaves of what stood there: all that is listed neither now nor in the round
before. -/
def Round.left (r : Round) (earlier : List Round) : List NodeId :=
  r.stood.filter (· ∉ r.nodes ++ latest earlier)

/-- What stands in the place after some rounds, the latest first. -/
def standing : List Round → List NodeId
  | [] => []
  | r :: earlier => r.left earlier ++ r.brought

/-- Whether a round is about to swap its nodes for those of the round before.  Since then, the rest
of the program may have taken nodes out of the place, but has not touched the other children, or
the nodes that it leaves alone. -/
structure Due (z : Spot) (rounds : List Round) (st next : State setting) (x : Insertion)
    (nodes stood : List NodeId) (k : Unit → Act Result) : Prop where
  steps : ∃ during, Steps language st during next
  control : next.control = .acting ((swap z.number x nodes).bind k)
  parent : x.parent = z.parent
  mark : x.mark = some z.mark
  intact : next.host.Intact
  placeable : Placeable next.host.store z.parent z.mark nodes
  others : ∀ n ∈ nodes, n ∉ z.before ++ z.after
  record : (next.host.insertions[z.number]?).map (·.nodes) =
    (st.host.insertions[z.number]?).map (·.nodes)
  kids : next.host.store.children z.parent = z.before ++ stood ++ z.mark :: z.after
  stood : stood.Sublist (standing rounds)
  alone : ∀ r ∈ rounds, ∀ d ∈ r.nodes, z.Alone d → d ∉ latest rounds → d ∉ nodes →
    next.host.store.parent? d = st.host.store.parent? d ∧
      (next.host.store.node d).hearing = (st.host.store.node d).hearing

/-- The round that is about to swap its nodes. -/
def roundOf (rounds : List Round) (s : Dom.Store Handler) (nodes stood : List NodeId) : Round where
  nodes := nodes
  stood := stood
  brought := s.contents (nodes ++ latest rounds) nodes

/-- Whether a program has come to a state through rounds of content, the latest first. -/
inductive Rounds (z : Spot) : List Round → State setting → Prop
  | start {st : State setting} : (st.host.insertions[z.number]?).map (·.nodes) = some [] →
      st.host.store.children z.parent = z.before ++ z.mark :: z.after → Rounds z [] st
  | round {rounds : List Round} {st next : State setting} {x : Insertion}
      {nodes stood : List NodeId} {k : Unit → Act Result} : Rounds z rounds st →
      Due z rounds st next x nodes stood k →
      Rounds z (roundOf rounds next.host.store nodes stood :: rounds)
        { next with host := next.host.swapped z.number x nodes, control := .acting (k ()) }

variable {z : Spot} {rounds : List Round} {st next : State setting} {x : Insertion}
  {nodes stood : List NodeId} {k : Unit → Act Result}

theorem Rounds.record (h : Rounds z rounds st) :
    (st.host.insertions[z.number]?).map (·.nodes) = some (latest rounds) := by
  induction h with
  | start hrecord _ => exact hrecord
  | @round rounds st next x nodes stood k _ hd ih =>
    obtain ⟨y, hy, -⟩ := Option.map_eq_some_iff.1 (hd.record.trans ih)
    simp [World.swapped, roundOf, latest, Array.getElem?_modify, hy]

/-- No round has listed the mark or one of the other children. -/
theorem Rounds.others (h : Rounds z rounds st) :
    ∀ r ∈ rounds, ∀ n ∈ r.nodes, n ≠ z.mark ∧ n ∉ z.before ++ z.after := by
  induction h with
  | start _ _ => simp
  | round _ hd ih =>
    refine forall_mem_cons.2 ⟨fun n hn => ⟨?_, hd.others n hn⟩, ih⟩
    rintro rfl
    exact hd.placeable.mark hn

theorem mem_nodes_of_latest (hd : d ∈ latest rounds) : ∃ r ∈ rounds, d ∈ r.nodes := by
  cases rounds with
  | nil => exact absurd hd (by simp [latest])
  | cons r rest => exact ⟨r, .head _, hd⟩

namespace Due

section

variable (hd : Due z rounds st next x nodes stood k) (h : Rounds z rounds st)

include hd h

theorem swapped :
    Swapped next.host.store (next.host.swapped z.number x nodes).store z.parent z.mark
      (latest rounds) nodes := by
  have hlisted : next.host.listed z.number = latest rounds := by
    rw [World.listed, hd.record, h.record]
    rfl
  have hmark : next.host.store.parent? z.mark = some z.parent := by
    rw [← hd.intact.forest.linked, hd.kids]
    simp
  have hnot : z.mark ∉ latest rounds := fun hmem => by
    obtain ⟨r, hr, hn⟩ := mem_nodes_of_latest hmem
    exact (h.others r hr _ hn).1 rfl
  have hall := hd.intact.forest.swapped hmark hd.placeable hnot
  rw [World.swapped, hlisted, hd.parent, hd.mark]
  exact hall

theorem intact_swapped : (next.host.swapped z.number x nodes).Intact where
  forest := (hd.swapped h).forest
  named name n hn := Nat.lt_of_lt_of_eq (hd.intact.named name n hn) (hd.swapped h).size.symm
  placed y hy := by
    have hold : ∃ y' ∈ next.host.insertions, y'.parent = y.parent := by
      obtain ⟨j, hj⟩ := Array.getElem?_of_mem hy
      rw [World.swapped, Array.getElem?_modify] at hj
      split at hj
      · obtain ⟨y', hy', rfl⟩ := Option.map_eq_some_iff.1 hj
        exact ⟨y', Array.mem_of_getElem? hy', rfl⟩
      · exact ⟨y, Array.mem_of_getElem? hj, rfl⟩
    obtain ⟨y', hy', hparent⟩ := hold
    rw [← hparent]
    exact Nat.lt_of_lt_of_eq (hd.intact.placed y' hy') (hd.swapped h).size.symm

theorem children_eq : (next.host.swapped z.number x nodes).store.children z.parent =
      z.before ++ standing (roundOf rounds next.host.store nodes stood :: rounds) ++
        z.mark :: z.after := by
  have hlatest : ∀ n ∈ latest rounds, n ≠ z.mark ∧ n ∉ z.before ++ z.after := fun n hn =>
    have ⟨r, hr, hmem⟩ := mem_nodes_of_latest hn
    h.others r hr n hmem
  rw [(hd.swapped h).children_eq hd.intact.forest hd.kids]
  · simp [standing, Round.left, roundOf]
  · rw [mem_append, not_or]
    exact ⟨hd.placeable.mark, fun hmem => (hlatest _ hmem).1 rfl⟩
  · intro c hc hmem
    rcases mem_append.1 hmem with hmem | hmem
    · exact hd.others c hmem hc
    · exact (hlatest c hmem).2 hc

end

end Due

/-- Whether all that stands in the place is listed, or has come with a fragment. -/
def Accounted (rounds : List Round) : Prop :=
  ∀ c ∈ standing rounds, c ∈ latest rounds ∨ ∃ r ∈ rounds, c ∈ r.brought ∧ c ∉ r.nodes

/-- What a round leaves has come with a fragment in an earlier one. -/
theorem Accounted.left (h : Accounted rounds) (hstood : stood.Sublist (standing rounds))
    (nodes : List NodeId) : ∀ c ∈ stood.filter (· ∉ nodes ++ latest rounds),
      ∃ r ∈ rounds, c ∈ r.brought ∧ c ∉ r.nodes := by
  intro c hc
  obtain ⟨hc, hnot⟩ := mem_filter.1 hc
  have hnot : c ∉ nodes ++ latest rounds := of_decide_eq_true hnot
  exact (h c (hstood.subset hc)).resolve_left fun hmem => hnot (mem_append_right _ hmem)

theorem Rounds.accounted (h : Rounds z rounds st) : Accounted rounds := by
  induction h with
  | start _ _ => exact fun c hc => absurd hc (by simp [standing])
  | @round rounds st next x nodes stood k _ hd ih =>
    intro c hc
    rcases mem_append.1 hc with hleft | hbrought
    · obtain ⟨r, hr, hcr⟩ := ih.left hd.stood nodes c hleft
      exact .inr ⟨r, .tail _ hr, hcr⟩
    · by_cases hmem : c ∈ nodes
      · exact .inl hmem
      · exact .inr ⟨_, .head _, hbrought, hmem⟩

/-- Whether a node has no parent, and nobody listens at it. -/
def Idle (s : Dom.Store Handler) (d : NodeId) : Prop :=
  s.parent? d = none ∧ (s.node d).hearing = ([], [], [])

/-- A node that was listed, and is not any more, is out for good, unless a fragment has brought it
in.  It must have been left alone since, if there was a round since. -/
theorem Rounds.idle (h : Rounds z rounds st) : ∀ r ∈ rounds, ∀ d ∈ r.nodes,
    d ∈ latest rounds.tail ∨ z.Alone d → d ∉ latest rounds →
    (∀ r' ∈ rounds, d ∈ r'.brought → d ∈ r'.nodes) → Idle st.host.store d := by
  induction h with
  | start _ _ => simp
  | @round rounds st next x nodes stood k hrounds hd ih =>
    intro r hr d hdr halone hnot hplain
    have hs := hd.swapped hrounds
    have hnot : d ∉ nodes := hnot
    rcases mem_cons.1 hr with rfl | hr
    · exact absurd hdr hnot
    have hbrought : d ∉ next.host.store.contents (nodes ++ latest rounds) nodes := fun hmem =>
      hnot (hplain _ (.head _) hmem)
    show (next.host.swapped z.number x nodes).store.parent? d = none ∧ _
    rw [hs.parent, if_neg hbrought]
    by_cases hlast : d ∈ latest rounds
    · -- It was listed in the round before, and so it is taken out now.
      exact ⟨if_pos ⟨hlast, hnot⟩, hs.silent d ⟨d, hlast, hnot, .refl⟩⟩
    · have halone := halone.resolve_left hlast
      rw [if_neg fun hmem => hlast hmem.1]
      obtain ⟨hparent, hsilent⟩ := ih r hr d hdr (.inr halone) hlast fun r' hr' =>
        hplain r' (.tail _ hr')
      obtain ⟨hp, hh⟩ := hd.alone r hr d hdr halone hlast hnot
      refine ⟨hp.trans hparent, ?_⟩
      by_cases hw : ∃ a ∈ latest rounds, a ∉ nodes ∧ next.host.store.Within d a
      · exact hs.silent d hw
      · exact (hs.heard d fun a ha han hwa => hw ⟨a, ha, han, hwa⟩).trans (hh.trans hsilent)

/-- Each round of content swaps the nodes of the round before for those of this one.

* The other children keep their places and their order.  Right before the mark stand, in their
  order, the nodes of this round, with what a fragment holds in the place of the fragment; but of
  what it holds, nodes that are listed themselves are not taken from their own places, and nodes
  that were listed in the round before have been taken out.
* Before them stands what stood there already and is listed neither in this round nor in the one
  before.  It has come with a fragment in an earlier round; so there is none if no fragment has
  brought anything in before.
* A node that was listed in the round before and is not now, and that no fragment has brought in,
  has no parent, and nobody listens at it.  So it is with those of earlier rounds, if they have
  been left alone since.
* Who listens at a node stays the same, unless the node is at or below one that is taken out. -/
theorem Rounds.content_swapped (h : Rounds z rounds st)
    (hd : Due z rounds st next x nodes stood k) :
    ∃ during w left, Steps language next during { next with host := w, control := .acting (k ()) } ∧
      Rounds z (⟨nodes, stood, next.host.store.contents (nodes ++ latest rounds) nodes⟩ :: rounds)
        { next with host := w, control := .acting (k ()) } ∧ w.Intact ∧
      w.store.children z.parent = z.before ++ left ++
        next.host.store.contents (nodes ++ latest rounds) nodes ++ z.mark :: z.after ∧
      left = stood.filter (· ∉ nodes ++ latest rounds) ∧
      (∀ c ∈ left, ∃ r ∈ rounds, c ∈ r.brought ∧ c ∉ r.nodes) ∧
      ((∀ r ∈ rounds, ∀ c ∈ r.brought, c ∈ r.nodes) → left = []) ∧
      (∀ r ∈ rounds, ∀ d ∈ r.nodes, d ∈ latest rounds ∨ z.Alone d → d ∉ nodes →
        d ∉ next.host.store.contents (nodes ++ latest rounds) nodes →
        (∀ r' ∈ rounds, d ∈ r'.brought → d ∈ r'.nodes) → Idle w.store d) ∧
      ∀ n, (∀ d ∈ latest rounds, d ∉ nodes → ¬ next.host.store.Within n d) →
        (w.store.node n).hearing = (next.host.store.node n).hearing := by
  obtain ⟨during, hsteps⟩ := Action.steps_of_settle? (L := language) hd.control
    (settle?_swap z.number x nodes next.host)
  have hnew := Rounds.round h hd
  have hs := hd.swapped h
  have hleft := h.accounted.left hd.stood nodes
  refine ⟨during, _, _, hsteps, hnew, hd.intact_swapped h, ?_, rfl, hleft, fun hplain => ?_,
    fun r hr d hdr halone hnot hbrought hplain => ?_, hs.heard⟩
  · rw [hd.children_eq h]
    simp [standing, Round.left, roundOf]
  · refine eq_nil_iff_forall_not_mem.2 fun c hc => ?_
    obtain ⟨r, hr, hcb, hcn⟩ := hleft c hc
    exact hcn (hplain r hr c hcb)
  · refine hnew.idle r (mem_cons_of_mem _ hr) d hdr halone hnot
      (forall_mem_cons.2 ⟨fun hmem => absurd hmem hbrought, hplain⟩)

/-! ### Two runs -/

/-- A list with one item and a comment at its end, two items that listen, and a fragment with two
more. -/
def rota : Block := [
  .signal "late" (.literal (.bool false)),
  .element "list" "ul",
  .element "x" "li", .append "list" "x",
  .comment "end" (.literal .null), .append "list" "end",
  .element "a" "li", .listen "a" "click" "l" [],
  .element "b" "li", .listen "b" "click" "l" [],
  .fragment "both",
  .element "c" "li", .append "both" "c",
  .element "d" "li", .append "both" "d"]

/-- The content of the list: first the two items that listen, later the second of them and the
fragment. -/
def rotaContent : Content :=
  .cond (.cell .get "late") (.list [.node "b", .node "both"]) (.list [.node "a", .node "b"])

/-- Content is put into the list, and comes to be asked for a second time. -/
def rotaTurn : Stmt :=
  .cond (.literal (.bool true)) [
    .insert "list" (.accessor rotaContent) (some "end"),
    .set "late" (.literal (.bool true))] []

def rotaInsertion : Insertion where
  parent := 2
  mark := some 4
  document := 0
  env := {}
  content := rotaContent

def rotaSpot : Spot where
  number := 0
  parent := 2
  mark := 4
  before := [3]
  after := []
  Alone _ := True

def rotaFirst : State setting := (stagedBy rota rotaTurn).run language 33

def rotaNext : State setting :=
  { rotaFirst with
    host := rotaFirst.host.swapped 0 rotaInsertion [5, 6]
    control := .acting (Action.pure .nothing) }

def rotaSecond : State setting := rotaNext.run language 29

theorem control_rotaFirst : rotaFirst.control =
    .acting ((swap 0 rotaInsertion [5, 6]).bind fun _ => Action.pure .nothing) := by
  cbv

theorem control_rotaSecond : rotaSecond.control =
    .acting ((swap 0 { rotaInsertion with nodes := [5, 6] } [6, 7]).bind
      fun _ => Action.pure .nothing) := by
  cbv

theorem course_rotaFirst : Course rotaFirst :=
  (course_stagedBy (by decide +kernel)).run 33 (by decide +kernel)

theorem run_swap_two (hc : st.control = .acting ((swap 0 x [m, n]).bind k)) :
    st.run language 4 =
      { st with host := st.host.swapped 0 x [m, n], control := .acting (k ()) } := by
  obtain ⟨host, graph, control, stack⟩ := st
  obtain rfl : control = _ := hc
  rfl

theorem course_rotaSecond : Course rotaSecond := by
  have hcourse : Course (rotaFirst.run language 4) := course_rotaFirst.run 4 (by decide +kernel)
  rw [run_swap_two control_rotaFirst] at hcourse
  exact hcourse.run 29 (by decide +kernel)

theorem Rounds.content_swapped_rota :
    Course rotaSecond ∧ Rounds rotaSpot [⟨[5, 6], [], [5, 6]⟩] rotaNext ∧
      (∃ during, Steps language rotaNext during rotaSecond) ∧
      rotaSecond.host.store.children 2 = [3, 5, 6, 4] ∧
      ∃ during w, Steps language rotaSecond during
          { rotaSecond with host := w, control := .acting (Action.pure .nothing) } ∧
        w.store.children 2 = [3, 6, 8, 9, 4] ∧ Idle w.store 5 ∧
        (w.store.node 6).hearing.1.length = 1 := by
  have happart : ∀ {s : Dom.Store Handler} {ns : List NodeId}, s.parent? 2 = none → 2 ∉ ns →
      ∀ n ∈ ns, ¬ s.Within 2 n := fun hroot h2 n hn hw =>
    h2 (hw.eq_of_parent? hroot ▸ hn)
  have hstart : Rounds rotaSpot [] rotaFirst := .start (by decide +kernel) (by decide +kernel)
  have hfirst : Due rotaSpot [] rotaFirst rotaFirst rotaInsertion [5, 6] []
      fun _ => Action.pure .nothing :=
    { steps := ⟨[], .refl⟩
      control := control_rotaFirst
      parent := rfl
      mark := rfl
      intact := course_rotaFirst.sound.good
      placeable :=
        ⟨by decide +kernel, happart (by decide +kernel) (by decide), by decide, by decide⟩
      others := by decide
      record := rfl
      kids := by decide +kernel
      stood := .slnil
      alone := by simp }
  have hround : Rounds rotaSpot [⟨[5, 6], [], [5, 6]⟩] rotaNext := by
    have hbrought : rotaFirst.host.store.contents ([5, 6] ++ latest []) [5, 6] = [5, 6] := by
      decide +kernel
    have := hstart.round hfirst
    rw [roundOf, hbrought] at this
    exact this
  have hsteps : ∃ during, Steps language rotaNext during rotaSecond :=
    ⟨_, Reactive.steps_run (L := language) 29 rotaNext⟩
  have hkids : rotaSecond.host.store.children 2 = [3, 5, 6, 4] := by decide +kernel
  have hsecond : Due rotaSpot [⟨[5, 6], [], [5, 6]⟩] rotaNext rotaSecond
      { rotaInsertion with nodes := [5, 6] } [6, 7] [5, 6] fun _ => Action.pure .nothing :=
    { steps := hsteps
      control := control_rotaSecond
      parent := rfl
      mark := rfl
      intact := course_rotaSecond.sound.good
      placeable :=
        ⟨by decide +kernel, happart (by decide +kernel) (by decide), by decide, by decide⟩
      others := by decide
      record := by decide +kernel
      kids := hkids
      stood := by decide
      alone := by
        -- No node has been listed before the first round.
        intro r hr d hdr _ hnot
        obtain rfl := mem_singleton.1 hr
        exact absurd hdr hnot }
  obtain ⟨during, w, left, hswap, -, -, hchildren, hleft, -, -, hidle, hheard⟩ :=
    hround.content_swapped hsecond
  have hbrought : rotaSecond.host.store.contents ([6, 7] ++ latest [⟨[5, 6], [], [5, 6]⟩]) [6, 7] =
      [6, 8, 9] := by decide +kernel
  rw [hbrought] at hchildren hidle
  refine ⟨course_rotaSecond, hround, hsteps, hkids, during, w, hswap, ?_, ?_, ?_⟩
  · refine hchildren.trans ?_
    rw [hleft]
    decide
  · exact hidle _ mem_cons_self 5 (by decide) (.inl (by decide)) (by decide) (by decide) (by decide)
  · rw [hheard 6]
    · decide +kernel
    · -- The node that is taken out is not above the other one.
      intro d hd hnot hw
      have hd5 : d = 5 := by
        rcases mem_cons.1 hd with rfl | hd
        · rfl
        · exact absurd (mem_cons.2 (.inl (mem_singleton.1 hd))) hnot
      rcases Relation.ReflTransGen.cases_head hw with h6 | ⟨q, hq, hup⟩
      · exact absurd (h6.trans hd5) (by decide)
      · have hq2 : rotaSecond.host.store.parent? 6 = some 2 := by decide +kernel
        obtain rfl : q = 2 := Option.some_inj.1 (hq.symm.trans hq2)
        have hroot : rotaSecond.host.store.parent? 2 = none := by decide +kernel
        exact absurd ((Dom.Store.Within.eq_of_parent? hup hroot).trans hd5) (by decide)

/-- A list in which content is kept that first is a fragment with two items, and then nothing. -/
def fleeting : Block := [
  .signal "early" (.literal (.bool true)),
  .element "list" "ul",
  .comment "end" (.literal .null), .append "list" "end",
  .fragment "both",
  .element "a" "li", .append "both" "a",
  .element "b" "li", .append "both" "b",
  .insert "list" (.accessor (.cond (.cell .get "early") (.node "both") (.value (.literal .null))))
    (some "end"),
  .set "early" (.literal (.bool false))]

/-- The items that a fragment has brought in stay when the content is nothing any more. -/
theorem fragment_left_behind :
    Course (stagedBy fleeting .flush) ∧
      (stagedBy fleeting .flush).host.listed 0 = [] ∧
      (stagedBy fleeting .flush).host.store.children 2 = [5, 6, 3] :=
  ⟨course_stagedBy (by decide +kernel), by decide +kernel, by decide +kernel⟩

end ReactiveMarkup.Program
