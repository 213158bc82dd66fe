/-
Putting a node before another.

The node, or what a fragment holds, goes right before the reference, and all other
children keep their order.  A reference that is not a child of the parent is refused.
A node that is to go before itself is taken out first; then there is no place to put
it before, and it goes to the end.

* `before_places_node`: what a program changes that puts a node before another;
* `before_itself_moves`: a node does not stay where it is when it goes before itself.
-/
import ReactiveMarkup.Proofs.Program.Courses

namespace ReactiveMarkup.Program

open Dom (NodeId)
open Dom.Store (IsForest Moved Relinked putAllBefore putAllBefore_mark putAllBefore_of_not_mem)
open Reactive (Action State Steps)

theorem settle?_before (env : Env) {w : World} {p n r : String} {a b c : NodeId}
    (hp : w.nodes.get? p = some a) (hn : w.nodes.get? n = some b) (hr : w.nodes.get? r = some c) :
    (exec env (.before p n (some r))).settle? w =
      some ((), ((w.store.insertBefore? a b c).map fun store => { w with store }).getD
        { w with log := .problem .notAChild :: w.log }) := by
  have named : ∀ {name : String} {id : NodeId}, w.nodes.get? name = some id →
      (nodeNamed name).settle? w = some (some id, w) := by
    intro name id hid
    obtain ⟨log, hs, -, hlog⟩ := settle?_nodeNamed name w
    rw [hlog id hid, hid] at hs
    exact hs
  have hall : (exec env (.before p n (some r))).settle? w = _ :=
    (Action.settle?_bind (named hp)).trans
      ((Action.settle?_bind (named hn)).trans (Action.settle?_bind (named hr)))
  rw [hall]
  rw [settle?_ask]
  cases hs : w.store.insertBefore? a b c with
  | none => rfl
  | some store => rfl

theorem putAllBefore_self {kids : List NodeId} (hd : kids.Nodup) (n : NodeId) :
    putAllBefore (some n) [n] (kids.filter (· ∉ [n])) = kids.erase n ++ [n] := by
  rw [putAllBefore_of_not_mem, hd.erase_eq_filter]
  · refine congrArg (· ++ [n]) (List.filter_congr fun m _ => ?_)
    by_cases hm : m = n <;> simp [hm]
  · intro m hm e
    cases e
    simp at hm

/-- When a program comes to put the node `n` before `r` below `p`, where `p` is not `n` or below
it, then

* if `r` is not a child of `p`, this is refused, and nothing changes;
* else `n` goes right before `r`, or the children of `n` do if it is a fragment, in their order;
  the other children of `p` keep theirs;
* but if `n` is `r` itself, it becomes the last child of `p`.

A fragment is left empty, all other nodes lose just the nodes that have gone, and nodes differ in
no more than these links. -/
theorem before_places_node {st : State setting} (hst : st.host.Intact) {env : Env}
    {pn nn rn : String} {k : Unit → Act Result} {p n r : NodeId}
    (hc : st.control = .acting ((exec env (.before pn nn (some rn))).bind k))
    (hp : st.host.nodes.get? pn = some p) (hn : st.host.nodes.get? nn = some n)
    (hr : st.host.nodes.get? rn = some r) (hnot : ¬ st.host.store.Within p n) :
    ∃ during w, Steps language st during { st with host := w, control := .acting (k ()) } ∧
      (r ∉ st.host.store.children p →
        w = { st.host with log := .problem .notAChild :: st.host.log }) ∧
      (r ∈ st.host.store.children p → ∃ store, w = { st.host with store } ∧ w.Intact ∧
        (n ≠ r → ∃ before after,
          (st.host.store.children p).filter (· ∉ st.host.store.inserted n) =
            before ++ r :: after ∧
          store.children p = before ++ st.host.store.inserted n ++ r :: after) ∧
        (n = r → store.children p = (st.host.store.children p).erase r ++ [r]) ∧
        ((st.host.store.node n).kind = .fragment → store.children n = []) ∧
        (∀ q, q ≠ p → store.children q =
          (st.host.store.children q).filter (· ∉ st.host.store.inserted n)) ∧
        (∀ m, store.parent? m =
          if m ∈ st.host.store.inserted n then some p else st.host.store.parent? m) ∧
        Relinked st.host.store store) := by
  have hf : st.host.store.IsForest := hst.forest
  obtain ⟨during, hsteps⟩ :=
    Action.steps_of_settle? (L := language) hc (settle?_before env hp hn hr)
  refine ⟨during, _, hsteps, fun hnr => ?_, fun hmem => ?_⟩
  · have hnone : st.host.store.insertBefore? p n r = none :=
      if_neg fun h => hnr ((hf.linked r p).2 h)
    rw [hnone]
    rfl
  · obtain ⟨store, hsome, hforest, hmoved⟩ := hf.exists_insertBefore? (hst.named nn n hn) hnot hmem
    have hparent : st.host.store.parent? r = some p := (hf.linked r p).1 hmem
    rw [hsome]
    refine ⟨store, rfl, hst.restore hforest (Nat.le_of_eq hmoved.size.symm), fun hne => ?_,
      fun hself => ?_, fun hk => ?_, hmoved.others, hmoved.parent, hmoved.rest⟩
    · obtain ⟨before, after, hsplit, hnb⟩ :=
        hf.exists_children_split hparent (hf.not_mem_inserted hnot hparent hne)
      exact ⟨before, after, hsplit, by rw [hmoved.kids, hsplit, putAllBefore_mark _ hnb]⟩
    · subst hself
      have hins : st.host.store.inserted n = [n] := if_neg (hf.kind_ne_of_mem hmem)
      rw [hmoved.kids, hins, putAllBefore_self (hf.distinct p)]
    · have hins : st.host.store.inserted n = st.host.store.children n := if_pos hk
      have hne : n ≠ p := fun e => hnot (e ▸ .refl)
      rw [hmoved.others n hne, hins, List.filter_eq_nil_iff]
      intro c hc
      simp [hc]

/-! ### Two runs -/

/-- A list with three items that are left of four, and a fragment with the fourth and a new one. -/
def shelf : Block := [
  .element "list" "ul",
  .element "a" "li", .append "list" "a",
  .element "b" "li", .append "list" "b",
  .element "r" "li", .append "list" "r",
  .element "z" "li", .append "list" "z",
  .fragment "both",
  .element "c" "li", .append "both" "c", .append "both" "b"]

theorem before_places_node_fragment :
    let st := stagedBy shelf (.before "list" "both" (some "r"))
    Course st ∧ st.host.store.children 2 = [3, 5, 6] ∧
      ∃ during w, Steps language st during
          { st with host := w, control := .acting (body (.block {} [])) } ∧
        w.store.children 2 = [3, 8, 4, 5, 6] ∧ w.store.children 7 = [] := by
  intro st
  have hcourse : Course st := course_stagedBy (by decide +kernel)
  have hroot : st.host.store.parent? 2 = none := by decide +kernel
  have hkids : st.host.store.children 2 = [3, 5, 6] := by decide +kernel
  have hins : st.host.store.inserted 7 = [8, 4] := by decide +kernel
  have hcontrol : st.control = .acting ((exec {} (.before "list" "both" (some "r"))).bind
      fun _ => body (.block {} [])) := congrArg Reactive.Control.acting (body_block_cons {} _ [])
  obtain ⟨during, w, hsteps, -, hplaced⟩ := before_places_node hcourse.sound.good hcontrol
    (p := 2) (n := 7) (r := 5) (by decide +kernel) (by decide +kernel) (by decide +kernel)
    (fun hw => absurd (hw.eq_of_parent? hroot) (by decide))
  obtain ⟨store, rfl, -, hbefore, -, hempty, -⟩ := hplaced (by rw [hkids]; decide)
  obtain ⟨before, after, hsplit, hchildren⟩ := hbefore (by decide)
  rw [hkids, hins] at hsplit
  rw [hins] at hchildren
  refine ⟨hcourse, hkids, during, _, hsteps, ?_, hempty (by decide +kernel)⟩
  have hat : before = [3] ∧ after = [6] := by
    rcases before with _ | ⟨x, _ | ⟨y, rest⟩⟩
    · simp at hsplit
    · simpa [eq_comm] using hsplit
    · cases rest <;> simp at hsplit
  rw [hchildren, hat.1, hat.2]
  rfl

def couple : Block := [
  .element "list" "ul",
  .element "a" "li", .append "list" "a",
  .element "b" "li", .append "list" "b"]

/-- The first of two items that is put before itself becomes the last. -/
theorem before_itself_moves :
    let st := stagedBy couple (.before "list" "a" (some "a"))
    Course st ∧ st.host.nodes.get? "list" = some 2 ∧ st.host.nodes.get? "a" = some 3 ∧
      st.host.store.children 2 = [3, 4] ∧
      ∃ during last, Steps language st during last ∧ last.step? language = none ∧
        last.host.store.children 2 = [4, 3] := by
  refine ⟨course_stagedBy (by decide +kernel), by decide +kernel,
    by decide +kernel, by decide +kernel, ?_⟩
  refine ⟨_, _, Reactive.steps_run (L := language) 20 _, ?_, by decide +kernel⟩
  exact Option.isNone_iff_eq_none.1 (by decide +kernel)

end ReactiveMarkup.Program
