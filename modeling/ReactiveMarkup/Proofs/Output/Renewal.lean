/-
Running effects again.

An effect of something that has been built changes only what belongs to it.  If
the thing stands again afterwards, whatever its effects are and wherever it is, it
can be put beside another one.
-/
import ReactiveMarkup.Proofs.Output.FirstRun

namespace ReactiveMarkup.Output

open Dom (NodeId)
open Template List

variable {V : Type}

/-! ### Footprints side by side -/

namespace Footprint

/-- Two footprints together make a third. -/
structure Joins (A F B : Footprint) : Prop where
  nodes : B.nodes.Perm (A.nodes ++ F.nodes)
  cells : B.cells.Perm (A.cells ++ F.cells)
  effects : B.effects.Perm (A.effects ++ F.effects)

/-- Two footprints share nothing. -/
structure Disjoint (A F : Footprint) : Prop where
  nodes : ∀ n ∈ A.nodes, n ∉ F.nodes
  cells : ∀ c ∈ A.cells, c ∉ F.cells
  effects : ∀ e ∈ A.effects, e ∉ F.effects

variable {A F F' B B' : Footprint}

theorem joins_append (F F' : Footprint) : Joins F F' (F ++ F') :=
  ⟨.refl _, .refl _, .refl _⟩

theorem joins_append_comm (F F' : Footprint) : Joins F' F (F ++ F') :=
  ⟨perm_append_comm, perm_append_comm, perm_append_comm⟩

theorem Joins.append_nodup (h : Joins A F B) (hB : B.Nodup) : (A ++ F).Nodup :=
  ⟨h.nodes.nodup_iff.1 hB.nodes, h.cells.nodup_iff.1 hB.cells, h.effects.nodup_iff.1 hB.effects⟩

theorem Joins.nodup (h : Joins A F B) (hB : B.Nodup) : F.Nodup :=
  have h := h.append_nodup hB
  ⟨(nodup_append.1 h.nodes).2.1, (nodup_append.1 h.cells).2.1,
    (nodup_append.1 h.effects).2.1⟩

theorem Joins.disjoint (h : Joins A F B) (hB : B.Nodup) : Disjoint A F :=
  have h := h.append_nodup hB
  ⟨fun n hn hm => (nodup_append.1 h.nodes).2.2 n hn n hm rfl,
    fun c hc hm => (nodup_append.1 h.cells).2.2 c hc c hm rfl,
    fun e he hm => (nodup_append.1 h.effects).2.2 e he e hm rfl⟩

end Footprint

open Footprint (Joins Disjoint)

section Lists

variable {a b b' f f' : List Nat} {bound : Nat}

theorem notMem_of_perm_append (hb : b.Perm (a ++ f)) (hx : x ∉ b) : x ∉ a ∧ x ∉ f := by
  rw [hb.mem_iff, mem_append, not_or] at hx
  exact hx

theorem mem_or_le_of_perm_append (hb : b.Perm (a ++ f)) (hb' : b'.Perm (a ++ f'))
    (hnew : ∀ x ∈ f', x ∈ f ∨ bound ≤ x) : ∀ x ∈ b', x ∈ b ∨ bound ≤ x := by
  intro x hx
  rw [hb'.mem_iff, mem_append] at hx
  rw [hb.mem_iff, mem_append]
  rcases hx with hx | hx
  · exact .inl (.inl hx)
  · exact (hnew x hx).imp_left .inr

theorem nodup_of_perm_append (hb : b.Perm (a ++ f)) (hb' : b'.Perm (a ++ f')) (hnodup : b.Nodup)
    (hnodup' : f'.Nodup) (hold : ∀ x ∈ a, x < bound) (hnew : ∀ x ∈ f', x ∈ f ∨ bound ≤ x) :
    b'.Nodup := by
  have hab := nodup_append.1 (hb.nodup_iff.1 hnodup)
  refine hb'.nodup_iff.2 (nodup_append.2 ⟨hab.1, hnodup', ?_⟩)
  rintro x hx y hy rfl
  rcases hnew x hy with hf | hge
  · exact hab.2.2 x hx x hf rfl
  · exact absurd (hold x hx) (Nat.not_lt.2 hge)

end Lists

/-! ### Taking effects out of use -/

variable {s s' : State V} {e f : Nat} {p q : NodeId} {o : List Nat} {F F' A B B' : Footprint}
  {roots : List NodeId} {r : Effect V}

theorem State.getElem?_dispose (s : State V) (e f : Nat) :
    (s.dispose e).effects[f]? =
      (s.effects[f]?).map fun r => if e ∈ r.owners then { r with active := false } else r :=
  getElem?_map

theorem State.getElem?_dispose_of_notMem (hr : s.effects[f]? = some r) (he : e ∉ r.owners) :
    (s.dispose e).effects[f]? = s.effects[f]? := by
  rw [State.getElem?_dispose, hr, Option.map_some, if_neg he]

theorem State.length_dispose (s : State V) (e : Nat) :
    (s.dispose e).effects.length = s.effects.length :=
  length_map _

/-- Effects that were not made in `e` are still in use. -/
theorem Placed.dispose (h : Placed s p o roots F) (he : e ∉ F.effects) (ho : e ∉ o)
    (hf : f ∈ F.effects) : (s.dispose e).effects[f]? = s.effects[f]? := by
  obtain ⟨r, hr, -, l, hl, hmem⟩ := h.effect f hf
  refine State.getElem?_dispose_of_notMem hr ?_
  rw [hl, mem_append, not_or]
  exact ⟨fun hm => he (hmem e hm), ho⟩

/-! ### What running an effect again changes -/

/-- The effect `e` has run again, and instead of `F` there is `F'`.  Besides, only the node `p` may
have changed. -/
structure Renewed (s s' : State V) (e : Nat) (p : NodeId) (F F' : Footprint) : Prop where
  size : s.dom.nodes.size ≤ s'.dom.nodes.size
  cells : s.cells.length ≤ s'.cells.length
  effects : s.effects.length ≤ s'.effects.length
  node : ∀ n < s.dom.nodes.size, n ≠ p → n ∉ F.nodes → s'.dom.node n = s.dom.node n
  cell : ∀ c < s.cells.length, c ∉ F.cells → s'.cells[c]? = s.cells[c]?
  effect : ∀ f < s.effects.length, f ∉ F.effects → s'.effects[f]? = (s.dispose e).effects[f]?
  oldNode : ∀ n ∈ F'.nodes, n ∈ F.nodes ∨ s.dom.nodes.size ≤ n
  oldCell : ∀ c ∈ F'.cells, c ∈ F.cells ∨ s.cells.length ≤ c
  oldEffect : ∀ f ∈ F'.effects, f ∈ F.effects ∨ s.effects.length ≤ f
  nodup : F'.Nodup
  all : ∀ f, s.effects.length ≤ f → f < s'.effects.length → f ∈ F'.effects
  gone : ∀ f ∈ F.effects, f ∉ F'.effects → ∀ r, s'.effects[f]? = some r → r.active = false

theorem Renewed.effect_eq (h : Renewed s s' e q F F') (hA : Placed s p o roots A)
    (hdisjoint : ∀ f ∈ A.effects, f ∉ F.effects) (he : e ∈ F.effects) (ho : e ∉ o)
    (hf : f ∈ A.effects) : s'.effects[f]? = s.effects[f]? := by
  rw [h.effect f (hA.effect_lt hf) (hdisjoint f hf)]
  exact hA.dispose (fun hm => hdisjoint e hm he) ho hf

theorem Renewed.agree (h : Renewed s s' e q F F') (hA : Placed s p o roots A)
    (hdisjoint : Disjoint A F) (hq : q ∉ A.nodes) (he : e ∈ F.effects) (ho : e ∉ o) :
    Agree s s' p p A := by
  refine .of_eq h.size ?_ (fun c hc => h.cell c (hA.cell c hc) (hdisjoint.cells c hc))
    fun f hf => h.effect_eq hA hdisjoint.effects he ho hf
  intro n hn
  exact h.node n (hA.node n hn) (fun e => hq (e ▸ hn)) (hdisjoint.nodes n hn)

/-- A part is renewed together with what is beside it. -/
theorem Renewed.around (h : Renewed s s' e q F F') (hq : q = p ∨ q ∈ A.nodes)
    (hA : Placed s p o roots A) (hB : Joins A F B) (hB' : Joins A F' B') (hnodup : B.Nodup) :
    Renewed s s' e p B B' := by
  refine ⟨h.size, h.cells, h.effects, ?_, ?_, ?_,
    mem_or_le_of_perm_append hB.nodes hB'.nodes h.oldNode,
    mem_or_le_of_perm_append hB.cells hB'.cells h.oldCell,
    mem_or_le_of_perm_append hB.effects hB'.effects h.oldEffect, ⟨?_, ?_, ?_⟩, ?_, ?_⟩
  · intro n hn hne hmem
    obtain ⟨hnA, hnF⟩ := notMem_of_perm_append hB.nodes hmem
    refine h.node n hn ?_ hnF
    rcases hq with rfl | hq
    · exact hne
    · exact fun e => hnA (e ▸ hq)
  · intro c hc hmem
    exact h.cell c hc (notMem_of_perm_append hB.cells hmem).2
  · intro f hf hmem
    exact h.effect f hf (notMem_of_perm_append hB.effects hmem).2
  · exact nodup_of_perm_append hB.nodes hB'.nodes hnodup.nodes h.nodup.nodes hA.node h.oldNode
  · exact nodup_of_perm_append hB.cells hB'.cells hnodup.cells h.nodup.cells hA.cell h.oldCell
  · exact nodup_of_perm_append hB.effects hB'.effects hnodup.effects h.nodup.effects
      (fun f hf => hA.effect_lt hf) h.oldEffect
  · intro f hge hlt
    rw [hB'.effects.mem_iff]
    exact mem_append_right _ (h.all f hge hlt)
  · intro f hf hnot
    obtain ⟨hnA, hnF⟩ := notMem_of_perm_append hB'.effects hnot
    rw [hB.effects.mem_iff] at hf
    exact h.gone f ((mem_append.1 hf).resolve_left hnA) hnF

/-! ### Things that stand again -/

/-- The place of a part below `p`, inside the effects `o`: its nodes `roots` stand between `pre` and
`post`, and it shares nothing with what is around it. -/
structure Site (s : State V) (p : NodeId) (o : List Nat) (pre roots post : List NodeId)
    (F : Footprint) : Prop where
  nodup : F.Nodup
  valid : p < s.dom.nodes.size
  parent : p ∉ F.nodes
  owners : ∀ g ∈ o, g ∉ F.effects
  kids : (s.dom.node p).children = pre ++ roots ++ post
  before : ∀ n ∈ F.nodes, n ∉ pre

/-- The place of something inside a part. -/
theorem Site.inner {pre post roots' pre' post'} (h : Site s p o pre roots post B) (hB : Joins A F B)
    (ho : ∀ g ∈ o', g ∈ o ∨ g ∈ A.effects) (hkids : pre ++ roots ++ post = pre' ++ roots' ++ post')
    (hbefore : ∀ n ∈ F.nodes, n ∉ pre') :
    Site s p o' pre' roots' post' F where
  nodup := hB.nodup h.nodup
  valid := h.valid
  parent hm := h.parent (hB.nodes.mem_iff.2 (mem_append_right _ hm))
  owners := by
    intro g hg hm
    rcases ho g hg with hg | hg
    · exact h.owners g hg (hB.effects.mem_iff.2 (mem_append_right _ hm))
    · exact (hB.disjoint h.nodup).effects g hg hm
  kids := h.kids.trans hkids
  before := hbefore

/-- After the effect `e` has run again, the effects of which `P'` holds are those of which `P` did,
`e`, and new ones. -/
def Later (s : State V) (e : Nat) (P P' : Nat → Prop) : Prop :=
  ∀ f, P' f → P f ∨ f = e ∨ s.effects.length ≤ f

theorem Later.keeps (h : Later s e P P') (hA : Placed s p o roots A) (he : e ∉ A.effects) :
    Keeps m m P P' s A.effects := by
  intro f hf hP'
  refine ⟨?_, fun _ _ read _ => read.same_refl m⟩
  rcases h f hP' with hP | rfl | hge
  · exact hP
  · exact absurd hf he
  · exact absurd (hA.effect_lt hf) (Nat.not_lt.2 hge)

variable [Presentable V]

/-- Something below `p` that stands again after one of its effects has run again.  If it is fixed,
its nodes below `p` are the same ones. -/
structure Lives (m : Meaning V) (p : NodeId) (o : List Nat) (fixed : Prop)
    (stands : (Nat → Prop) → State V → List NodeId → Footprint → Prop) : Prop where
  placed : ∀ {P : Nat → Prop} {s : State V} {roots : List NodeId} {F : Footprint},
    stands P s roots F → Placed s p o roots F
  transport : ∀ {P P' : Nat → Prop} {s s' : State V} {roots : List NodeId} {F : Footprint},
    stands P s roots F → Agree s s' p p F → Keeps m m P P' s F.effects → stands P' s' roots F
  rerun : ∀ {P P' : Nat → Prop} {s : State V} {e : Nat} {pre roots post : List NodeId}
    {F : Footprint}, stands P s roots F → Site s p o pre roots post F → e ∈ F.effects →
    Later s e P P' → ∃ s' roots' F', s.rerun m e = some s' ∧ stands P' s' roots' F' ∧
      Renewed s s' e p F F' ∧
      s'.dom.node p = { s.dom.node p with children := pre ++ roots' ++ post } ∧
      (fixed → roots' = roots)

variable {m : Meaning V} {fixed : Prop}

theorem Lives.nil : Lives m p o fixed fun _ _ roots F => roots = [] ∧ F = .empty where
  placed := by
    rintro P s roots F ⟨rfl, rfl⟩
    exact .empty s p o
  transport h _ _ := h
  rerun := by
    rintro P P' s e pre roots post F ⟨rfl, rfl⟩ - he -
    simp [Footprint.empty] at he

theorem Lives.weaken {fixed'} {stands} (h : Lives m p o fixed stands) (hfixed : fixed' → fixed) :
    Lives m p o fixed' stands where
  placed := h.placed
  transport := h.transport
  rerun hs hsite he hlater := by
    obtain ⟨s', roots', F', hrun, hs', hrenewed, hnode, hroots⟩ := h.rerun hs hsite he hlater
    exact ⟨s', roots', F', hrun, hs', hrenewed, hnode, fun hf => hroots (hfixed hf)⟩

theorem Lives.append {stands stands'} (h : Lives m p o fixed stands)
    (h' : Lives m p o fixed stands') :
    Lives m p o fixed fun P s roots F => ∃ roots₁ F₁ roots₂ F₂, stands P s roots₁ F₁ ∧
      stands' P s roots₂ F₂ ∧ roots = roots₁ ++ roots₂ ∧ F = F₁ ++ F₂ where
  placed := by
    rintro P s roots F ⟨roots₁, F₁, roots₂, F₂, h₁, h₂, rfl, rfl⟩
    exact (h.placed h₁).append (h'.placed h₂)
  transport := by
    rintro P P' s s' roots F ⟨roots₁, F₁, roots₂, F₂, h₁, h₂, rfl, rfl⟩ hs hkeep
    exact ⟨roots₁, F₁, roots₂, F₂,
      h.transport h₁ (hs.mono (by simp) (by simp) (by simp)) (hkeep.mono (by simp)),
      h'.transport h₂ (hs.mono (by simp) (by simp) (by simp)) (hkeep.mono (by simp)), rfl, rfl⟩
  rerun := by
    rintro P P' s e pre roots post F ⟨roots₁, F₁, roots₂, F₂, h₁, h₂, rfl, rfl⟩ hsite he hlater
    have hp₁ := h.placed h₁
    have hp₂ := h'.placed h₂
    have hjoin := Footprint.joins_append F₁ F₂
    have hjoin' := Footprint.joins_append_comm F₁ F₂
    have hparent : p ∉ F₁.nodes ∧ p ∉ F₂.nodes := by
      have := hsite.parent
      rwa [Footprint.nodes_append, mem_append, not_or] at this
    have ho : e ∉ o := fun hm => hsite.owners e hm he
    -- the effect belongs to one of the two, and the other one is left alone
    rcases mem_append.1 he with he | he
    · have hdisjoint := hjoin'.disjoint hsite.nodup
      have he₂ : e ∉ F₂.effects := fun hm => hdisjoint.effects e hm he
      obtain ⟨s', roots', F', hrun, hstands, hrenewed, hnode, hfixed⟩ :=
        h.rerun h₁ (hsite.inner hjoin' (fun g hg => .inl hg)
          (show _ = pre ++ roots₁ ++ (roots₂ ++ post) by simp)
          fun n hn => hsite.before n (mem_append_left _ hn)) he hlater
      have hother := h'.transport h₂ (hrenewed.agree hp₂ hdisjoint hparent.2 he ho)
        (hlater.keeps hp₂ he₂)
      refine ⟨s', roots' ++ roots₂, F' ++ F₂, hrun, ⟨_, _, _, _, hstands, hother, rfl, rfl⟩,
        hrenewed.around (.inl rfl) hp₂ hjoin' (Footprint.joins_append_comm F' F₂) hsite.nodup, ?_,
        fun hf => by rw [hfixed hf]⟩
      rw [hnode]
      simp
    · have hdisjoint := hjoin.disjoint hsite.nodup
      have he₁ : e ∉ F₁.effects := fun hm => hdisjoint.effects e hm he
      obtain ⟨s', roots', F', hrun, hstands, hrenewed, hnode, hfixed⟩ :=
        h'.rerun h₂ (hsite.inner hjoin (fun g hg => .inl hg)
          (show _ = (pre ++ roots₁) ++ roots₂ ++ post by simp)
          (fun n hn hm => by
            rcases mem_append.1 hm with hm | hm
            · exact hsite.before n (mem_append_right _ hn) hm
            · exact hdisjoint.nodes n (hp₁.sublist.subset hm) hn)) he hlater
      have hother := h.transport h₁ (hrenewed.agree hp₁ hdisjoint hparent.1 he ho)
        (hlater.keeps hp₁ he₁)
      refine ⟨s', roots₁ ++ roots', F₁ ++ F', hrun, ⟨_, _, _, _, hother, hstands, rfl, rfl⟩,
        hrenewed.around (.inl rfl) hp₁ hjoin (Footprint.joins_append F₁ F') hsite.nodup, ?_,
        fun hf => by rw [hfixed hf]⟩
      rw [hnode]
      simp

end ReactiveMarkup.Output
