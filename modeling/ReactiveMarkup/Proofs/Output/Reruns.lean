/-
Parts of a template whose effects run again.

After one of its effects has run again, a part of a template stands again.  This
needs two things.  A branch of a chain has to be an element, not a repetition: the
effect of a chain takes away the nodes that it has placed itself, and a repetition
places others later on.  And no two bindings of an element may set the same
attribute: the effect that runs last would win, whichever it is.
-/
import ReactiveMarkup.Proofs.Output.Renewal

namespace ReactiveMarkup.Output

open Dom (NodeId Store)
open Markup (Segment)
open Template List State
open Text (lowered)
open Footprint (Joins)

variable {V : Type} [Presentable V] {m : Meaning V} {s s' : State V} {e : Nat} {p : NodeId}
  {o : List Nat} {F F' : Footprint} {roots : List NodeId} {r : Effect V}

/-! ### Texts and attributes -/

variable {G : List Local} {P P' : Nat → Prop} {σ : Scope V} {pre post : List NodeId}

theorem rerun_eq {frame'} {reads} (hr : s.effects[e]? = some r)
    (h : Runs m (e :: r.owners) r.body (.enter r.env) (s.dispose e) frame' s' reads) :
    s.rerun m e = some (s'.setReads e reads) := by
  rw [rerun, hr]
  show (runAll m (e :: r.owners) r.body (.enter r.env) (s.dispose e)).bind _ = _
  rw [h]
  rfl

variable {n : NodeId}

omit [Presentable V] in
theorem renewed_touched {dom : Store (Closure V)} {d : Dom.Node (Closure V)}
    (ht : s.dom.Touched dom n d) (hn : n ∈ F.nodes) (he : e ∈ F.effects) (hF : F.Nodup)
    (reads : List (Read V)) : Renewed s (((s.dispose e).withDom dom).setReads e reads) e p F F := by
  have hlength : (((s.dispose e).withDom dom).setReads e reads).effects.length =
      s.effects.length := by
    show ((s.dispose e).effects.modify e _).length = _
    rw [length_modify, length_dispose]
  refine ⟨Nat.le_of_eq ht.size.symm, Nat.le_refl _, Nat.le_of_eq hlength.symm, ?_, fun _ _ _ => rfl,
    ?_, fun n hn => .inl hn, fun c hc => .inl hc, fun f hf => .inl hf, hF, ?_, ?_⟩
  · intro q _ _ hq
    exact ht.other q fun e => hq (e ▸ hn)
  · intro f _ hf
    exact getElem?_setReads_ne reads fun h => hf (h ▸ he)
  · intro f hge hlt
    exact absurd hlt (Nat.not_lt.2 (hlength ▸ hge))
  · intro f hf hnot
    exact absurd hf hnot

omit [Presentable V] in
theorem Hangs.touched {kind : Dom.Kind} {d : Dom.Node (Closure V)} (h : Hangs s n p kind)
    (ht : s.dom.Touched s'.dom n d) (hkind : d.kind = (s.dom.node n).kind)
    (hparent : d.parent = (s.dom.node n).parent) : Hangs s' n p kind :=
  h.keep (Nat.le_of_eq ht.size.symm) (ht.self ▸ hkind) (ht.self ▸ hparent)

omit [Presentable V] in
theorem Site.node_eq (h : Site s p o pre roots post F) (hnode : s'.dom.node p = s.dom.node p) :
    s'.dom.node p = { s.dom.node p with children := pre ++ roots ++ post } := by
  rw [hnode, ← h.kids]

/-- After the effect `e` has run again, a part stands again below `p`, between `pre` and `post`.
The nodes of an element below `p` are the same ones. -/
def StandsAgain (G : List Local) (m : Meaning V) (P' : Nat → Prop) (s : State V) (e : Nat)
    (item : Item) (p : NodeId) (o : List Nat) (σ : Scope V) (pre roots post : List NodeId)
    (F : Footprint) : Prop :=
  ∃ s' roots' F', s.rerun m e = some s' ∧ Stands G m P' False s' item p o σ roots' F' ∧
    Renewed s s' e p F F' ∧
    s'.dom.node p = { s.dom.node p with children := pre ++ roots' ++ post } ∧
    (item.isElement = true → roots' = roots)

theorem rerun_text {segments} (h : Stands G m P False s (.text segments) p o σ roots F)
    (hsite : Site s p o pre roots post F) (he : e ∈ F.effects) :
    StandsAgain G m P' s e (.text segments) p o σ pre roots post F := by
  cases h with
  | @text _ _ _ _ n es hn ht =>
    cases ht with
    | plain _ _ => simp at he
    | @bound e' x env reads hstatic hne hr hx hscope _ =>
      obtain rfl : e = e' := mem_singleton.1 he
      have ho : e ∉ o := fun hm => hsite.owners e hm (by simp)
      have hpn : p ≠ n := fun h => hsite.parent (by simp [h])
      have htouched : s.dom.Touched (s.dom.setData n (textOf m σ segments)) n
          { s.dom.node n with data := textOf m σ segments } :=
        Store.touched_modify (fun d => { d with data := textOf m σ segments }) hn.valid
      have hrun : Runs m (e :: o) [.setData x segments] (.enter env) (s.dispose e) (.enter env)
          ((s.dispose e).withDom (s.dom.setData n (textOf m σ segments))) (dataReads σ segments) :=
        runs_setData hx hscope hne
      refine ⟨_, [n], ⟨[n], [], [e]⟩, rerun_eq hr hrun, .text (hn.touched htouched rfl rfl) ?_,
        renewed_touched htouched (by simp) (by simp) hsite.nodup _, ?_, fun _ => rfl⟩
      · have hr' :
            ((s.dispose e).withDom (s.dom.setData n (textOf m σ segments))).effects[e]? = _ :=
          (getElem?_dispose_of_notMem hr ho).trans hr
        exact .bound hstatic hne (getElem?_setReads_self _ hr') hx hscope
          fun _ => ⟨rfl, congrArg Dom.Node.data htouched.self⟩
      · exact hsite.node_eq (htouched.other p hpn)

/-- The names of the attributes that an element binds. -/
def boundNames (head : Head) : List String := head.bindings.map fun b => lowered b.name

variable {i : Nat}

/-- The bindings of an element stand again once the attribute of one of them has its value.  The
others set other attributes. -/
theorem HeadStands.rebound {head} {es} (h : HeadStands m P False s head o σ n es) (hes : es.Nodup)
    (hnames : (boundNames head).Nodup) (hb : head.bindings[i]? = some b) (hi : es[i]? = some e)
    (hlater : Later s e P P') (htouched : s.dom.Touched s'.dom n { s.dom.node n with
      attributes := applyValue (s.dom.node n).attributes b.name (boundValue m σ b) })
    (hself : BindingStands P' s' o σ n b e)
    (hsame : ∀ f ∈ es, f ≠ e → s'.effects[f]? = s.effects[f]?) :
    HeadStands m P' False s' head o σ n es := by
  have hattributes : (s'.dom.node n).attributes =
      applyValue (s.dom.node n).attributes b.name (boundValue m σ b) := by
    rw [htouched.self]
  -- an effect belongs to one binding only, since no effect is there twice
  have hbinding : ∀ {j : Nat} {b' : Binding}, head.bindings[j]? = some b' → es[j]? = some e →
      b' = b := by
    intro j b' hb' hj
    obtain rfl : j = i :=
      (getElem?_inj (List.getElem?_eq_some_iff.1 hj).1 hes).1 (hj.trans hi.symm)
    exact Option.some.inj (hb'.symm.trans hb)
  -- without `hnames` the value of a later binding could be lost here
  have hother : ∀ {j : Nat} {b' : Binding} {f : Nat}, head.bindings[j]? = some b' →
      es[j]? = some f → f ≠ e → lowered b'.name ≠ lowered b.name := by
    intro j b' f hb' hf hfe hname
    have hlt : j < (boundNames head).length := by
      rw [boundNames, length_map]
      exact (List.getElem?_eq_some_iff.1 hb').1
    have hji : j = i := by
      refine (getElem?_inj hlt hnames).1 ?_
      rw [boundNames, getElem?_map, getElem?_map, hb', hb, Option.map_some,
        Option.map_some, hname]
    exact hfe (Option.some.inj (hf.symm.trans (hji ▸ hi)))
  have hP : ∀ {j : Nat} {b' : Binding} {f : Nat}, head.bindings[j]? = some b' →
      es[j]? = some f → f ≠ e → P' f → P f := by
    intro j b' f hb' hf hfe hP'
    rcases hlater f hP' with hP | rfl | hge
    · exact hP
    · exact absurd rfl hfe
    · obtain ⟨x, value, env, reads, hr, -⟩ := (h.effects j b' f hb' hf).effect
      exact absurd (List.getElem?_eq_some_iff.1 hr).1 (Nat.not_lt.2 hge)
  refine ⟨?_, ?_, h.length, ?_, ?_, ?_, False.elim⟩
  · rw [htouched.self]
    exact h.tag
  · rw [htouched.self]
    exact h.handlers
  · intro j b' f hb' hf
    by_cases hfe : f = e
    · subst hfe
      rw [hbinding hb' hf]
      exact hself
    · obtain ⟨x, value, env, reads, hr, hx, hscope, hne, hreads⟩ := (h.effects j b' f hb' hf).effect
      exact ⟨x, value, env, reads, (hsame f (mem_of_getElem? hf) hfe).trans hr, hx, hscope,
        hne, fun hP' => hreads (hP hb' hf hfe hP')⟩
  · intro name hname
    rw [hattributes, get?_applyValue_ne _ _ (hname b (mem_of_getElem? hb)),
      h.plain name hname]
  · intro j b' f hb' hf hlast hP'
    by_cases hfe : f = e
    · subst hfe
      rw [hattributes, hbinding hb' hf, get?_applyValue_self]
    · rw [hattributes, get?_applyValue_ne _ _ (Ne.symm (hother hb' hf hfe)),
        h.bound j b' f hb' hf hlast (hP hb' hf hfe hP')]

/-- After the effect of a binding has run again, the bindings of its element stand again. -/
theorem HeadStands.rerun {head} {es} (h : HeadStands m P False s head o σ n es) (hes : es.Nodup)
    (hnames : (boundNames head).Nodup) (hn : n < s.dom.nodes.size) (ho : e ∉ o) (he : e ∈ es)
    (hlater : Later s e P P') :
    ∃ dom attributes reads, s.rerun m e = some (((s.dispose e).withDom dom).setReads e reads) ∧
      s.dom.Touched dom n { s.dom.node n with attributes } ∧
      HeadStands m P' False (((s.dispose e).withDom dom).setReads e reads) head o σ n es := by
  obtain ⟨i, hi⟩ := mem_iff_getElem?.1 he
  have hlt : i < head.bindings.length := h.length ▸ (List.getElem?_eq_some_iff.1 hi).1
  obtain ⟨b, hb⟩ : ∃ b, head.bindings[i]? = some b := ⟨_, getElem?_eq_getElem hlt⟩
  obtain ⟨x, value, env, reads, hr, hx, hscope, hne, -⟩ := (h.effects i b e hb hi).effect
  obtain ⟨frame', hrun⟩ :=
    runs_bindingBody b hx hscope hne
  have htouched : s.dom.Touched (putValue s.dom n b.name (m.value b.expression σ)) n
      { s.dom.node n with
        attributes := applyValue (s.dom.node n).attributes b.name (boundValue m σ b) } :=
    touched_putValue b.name (m.value b.expression σ) hn
  refine ⟨_, _, _, rerun_eq hr hrun, htouched, h.rebound hes hnames hb hi hlater htouched ?_ ?_⟩
  · have hr' : ((s.dispose e).withDom (putValue s.dom n b.name
        (m.value b.expression σ))).effects[e]? = _ :=
      (getElem?_dispose_of_notMem hr ho).trans hr
    exact ⟨x, value, env, _, getElem?_setReads_self _ hr', hx, hscope, hne, fun _ => rfl⟩
  · intro f hf hfe
    obtain ⟨j, hj⟩ := mem_iff_getElem?.1 hf
    have hlt' : j < head.bindings.length := h.length ▸ (List.getElem?_eq_some_iff.1 hj).1
    obtain ⟨x', value', env', reads', hr', -⟩ :=
      (h.effects j _ f (getElem?_eq_getElem hlt') hj).effect
    exact (getElem?_setReads_ne _ hfe).trans (getElem?_dispose_of_notMem hr' ho)

/-! ### Chains and repetitions -/

variable {item : Item}

section Control

variable {label : String} {k a c : Nat} {body : List Statement} {content : List NodeId}
  {reads : List (Read V)}

omit [Presentable V] in
/-- The place before the anchor of a chain or a repetition whose effect is about to run again. -/
theorem Control.slot (hc : Control G s label k body p o σ a c e content reads)
    (hF : Placed s p (e :: o) content F)
    (hsite : Site s p o pre (content ++ [a]) post
      ⟨F.nodes ++ [a], c :: F.cells, e :: F.effects⟩) :
    Slot (s.dispose e) p a c pre content post := by
  obtain ⟨hnodup, -, hapart⟩ := nodup_append.1 hsite.nodup.nodes
  have hne : ∀ n ∈ F.nodes ++ [a], n ≠ p := fun n hn h => hsite.parent (h ▸ hn)
  refine ⟨⟨hsite.valid, ⟨hc.hangs.valid, hc.hangs.kind, hc.hangs.parent⟩, hne a (by simp), ?_, ?_⟩,
    ?_, hnodup.sublist hF.sublist, hc.cell⟩
  · show (s.dom.node p).children = _
    simpa using hsite.kids
  · refine not_mem_append (hsite.before a (by simp)) fun hm => ?_
    exact hapart a (hF.sublist.subset hm) a (by simp) rfl
  · intro n hn
    have hmem : n ∈ F.nodes ++ [a] := mem_append_left _ (hF.sublist.subset hn)
    exact ⟨hF.node n (hF.sublist.subset hn), hF.root n hn, hsite.before n hmem, hne n hmem⟩

omit [Presentable V] in
theorem renewed_control {roots' : List NodeId}
    (hc : Control G s label k body p o σ a c e content reads)
    (hF : Placed s p (e :: o) content F)
    (h : Refilled (s.dispose e) s' p c (pre ++ roots' ++ a :: post) content roots' F')
    (reads' : List (Read V)) :
    Renewed s (s'.setReads e reads') e p ⟨F.nodes ++ [a], c :: F.cells, e :: F.effects⟩
      ⟨F'.nodes ++ [a], c :: F'.cells, e :: F'.effects⟩ := by
  have hlength := length_dispose s e
  have hlength' : (s'.setReads e reads').effects.length = s'.effects.length :=
    length_modify ..
  obtain ⟨env, he, -⟩ := hc.effect
  have hcell : c < s.cells.length := (List.getElem?_eq_some_iff.1 hc.cell).1
  have heffect : e < s.effects.length := (List.getElem?_eq_some_iff.1 he).1
  have hnewEffect : ∀ f ∈ F'.effects, s.effects.length ≤ f := by
    intro f hf
    rw [← hlength]
    exact h.newEffect f hf
  -- the anchor, the cell and the effect stay, and everything else in the footprint is new
  refine ⟨h.size, h.cells, ?_, ?_, ?_, ?_, ?_, ?_, ?_, ⟨?_, ?_, ?_⟩, ?_, ?_⟩
  · rw [hlength', ← hlength]
    exact h.effects
  · intro n hn hp hmem
    exact h.node n hn hp fun hm => hmem (mem_append_left _ (hF.sublist.subset hm))
  · intro d hd hmem
    exact h.cell d hd fun hm => hmem (by simp [hm])
  · intro f hf hmem
    rw [getElem?_setReads_ne _ fun hm => hmem (by simp [hm])]
    exact h.effect f (hlength ▸ hf)
  · exact forall_mem_append.2 ⟨fun n hn => .inr (h.newNode n hn),
      fun n hn => .inl (mem_append_right _ hn)⟩
  · exact forall_mem_cons.2 ⟨.inl (by simp), fun d hd => .inr (h.newCell d hd)⟩
  · intro f hf
    rcases mem_cons.1 hf with rfl | hf
    · exact .inl (by simp)
    · exact .inr (hnewEffect f hf)
  · refine nodup_append.2 ⟨h.nodup.nodes, by simp, ?_⟩
    rintro n hn q hq rfl
    rw [mem_singleton.1 hq] at hn
    exact absurd hc.hangs.valid (Nat.not_lt.2 (h.newNode a hn))
  · refine nodup_cons.2 ⟨fun hm => ?_, h.nodup.cells⟩
    exact absurd hcell (Nat.not_lt.2 (h.newCell c hm))
  · refine nodup_cons.2 ⟨fun hm => ?_, h.nodup.effects⟩
    exact absurd heffect (Nat.not_lt.2 (hnewEffect e hm))
  · intro f hge hlt
    refine .tail _ (h.all f (hlength ▸ hge) ?_)
    rwa [hlength'] at hlt
  · -- an effect that was made in `e` has it among its owners
    intro f hf hnot r hr
    have hfe : f ≠ e := fun h => hnot (by simp [h])
    have hfF : f ∈ F.effects := (mem_cons.1 hf).resolve_left hfe
    obtain ⟨r', hr', -, l, hl, -⟩ := hF.effect f hfF
    rw [getElem?_setReads_ne _ hfe, h.effect f (hlength ▸ hF.effect_lt hfF),
      getElem?_dispose, hr', Option.map_some, if_pos (by simp [hl])] at hr
    rw [← Option.some.inj hr]

theorem rerun_control (hitem : item.isElement = false) (hrefills : Refills G m label k body item)
    (hc : Control G s label k body p o σ a c e content reads) (hF : Placed s p (e :: o) content F)
    (hsite : Site s p o pre (content ++ [a]) post
      ⟨F.nodes ++ [a], c :: F.cells, e :: F.effects⟩) :
    StandsAgain G m P' s e item p o σ pre (content ++ [a]) post
      ⟨F.nodes ++ [a], c :: F.cells, e :: F.effects⟩ := by
  have hslot := hc.slot hF hsite
  have ho : e ∉ o := fun hm => hsite.owners e hm (by simp)
  obtain ⟨env, he, hscope, ha, hn⟩ := hc.effect
  have hready : Ready G (k + 3) (.enter env) σ := ⟨hscope, hc.clear, by simp [Frame.enter]⟩
  obtain ⟨frame', s', roots', F', reads', hrun, hrefilled, -, hstands⟩ :=
    hrefills o e hslot hready ⟨ha, hn⟩ hc.names.1 hc.names.2 hc.locals
  -- the effect is not among those that it takes out of use, as it was not made in itself
  have hcontrol : Control G (s.dispose e) label k body p o σ a c e content reads :=
    ⟨⟨hc.hangs.valid, hc.hangs.kind, hc.hangs.parent⟩, hc.label, hc.cell,
      ⟨env, (getElem?_dispose_of_notMem he ho).trans he, hscope, ha, hn⟩, hc.clear, hc.names,
      hc.locals⟩
  have hnew : e ∉ F'.effects := by
    intro hm
    have hlt := (List.getElem?_eq_some_iff.1 he).1
    have := hrefilled.newEffect e hm
    rw [length_dispose] at this
    omega
  have hcontrol' := hcontrol.refilled hrefilled
    (fun hm => hslot.before (mem_append_right _ hm)) hslot.ne reads'
  refine ⟨_, roots' ++ [a], _, rerun_eq he hrun, hstands (agree_setReads reads' hnew) hcontrol',
    renewed_control hc hF hrefilled reads', ?_, by simp [hitem]⟩
  have hparent : s'.dom.node p = _ := hrefilled.parent
  show s'.dom.node p = _
  rw [hparent]
  simp [dispose]

/-- An effect inside a chain or a repetition has run again.  The nodes that the chain or repetition
has placed have to be the same, since its cell still holds them. -/
theorem rerun_inside {inner} (hinner : Lives m p (e₀ :: o) True inner)
    (hc : Control G s label k body p o σ a c e₀ content reads) (hF : inner P s content F)
    (hsite : Site s p o pre (content ++ [a]) post
      ⟨F.nodes ++ [a], c :: F.cells, e₀ :: F.effects⟩) (he : e ∈ F.effects)
    (hlater : Later s e P P') :
    ∃ s' F', s.rerun m e = some s' ∧ inner P' s' content F' ∧
      Control G s' label k body p o σ a c e₀ content reads ∧
      Renewed s s' e p ⟨F.nodes ++ [a], c :: F.cells, e₀ :: F.effects⟩
        ⟨F'.nodes ++ [a], c :: F'.cells, e₀ :: F'.effects⟩ ∧
      s'.dom.node p = { s.dom.node p with children := pre ++ (content ++ [a]) ++ post } ∧
      (P' e₀ → P e₀) := by
  obtain ⟨env, he₀, -⟩ := hc.effect
  have hjoin : ∀ F : Footprint, Joins ⟨[a], [c], [e₀]⟩ F
      ⟨F.nodes ++ [a], c :: F.cells, e₀ :: F.effects⟩ :=
    fun F => ⟨perm_append_comm, .refl _, .refl _⟩
  have hA : Placed s p o [a] ⟨[a], [c], [e₀]⟩ :=
    (Placed.empty s p (e₀ :: o)).control hc.hangs hc.cell he₀
  have hdisjoint := (hjoin F).disjoint hsite.nodup
  have ho : e ∉ o := fun hm => hsite.owners e hm (.tail _ he)
  obtain ⟨s', roots', F', hrun, hF', hrenewed, hnode, hfixed⟩ :=
    hinner.rerun hF (hsite.inner (hjoin F)
      (fun g hg => by
        rcases mem_cons.1 hg with rfl | hg
        · exact .inr (by simp)
        · exact .inl hg)
      (show _ = pre ++ content ++ ([a] ++ post) by simp)
      fun n hn => hsite.before n (mem_append_left _ hn)) he hlater
  -- a repetition inside a chain fails here: it may have placed other nodes by now
  obtain rfl := hfixed trivial
  have hagree := hrenewed.agree hA hdisjoint
    (fun hm => hsite.parent (mem_append_right _ hm)) he ho
  refine ⟨s', F', hrun, hF', hc.transport hagree (by simp) (by simp) (by simp),
    hrenewed.around (.inl rfl) hA (hjoin F) (hjoin F') hsite.nodup, ?_, ?_⟩
  · rw [hnode]
    simp
  · have hkeep : Keeps m m P P' s [e₀] :=
      hlater.keeps hA fun hm => hdisjoint.effects e hm he
    exact fun hP' => (hkeep e₀ (by simp) hP').1

end Control

/-! ### Parts -/

/-- What a repetition has built for the values `vs`, of which the first has the index `i`. -/
def StandsParts (G : List Local) (m : Meaning V) (clause : ForClause) (body : Item) (p : NodeId)
    (o : List Nat) (σ : Scope V) (vs : List V) (i : Nat) (P : Nat → Prop) (s : State V)
    (roots : List NodeId) (F : Footprint) : Prop :=
  ∃ parts : List (Part V), parts.map Part.value = vs ∧ roots = partRoots parts ∧
    F = partPrints parts ∧ ∀ (j : Nat) (part : Part V), parts[j]? = some part →
      Stands G m P False s body p o (clause.bind σ part.value (i + j)) part.roots part.footprint

variable {clause : ForClause}

theorem standsParts_nil {body} :
    StandsParts G m clause body p o σ [] i = fun _ _ roots F => roots = [] ∧ F = .empty := by
  funext P s roots F
  refine propext ⟨?_, ?_⟩
  · rintro ⟨parts, hvalues, rfl, rfl, -⟩
    obtain rfl := map_eq_nil_iff.1 hvalues
    exact ⟨rfl, rfl⟩
  · rintro ⟨rfl, rfl⟩
    exact ⟨[], rfl, rfl, rfl, by simp⟩

theorem standsParts_cons {body} {vs} :
    StandsParts G m clause body p o σ (v :: vs) i = fun P s roots F =>
      ∃ roots₁ F₁ roots₂ F₂, Stands G m P False s body p o (clause.bind σ v i) roots₁ F₁ ∧
        StandsParts G m clause body p o σ vs (i + 1) P s roots₂ F₂ ∧ roots = roots₁ ++ roots₂ ∧
        F = F₁ ++ F₂ := by
  funext P s roots F
  refine propext ⟨?_, ?_⟩
  · rintro ⟨parts, hvalues, rfl, rfl, hparts⟩
    obtain ⟨part, rest, rfl, rfl, rfl⟩ := map_eq_cons_iff.1 hvalues
    refine ⟨part.roots, part.footprint, partRoots rest, partPrints rest, hparts 0 part rfl,
      ⟨rest, rfl, rfl, rfl, fun j q hj => ?_⟩, rfl, rfl⟩
    have := hparts (j + 1) q (by simpa using hj)
    rwa [show i + (j + 1) = i + 1 + j by omega] at this
  · rintro ⟨roots₁, F₁, roots₂, F₂, hfirst, ⟨rest, rfl, rfl, rfl, hrest⟩, rfl, rfl⟩
    refine ⟨⟨v, roots₁, F₁⟩ :: rest, rfl, rfl, rfl, fun j q hj => ?_⟩
    cases j with
    | zero =>
      obtain rfl : _ = q := by simpa using hj
      exact hfirst
    | succ j =>
      rw [show i + (j + 1) = i + 1 + j by omega]
      exact hrest j q (by simpa using hj)

theorem standsAll_nil :
    (fun P s => StandsAll G m P False s [] p o σ) = fun _ _ roots F => roots = [] ∧ F = .empty := by
  funext P s roots F
  refine propext ⟨fun h => ?_, ?_⟩
  · cases h
    exact ⟨rfl, rfl⟩
  · rintro ⟨rfl, rfl⟩
    exact .nil

theorem standsAll_cons {items} :
    (fun P s => StandsAll G m P False s (item :: items) p o σ) = fun P s roots F =>
      ∃ roots₁ F₁ roots₂ F₂, Stands G m P False s item p o σ roots₁ F₁ ∧
        StandsAll G m P False s items p o σ roots₂ F₂ ∧ roots = roots₁ ++ roots₂ ∧
        F = F₁ ++ F₂ := by
  funext P s roots F
  refine propext ⟨fun h => ?_, ?_⟩
  · cases h with
    | cons hitem hitems => exact ⟨_, _, _, _, hitem, hitems, rfl, rfl⟩
  · rintro ⟨roots₁, F₁, roots₂, F₂, hitem, hitems, rfl, rfl⟩
    exact .cons hitem hitems

/-- A part that lives wherever it stands. -/
abbrev LivesItem (G : List Local) (m : Meaning V) (item : Item) : Prop :=
  ∀ (p : NodeId) (o : List Nat) (σ : Scope V),
    Lives m p o (item.isElement = true) fun P s => Stands G m P False s item p o σ

theorem lives_parts {body} (hbody : LivesItem G m body) (helement : body.isElement = true)
    (vs : List V) (i : Nat) : Lives m p o True (StandsParts G m clause body p o σ vs i) := by
  induction vs generalizing i with
  | nil =>
    rw [standsParts_nil]
    exact .nil
  | cons v vs ih =>
    rw [standsParts_cons]
    have hfirst := hbody p o (clause.bind σ v i)
    rw [helement, eq_self] at hfirst
    exact hfirst.append (ih (i + 1))

theorem lives_items {items} (h : ∀ item ∈ items, LivesItem G m item) :
    Lives m p o False fun P s => StandsAll G m P False s items p o σ := by
  induction items with
  | nil =>
    rw [standsAll_nil]
    exact .nil
  | cons item rest ih =>
    rw [standsAll_cons]
    have hfirst := h item (by simp) p o σ
    exact (hfirst.weaken False.elim).append (ih fun i hi => h i (.tail _ hi))

/-- What is asked of a template whose effects run again: no two bindings of an element set the same
attribute, and no branch of a chain is a repetition. -/
def steady : Rules where
  text _ := True
  head head := (boundNames head).Nodup
  clause _ := True
  branch item := item.isElement = true

theorem rerun_element {head} {children} (hnames : (boundNames head).Nodup)
    (hchildren : ∀ item ∈ children, LivesItem G m item)
    (h : Stands G m P False s (.element head children) p o σ roots F)
    (hsite : Site s p o pre roots post F) (he : e ∈ F.effects) (hlater : Later s e P P') :
    StandsAgain G m P' s e (.element head children) p o σ pre roots post F := by
  cases h with
  | @element _ _ _ _ _ n es Fc hn hh hc =>
    have hjoin : ∀ F : Footprint, Joins ⟨[n], [], es⟩ F ⟨n :: F.nodes, F.cells, es ++ F.effects⟩ :=
      fun F => ⟨.refl _, .refl _, .refl _⟩
    have hA : Placed s p o [n] ⟨[n], [], es⟩ := by
      have := hh.placed hn (.empty s n o)
      rwa [Footprint.empty, append_nil] at this
    have hdisjoint := (hjoin Fc).disjoint hsite.nodup
    have hnF : n ∉ Fc.nodes := hdisjoint.nodes n (by simp)
    have ho : e ∉ o := fun hm => hsite.owners e hm he
    have hpn : p ≠ n := fun h => hsite.parent (by simp [h])
    have hpF : p ∉ Fc.nodes := fun hm => hsite.parent (.tail _ hm)
    rcases mem_append.1 he with he' | he'
    · -- an effect of the element itself
      have hes : es.Nodup := (nodup_append.1 hsite.nodup.effects).1
      obtain ⟨dom, attributes, reads, hrun, htouched, hhead⟩ :=
        hh.rerun hes hnames hn.valid ho he' hlater
      have hown : Renewed s (((s.dispose e).withDom dom).setReads e reads) e p ⟨[n], [], es⟩
          ⟨[n], [], es⟩ :=
        renewed_touched htouched (by simp) he' ⟨by simp, by simp, hes⟩ reads
      have hagree := hown.agree hc.placed
        ⟨fun q hq hm => hnF (mem_singleton.1 hm ▸ hq), by simp,
          fun f hf hm => hdisjoint.effects f hm hf⟩ hpF he' ho
      have hkids : ((((s.dispose e).withDom dom).setReads e reads).dom.node n).children =
          (s.dom.node n).children := by
        show (dom.node n).children = _
        rw [htouched.self]
      refine ⟨_, _, _, hrun, .element (hn.touched htouched rfl rfl) hhead ?_,
        renewed_touched htouched (by simp) he hsite.nodup reads,
        hsite.node_eq (htouched.other p hpn), fun _ => rfl⟩
      rw [hkids]
      exact hc.transport False.elim hagree (.inl rfl)
        (hlater.keeps hc.placed fun hm => hdisjoint.effects e he' hm)
    · -- an effect of its content
      have hcontent : Site s n o [] (s.dom.node n).children [] Fc :=
        ⟨(hjoin Fc).nodup hsite.nodup, hn.valid, hnF,
          fun g hg hm => hsite.owners g hg (mem_append_right _ hm), by simp, by simp⟩
      obtain ⟨s', kids, F', hrun, hstands, hrenewed, hnode, -⟩ :=
        (lives_items hchildren).rerun hc hcontent he' hlater
      rw [nil_append, append_nil] at hnode
      have hkids : (s'.dom.node n).children = kids := by rw [hnode]
      refine ⟨s', _, _, hrun, .element
        (hn.keep hrenewed.size (by rw [hnode]) (by rw [hnode])) (hh.transport ?_ ?_ ?_ ?_ ?_ ?_) ?_,
        hrenewed.around (.inr (by simp)) hA (hjoin Fc) (hjoin F') hsite.nodup,
        hsite.node_eq (hrenewed.node p hsite.valid hpn hpF), fun _ => rfl⟩
      · rw [hnode]
      · rw [hnode]
      · rw [hnode]
      · exact fun f hf => hrenewed.effect_eq hA hdisjoint.effects he' ho hf
      · exact hlater.keeps hA fun hm => hdisjoint.effects e hm he'
      · exact False.elim
      · rw [hkids]
        exact hstands

theorem rerun_each {body}
    (hrefills : ∀ k, Refills G m "tn-for" k (eachBody k clause body) (.each clause body))
    (hbody : LivesItem G m body) (helement : body.isElement = true)
    (h : Stands G m P False s (.each clause body) p o σ roots F)
    (hsite : Site s p o pre roots post F) (he : e ∈ F.effects) (hlater : Later s e P P') :
    StandsAgain G m P' s e (.each clause body) p o σ pre roots post F := by
  cases h with
  | @each _ _ _ _ _ k a c e₀ reads parts hc hvalues hparts =>
    have hlives : Lives m p (e₀ :: o) True
        (StandsParts G m clause body p (e₀ :: o) σ (parts.map Part.value) 0) :=
      lives_parts hbody helement _ 0
    have hinner : StandsParts G m clause body p (e₀ :: o) σ (parts.map Part.value) 0 P s
        (partRoots parts) (partPrints parts) :=
      ⟨parts, rfl, rfl, rfl, fun j part hj => by
        rw [Nat.zero_add]
        exact hparts j part hj⟩
    rcases mem_cons.1 he with rfl | he
    · exact rerun_control rfl (hrefills k) hc (hlives.placed hinner) hsite
    · obtain ⟨s', F', hrun, ⟨parts', hvalues', hroots, rfl, hparts'⟩, hc', hrenewed, hnode, hP⟩ :=
        rerun_inside hlives hc hinner hsite he hlater
      rw [hroots] at hc' hnode
      refine ⟨s', _, _, hrun, .each hc' (fun hP' => ?_) (fun j part hj => ?_), hrenewed, hnode,
        nofun⟩
      · rw [hvalues']
        exact hvalues (hP hP')
      · have := hparts' j part hj
        rwa [Nat.zero_add] at this

theorem rerun_chain {condition} {body} {rest}
    (hrefills : ∀ k, Refills G m "tn-if" k (chainBody k condition body rest)
      (.chain condition body rest)) (hbodies : ∀ b ∈ (Branches.elseIf condition body rest).bodies,
      LivesItem G m b ∧ b.isElement = true)
    (h : Stands G m P False s (.chain condition body rest) p o σ roots F)
    (hsite : Site s p o pre roots post F) (he : e ∈ F.effects) (hlater : Later s e P P') :
    StandsAgain G m P' s e (.chain condition body rest) p o σ pre roots post F := by
  cases h with
  | @branch _ _ b _ _ _ _ k a c e₀ reads roots F hc hpick hb hbody =>
    rcases mem_cons.1 he with rfl | he
    · exact rerun_control rfl (hrefills k) hc hbody.placed hsite
    · obtain ⟨hlives, helement⟩ := hbodies b hb
      obtain ⟨s', F', hrun, hbody', hc', hrenewed, hnode, hP⟩ :=
        rerun_inside ((hlives p (e₀ :: o) σ).weaken fun _ => helement) hc hbody hsite he hlater
      exact ⟨s', _, _, hrun, .branch hc' (fun hP' => hpick (hP hP')) hb hbody', hrenewed, hnode,
        nofun⟩
  | @gap _ _ _ _ _ _ k a c e₀ reads hc hpick =>
    obtain rfl : e = e₀ := mem_singleton.1 he
    exact rerun_control rfl (hrefills k) hc (.empty s p (e :: o)) hsite

theorem lives_of_rerun
    (h : ∀ {P P' : Nat → Prop} {s : State V} {e : Nat} {pre roots post : List NodeId}
      {F : Footprint}, Stands G m P False s item p o σ roots F → Site s p o pre roots post F →
      e ∈ F.effects → Later s e P P' → StandsAgain G m P' s e item p o σ pre roots post F) :
    Lives m p o (item.isElement = true) fun P s => Stands G m P False s item p o σ where
  placed := Stands.placed
  transport hs hagree := hs.transport False.elim hagree (.inl rfl)
  rerun := h

theorem lives_item (item : Item) (hbuild : (buildable G).Item item) (hsteady : steady.Item item) :
    LivesItem G m item := by
  induction item using Item.induction with
  | text segments => exact fun p o σ => lives_of_rerun fun h hsite he _ => rerun_text h hsite he
  | element head children ih =>
    have hchildren : ∀ item ∈ children, LivesItem G m item := fun item hi =>
      ih item hi (Rules.item_of_mem hbuild.2 hi) (Rules.item_of_mem hsteady.2 hi)
    exact fun p o σ => lives_of_rerun (rerun_element hsteady.1 hchildren)
  | each clause body ih =>
    have hrefills : ∀ k, Refills G m "tn-for" k (eachBody k clause body) (.each clause body) :=
      fun k => refills_each hbuild.1 (builds_item body hbuild.2.2)
    exact fun p o σ => lives_of_rerun
      (rerun_each hrefills (ih hbuild.2.2 hsteady.2.2) hsteady.2.1)
  | chain condition body rest ih =>
    have hbuild' : (buildable G).Branches (.elseIf condition body rest) := hbuild
    have hsteady' : steady.Branches (.elseIf condition body rest) := hsteady
    have hrefills : ∀ k, Refills G m "tn-if" k (chainBody k condition body rest)
        (.chain condition body rest) := fun k =>
      refills_chain fun b hb => builds_item b (Rules.branch_of_mem hbuild' hb).2
    exact fun p o σ => lives_of_rerun (rerun_chain hrefills fun b hb =>
      ⟨ih b hb (Rules.branch_of_mem hbuild' hb).2 (Rules.branch_of_mem hsteady' hb).2,
        (Rules.branch_of_mem hsteady' hb).1⟩)

end ReactiveMarkup.Output
