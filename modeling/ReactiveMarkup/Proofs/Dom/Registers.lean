/-
What nodes keep when they are moved, made and given content.

Each node has its registers: its kind, the document that it was made for, who listens
at it, and the events that are listened for once for all of a document.  Most of what
is done to nodes does not touch the registers of any, and makes new nodes only that
nobody listens at.
-/
import ReactiveMarkup.Proofs.Dom.Disposal

namespace ReactiveMarkup.Dom

def Node.registers {H : Type} (d : Node H) :
    Kind × Option NodeId × List String × List (Listener H) × Table H × Table ListenerId :=
  (d.kind, d.owner, d.delegated, d.hearing)

namespace Store

variable {H : Type} {s s' s'' : Store H} {m n p : NodeId}

theorem node_modify (s : Store H) (n m : NodeId) (f : Node H → Node H) :
    (s.modify n f).node m = s.node m ∨
      m = n ∧ n < s.nodes.size ∧ (s.modify n f).node m = f (s.node m) := by
  by_cases hm : m = n
  · subst hm
    by_cases hlt : m < s.nodes.size
    · exact .inr ⟨rfl, hlt, node_modify_self f hlt⟩
    · have hle : s.nodes.size ≤ m := Nat.le_of_not_lt hlt
      left
      rw [node_eq_of_size_le (by simpa using hle), node_eq_of_size_le hle]
  · exact .inl (node_modify_ne f hm)

theorem modify_modify (s : Store H) (n : NodeId) (f g : Node H → Node H) :
    (s.modify n f).modify n g = s.modify n fun d => g (f d) := by
  have hnodes : (s.nodes.modify n f).modify n g = s.nodes.modify n fun d => g (f d) := by
    ext i h h'
    · simp
    · rw [Array.getElem_modify, Array.getElem_modify, Array.getElem_modify]
      split <;> rfl
  exact congrArg (fun nodes => { s with nodes }) hnodes

def IsDocument (s : Store H) (n : NodeId) : Prop := (s.node n).kind = .document

theorem IsDocument.lt_size (h : s.IsDocument n) : n < s.nodes.size := by
  by_contra hlt
  rw [IsDocument, node_eq_of_size_le (Nat.le_of_not_lt hlt)] at h
  cases h

theorem lt_size_of_element (h : (s.node n).kind = .element) : n < s.nodes.size := by
  by_contra hlt
  rw [node_eq_of_size_le (Nat.le_of_not_lt hlt)] at h
  cases h

/-- Whether all nodes were made for documents. -/
def Owned (s : Store H) : Prop := ∀ n d, (s.node n).owner = some d → s.IsDocument d

theorem Owned.isDocument_of_documentIn? (h : s.Owned) {held} (hd : s.documentIn? held n = some d) :
    s.IsDocument d := by
  rw [documentIn?] at hd
  split at hd
  · rename_i hk
    exact Option.some_inj.1 hd ▸ hk
  · exact h n d (Option.filter_eq_some_iff.1 hd).1

/-- Whether all nodes keep their registers, and new ones have empty ones. -/
structure Quiet (s s' : Store H) : Prop where
  size : s.nodes.size ≤ s'.nodes.size
  kept : ∀ n, n < s.nodes.size → (s'.node n).registers = (s.node n).registers
  silent : ∀ n, s.nodes.size ≤ n → (s'.node n).hearing = ([], [], []) ∧ (s'.node n).delegated = []
  owned : ∀ n, s.nodes.size ≤ n → ∀ d, (s'.node n).owner = some d → s'.IsDocument d
  next : s'.nextListener = s.nextListener

theorem IsDocument.quiet (hd : s.IsDocument n) (h : Quiet s s') : s'.IsDocument n :=
  (congrArg Prod.fst (h.kept n hd.lt_size)).trans hd

namespace Quiet

theorem refl (s : Store H) : Quiet s s where
  size := Nat.le_refl _
  kept _ _ := rfl
  silent n hn := by
    rw [node_eq_of_size_le hn]
    exact ⟨rfl, rfl⟩
  owned n hn d hd := by
    rw [node_eq_of_size_le hn] at hd
    cases hd
  next := rfl

theorem owner_eq (h : Quiet s s') (hn : n < s.nodes.size) : (s'.node n).owner = (s.node n).owner :=
  congrArg (·.2.1) (h.kept n hn)

/-- Those who listen are the same at all nodes. -/
theorem heard (h : Quiet s s') (n : NodeId) :
    (s'.node n).hearing = (s.node n).hearing ∧ (s'.node n).delegated = (s.node n).delegated := by
  by_cases hlt : n < s.nodes.size
  · exact ⟨congrArg (·.2.2.2) (h.kept n hlt), congrArg (·.2.2.1) (h.kept n hlt)⟩
  · have hle := Nat.le_of_not_lt hlt
    rw [node_eq_of_size_le hle]
    exact h.silent n hle

theorem trans (h : Quiet s s') (h' : Quiet s' s'') : Quiet s s'' where
  size := Nat.le_trans h.size h'.size
  kept n hn := (h'.kept n (Nat.lt_of_lt_of_le hn h.size)).trans (h.kept n hn)
  silent n hn := by
    rw [(h'.heard n).1, (h'.heard n).2]
    exact h.silent n hn
  owned n hn d hd := by
    by_cases hlt : n < s'.nodes.size
    · rw [h'.owner_eq hlt] at hd
      exact (h.owned n hn d hd).quiet h'
    · exact h'.owned n (Nat.le_of_not_lt hlt) d hd
  next := h'.next.trans h.next

theorem foldl {α : Type} {f} (hf : ∀ s a, Quiet s (f s a)) (l : List α) :
    Quiet s (l.foldl f s) := by
  induction l generalizing s with
  | nil => exact .refl s
  | cons a rest ih => exact (hf s a).trans ih

end Quiet

theorem Owned.quiet (ho : s.Owned) (h : Quiet s s') : s'.Owned := by
  intro n d hd
  by_cases hlt : n < s.nodes.size
  · rw [h.owner_eq hlt] at hd
    exact (ho n d hd).quiet h
  · exact h.owned n (Nat.le_of_not_lt hlt) d hd

/-! ### Changes to single nodes -/

theorem quiet_modify (n : NodeId) (hf : ∀ d, (f d).registers = d.registers) :
    Quiet s (s.modify n f) := by
  have hkept : ∀ m, ((s.modify n f).node m).registers = (s.node m).registers := by
    intro m
    rcases node_modify s n m f with hm | ⟨-, -, hm⟩
    · rw [hm]
    · rw [hm, hf]
  refine ⟨Nat.le_of_eq (size_modify s n f).symm, fun m _ => hkept m, fun m hm => ?_,
    fun m hm d hd => ?_, rfl⟩
  · rw [node_eq_of_size_le (by simpa using hm)]
    exact ⟨rfl, rfl⟩
  · rw [node_eq_of_size_le (by simpa using hm)] at hd
    cases hd

theorem quiet_add (d : Node H) (hh : d.hearing = ([], [], [])) (hd : d.delegated = [])
    (ho : ∀ o, d.owner = some o → (s.add d).1.IsDocument o) : Quiet s (s.add d).1 where
  size := by simp
  kept n hn := by rw [node_add_ne d (Nat.ne_of_lt hn)]
  silent n hn := by
    by_cases he : n = s.nodes.size
    · rw [he, node_add_self]
      exact ⟨hh, hd⟩
    · rw [node_add_ne d he, node_eq_of_size_le hn]
      exact ⟨rfl, rfl⟩
  owned n hn o := by
    by_cases he : n = s.nodes.size
    · rw [he, node_add_self]
      exact ho o
    · rw [node_add_ne d he, node_eq_of_size_le hn]
      intro hnone
      cases hnone
  next := rfl

theorem IsDocument.add (ho : s.IsDocument o) (d : Node H) : (s.add d).1.IsDocument o := by
  rw [IsDocument, node_add_ne d (Nat.ne_of_lt ho.lt_size)]
  exact ho

/-! ### Moves -/

theorem quiet_detach (s : Store H) (n : NodeId) : Quiet s (s.detach n) := by
  unfold detach
  split
  · exact .refl s
  · refine (quiet_modify _ ?_).trans (quiet_modify _ ?_) <;> exact fun _ => rfl

theorem quiet_attach (s : Store H) (p : NodeId) (mark : Option NodeId) (n : NodeId) :
    Quiet s (s.attach p mark n) := by
  refine ((quiet_detach s n).trans (quiet_modify n ?_)).trans (quiet_modify p ?_) <;>
    exact fun _ => rfl

theorem quiet_insertAt (s : Store H) (p : NodeId) (mark : Option NodeId) (n : NodeId) :
    Quiet s (s.insertAt p mark n) := by
  unfold insertAt
  split
  · have hempty : Quiet s (s.empty n) := by
      refine (quiet_modify n ?_).trans (.foldl (fun _ c => quiet_modify c ?_) _) <;>
        exact fun _ => rfl
    exact hempty.trans (.foldl (fun s c => quiet_attach s p mark c) _)
  · exact quiet_attach s p mark n

theorem quiet_removeChild? (h : s.removeChild? p n = some s') : Quiet s s' := by
  obtain rfl := Option.some_inj.1 (Option.ite_none_right_eq_some.1 h).2
  refine (quiet_modify _ ?_).trans (quiet_modify _ ?_) <;> exact fun _ => rfl

/-! ### Nodes taken out for good -/

section Disposal

variable {P : Store H → Store H → Prop}

theorem disposeWithin_induction (refl : ∀ s, P s s)
    (trans : ∀ {s s' s''}, P s s' → P s' s'' → P s s'')
    (hush : ∀ s n,
      P s (s.modify n fun d => { d with listeners := [], handlers := [], direct := [] }))
    (fuel : Nat) (s : Store H) (n : NodeId) : P s (disposeWithin fuel s n) := by
  induction fuel generalizing s n with
  | zero => exact refl s
  | succ fuel ih =>
    exact trans (hush s n) (List.foldlRecOn _ _ (refl _) fun t ht c _ => trans ht (ih t c))

theorem discard_induction (refl : ∀ s, P s s)
    (trans : ∀ {s s' s''}, P s s' → P s' s'' → P s s'')
    (hush : ∀ s n,
      P s (s.modify n fun d => { d with listeners := [], handlers := [], direct := [] }))
    (detach : ∀ s n, P s (s.detach n)) (ns : List NodeId) (s : Store H) :
    P s (ns.foldl Store.discard s) :=
  List.foldlRecOn ns _ (refl s) fun t ht n _ =>
    trans ht (trans (detach t n) (disposeWithin_induction refl trans hush _ _ n))

end Disposal

/-- Whether nothing has happened to those who listen, but that some nodes have no listeners and
handlers any more. -/
def Fades (s s' : Store H) : Prop :=
  ∀ n, (s'.node n).delegated = (s.node n).delegated ∧
    ((s'.node n).hearing = (s.node n).hearing ∨ (s'.node n).hearing = ([], [], []))

namespace Fades

theorem refl (s : Store H) : Fades s s := fun _ => ⟨rfl, .inl rfl⟩

theorem trans (h : Fades s s') (h' : Fades s' s'') : Fades s s'' := by
  intro n
  refine ⟨(h' n).1.trans (h n).1, ?_⟩
  rcases (h' n).2 with hsame | hsilent
  · rw [hsame]
    exact (h n).2
  · exact .inr hsilent

theorem hush (s : Store H) (n : NodeId) :
    Fades s (s.modify n fun d => { d with listeners := [], handlers := [], direct := [] }) := by
  intro m
  rcases node_modify s n m _ with hm | ⟨-, -, hm⟩ <;> rw [hm]
  · exact ⟨rfl, .inl rfl⟩
  · exact ⟨rfl, .inr rfl⟩

theorem dispose (s : Store H) (n : NodeId) : Fades s (s.dispose n) :=
  disposeWithin_induction refl trans hush _ s n

theorem discard (s : Store H) (ns : List NodeId) : Fades s (ns.foldl Store.discard s) :=
  discard_induction refl trans hush
    (fun s n m => ⟨((quiet_detach s n).heard m).2, .inl ((quiet_detach s n).heard m).1⟩) ns s

end Fades

/-! ### New nodes -/

theorem quiet_create {document} (hd : s.IsDocument document) (kind : Kind) (tag data : String) :
    Quiet s (s.create document kind tag data).1 := by
  refine quiet_add _ rfl rfl fun o ho => ?_
  cases ho
  exact hd.add _

theorem quiet_newDocument (s : Store H) : Quiet s s.newDocument.1 := by
  have hadd : Quiet s (s.add { kind := .document }).1 :=
    quiet_add _ rfl rfl fun o ho => absurd ho (by simp)
  have hdoc : (s.add { kind := .document }).1.IsDocument s.nodes.size := by
    rw [IsDocument, node_add_self]
  exact (hadd.trans (quiet_create hdoc .element "body" "")).trans (quiet_insertAt _ _ none _)

theorem isDocument_newDocument (s : Store H) : s.newDocument.1.IsDocument s.newDocument.2 := by
  have hdoc : (s.add { kind := .document }).1.IsDocument s.nodes.size := by
    rw [IsDocument, node_add_self]
  exact hdoc.quiet ((quiet_create hdoc .element "body" "").trans (quiet_insertAt _ _ none _))

theorem quiet_copyNode (ho : s.Owned) (n : NodeId) : Quiet s (s.copyNode n).1 :=
  quiet_add _ rfl rfl fun o hd => (ho n o hd).add _

theorem quiet_copyWithin (ho : s.Owned) (fuel : Nat) (n : NodeId) :
    Quiet s (copyWithin fuel s n).1 := by
  induction fuel generalizing s n with
  | zero => exact quiet_copyNode ho n
  | succ fuel ih =>
    have hcopies : ∀ (l : List NodeId) {t : Store H}, Quiet s t →
        Quiet s (l.foldl (fun t c =>
          (copyWithin fuel t c).1.append (s.copyNode n).2 (copyWithin fuel t c).2) t) := by
      intro l
      induction l with
      | nil => exact fun h => h
      | cons c rest ihl =>
        intro t ht
        exact ihl ((ht.trans (ih (ho.quiet ht) c)).trans (quiet_insertAt _ _ none _))
    exact hcopies (s.children n) (quiet_copyNode ho n)

theorem quiet_copy (ho : s.Owned) (n : NodeId) (deep : Bool) : Quiet s (s.copy n deep).1 := by
  cases deep with
  | true => exact quiet_copyWithin ho s.nodes.size n
  | false => exact quiet_copyNode ho n

mutual

theorem quiet_plant {document : NodeId} :
    ∀ (tree : Html.Tree) {s : Store H}, s.IsDocument document →
    Quiet s (plant document tree s).1
  | .text data, _, hd => quiet_create hd .text "" data
  | .comment data, _, hd => quiet_create hd .comment "" data
  | .element name attributes children, s, hd => by
    have hroot := quiet_create hd .element name ""
    have hattributes : Quiet (s.create document .element name).1
        (attributes.foldl (fun t (a, v) => t.setAttribute (s.create document .element name).2 a v)
          (s.create document .element name).1) := by
      refine .foldl (fun _ _ => quiet_modify _ ?_) _
      exact fun _ => rfl
    have hall := hroot.trans hattributes
    exact hall.trans (quiet_plantAll children (hd.quiet hall))

theorem quiet_plantAll {document n : NodeId} : ∀ (trees : List Html.Tree) {s : Store H},
    s.IsDocument document → Quiet s (plant.plantAll document n trees s)
  | [], s, _ => .refl s
  | tree :: rest, s, hd => by
    have hfirst := (quiet_plant tree hd).trans (quiet_insertAt _ n none (plant document tree s).2)
    exact hfirst.trans (quiet_plantAll rest (hd.quiet hfirst))

end

theorem quiet_template {document} (hd : s.IsDocument document) {html}
    (h : s.template document html = .ok (s', n)) : Quiet s s' := by
  unfold template at h
  split at h
  · cases h
  · rename_i tree _
    have hq := quiet_plant tree hd
    rwa [Except.ok.inj h] at hq
  · obtain ⟨rfl, rfl⟩ := Prod.mk.inj (Except.ok.inj h)
    have hroot := quiet_create hd .fragment "" ""
    exact hroot.trans (quiet_plantAll _ (hd.quiet hroot))

/-! ### Content -/

theorem quiet_setValue (s : Store H) (n : NodeId) (name : String) (value : Scalar) :
    Quiet s (s.setValue n name value) := by
  unfold setValue
  dsimp only
  split
  · split
    · refine (quiet_modify n ?_).trans (quiet_modify n ?_) <;> exact fun _ => rfl
    · refine quiet_modify n ?_
      exact fun _ => rfl
  · split <;>
    · refine quiet_modify n ?_
      exact fun _ => rfl

end Store

end ReactiveMarkup.Dom
