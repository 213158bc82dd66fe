/-
The local names of a module.

Local names are numbered, and no two are written alike.  So a name that a statement
binds never hides another one that is still needed, and names of repetitions are
seen by expressions as long as they differ from the local names and from those that
are taken from outside.
-/
import ReactiveMarkup.Proofs.Output.Execution

namespace ReactiveMarkup.Output

open Template List

/-! ### How names are written -/

theorem LocalKind.stem_injective {a b : LocalKind} (h : a.stem = b.stem) : a = b := by
  cases a <;> cases b <;> first | rfl | exact absurd h (by decide)

theorem LocalKind.stem_plain (kind : LocalKind) : ∀ c ∈ kind.stem.toList, (c != '$') = true := by
  have hall : kind.stem.toList.all (· != '$') = true := by cases kind <;> decide
  exact all_eq_true.1 hall

theorem Local.name_injective {x y : Local} (h : x.name = y.name) : x = y := by
  have htexts : ∀ z : Local, z.name.toList.tail =
      z.kind.stem.toList ++ '$' :: (toString z.number).toList := by
    simp [Local.name]
  have hcut : ∀ z : Local,
      z.name.toList.tail.takeWhile (· != '$') = z.kind.stem.toList ∧
      z.name.toList.tail.dropWhile (· != '$') = '$' :: (toString z.number).toList := by
    intro z
    rw [htexts z]
    constructor
    · rw [takeWhile_append_of_pos (LocalKind.stem_plain z.kind)]
      simp
    · rw [dropWhile_append_of_pos (LocalKind.stem_plain z.kind)]
      simp
  have hkind : x.kind = y.kind := by
    refine LocalKind.stem_injective (String.toList_injective ?_)
    rw [← (hcut x).1, ← (hcut y).1, h]
  have hnumber : x.number = y.number := by
    have hdigits : ∀ z : Local, Nat.ofDigitChars 10 (toString z.number).toList 0 = z.number := by
      intro z
      show Nat.ofDigitChars 10 (Nat.repr z.number).toList 0 = z.number
      rw [Nat.toList_repr]
      exact Nat.ofDigitChars_toDigits (by omega) (by omega)
    have hend := (hcut x).2
    rw [h, (hcut y).2] at hend
    rw [← hdigits x, ← hdigits y, (List.cons.inj hend).2]
  cases x
  simp_all

theorem Local.name_ne {x y : Local} (h : x.number ≠ y.number) : x.name ≠ y.name :=
  fun e => h (congrArg Local.number (Local.name_injective e))

/-- Local names begin with a sign that they do not hold again, and go on with a letter. -/
theorem Local.exists_name (x : Local) :
    ∃ c d rest, x.name.toList = '_' :: c :: d :: rest ∧ c ≠ '$' ∧ '_' ∉ c :: d :: rest := by
  obtain ⟨kind, number⟩ := x
  have hdigits : '_' ∉ Nat.toDigits 10 number := by
    intro h
    exact absurd (Nat.isDigit_of_mem_toDigits (by decide) (by decide) h) (by decide)
  cases kind <;>
    refine ⟨_, _, _, by simp [Local.name, LocalKind.stem]; exact ⟨rfl, rfl, rfl⟩, by decide, ?_⟩ <;>
    simp [hdigits]

theorem Local.name_notMem {names : List String} (x : Local)
    (h : names.all fun name => name.toList.head? != some '_' || name.toList[1]? == some '$') :
    x.name ∉ names := by
  intro hmem
  obtain ⟨c, d, rest, hname, hc, -⟩ := x.exists_name
  simpa [hname, hc] using all_eq_true.1 h _ hmem

theorem Local.name_notMem_outerNames (x : Local) : x.name ∉ outerNames :=
  x.name_notMem (by decide)

/-! ### Names that are bound -/

mutual

/-- The local names that a statement binds, with those in its blocks and effects. -/
def Statement.locals : Statement → List Local
  | .createText x | .createElement x _ | .createFragment x | .createComment x _
  | .createComponent x _ | .declareValue x _ | .declareNodes x | .declareList x _ => [x]
  | .clearNodes _ node => [node]
  | .effect body => localsIn body
  | .loop _ index body => index :: localsIn body
  | .conditional _ body rest => localsIn body ++ rest.locals
  | .append _ _ | .setData _ _ | .bindData _ _ | .setAttribute _ _ _ | .updateAttribute _ _ _
  | .setHandler _ _ | .declareItem _ _ _ | .declareIndex _ _ | .keepNodes _ _
  | .keepMoreNodes _ _ | .place _ _ => []

def localsIn : List Statement → List Local
  | [] => []
  | statement :: rest => statement.locals ++ localsIn rest

def Alternatives.locals : Alternatives → List Local
  | .done => []
  | .otherwise body => localsIn body
  | .elseIf _ body rest => localsIn body ++ rest.locals

end

theorem localsIn_append (l l' : List Statement) :
    localsIn (l ++ l') = localsIn l ++ localsIn l' := by
  induction l with
  | nil => rfl
  | cons statement rest ih => simp [localsIn, ih]

def clauseNames (clause : ForClause) : List String := clause.item :: clause.index.toList

/-- The names of a repetition differ from each other, from local names and from those that are taken
from outside, and can be bound. -/
structure Apart (locals : List Local) (clause : ForClause) : Prop where
  item : ∀ x ∈ locals, x.name ≠ clause.item
  index : ∀ name ∈ clause.index, ∀ x ∈ locals, x.name ≠ name
  distinct : ∀ name ∈ clause.index, name ≠ clause.item
  usable : ∀ name ∈ clauseNames clause, isBindable name = true ∧ name ∉ outerNames

instance (locals : List Local) (clause : ForClause) : Decidable (Apart locals clause) :=
  decidable_of_iff ((∀ x ∈ locals, x.name ≠ clause.item) ∧
      (∀ name ∈ clause.index, ∀ x ∈ locals, x.name ≠ name) ∧
      (∀ name ∈ clause.index, name ≠ clause.item) ∧
      ∀ name ∈ clauseNames clause, isBindable name = true ∧ name ∉ outerNames)
    ⟨fun h => ⟨h.1, h.2.1, h.2.2.1, h.2.2.2⟩, fun h => ⟨h.item, h.index, h.distinct, h.usable⟩⟩

/-! ### Frames -/

variable {V : Type}

def Bound.isValue : Bound V → Bool
  | .value _ => true
  | _ => false

/-- Expressions see the scope `σ`, and no name from outside is hidden. -/
structure Sees (env : Env V) (σ : Scope V) : Prop where
  scope : scopeOf env = σ
  outer : ∀ name ∈ outerNames, env.get? name = none

theorem Sees.outer?_eq {frame : Frame V} {σ : Scope V} {name : String} (h : Sees frame.env σ)
    (hname : name ∈ outerNames) : frame.outer? name = some () := by
  rw [Frame.outer?, h.outer name hname]
  rfl

/-- Expressions see the scope `σ`, in which no local name is bound, and local names of `G` with
numbers from `k` on can be bound. -/
structure Ready (G : List Local) (k : Nat) (frame : Frame V) (σ : Scope V) : Prop where
  scope : Sees frame.env σ
  clear : ∀ x ∈ G, σ x.name = none
  free : ∀ x ∈ G, k < x.number → x.name ∉ frame.block

/-- Local names of `G` with numbers between `k` and `k'` have been bound. -/
def Grown (G : List Local) (k k' : Nat) (frame frame' : Frame V) : Prop :=
  ∃ added : List (Local × Bound V),
    (∀ a ∈ added, a.1 ∈ G ∧ k < a.1.number ∧ a.1.number ≤ k' ∧ a.2.isValue = false) ∧
    frame'.env = added.map (fun a => (a.1.name, a.2)) ++ frame.env ∧
    frame'.block = added.map (fun a => a.1.name) ++ frame.block

variable {G : List Local} {k k' k'' : Nat} {frame frame' frame'' : Frame V} {σ : Scope V}

theorem get?_append_of_ne {env : Env V} {name} (added : List (Local × Bound V))
    (h : ∀ a ∈ added, a.1.name ≠ name) :
    Table.get? (added.map (fun a => (a.1.name, a.2)) ++ env) name = env.get? name := by
  induction added with
  | nil => rfl
  | cons a rest ih =>
    rw [map_cons, cons_append, Table.get?, if_neg (h a (by simp))]
    exact ih fun b hb => h b (.tail _ hb)

theorem Grown.refl (G : List Local) (k k' : Nat) (frame : Frame V) : Grown G k k' frame frame :=
  ⟨[], by simp, by simp, by simp⟩

section

variable (h : Grown G k k' frame frame')

include h

theorem Grown.mono (hj : j ≤ k) (hj' : k' ≤ j') :
    Grown G j j' frame frame' := by
  obtain ⟨added, hadded, henv, hblock⟩ := h
  refine ⟨added, ?_, henv, hblock⟩
  intro a ha
  obtain ⟨hG, hk, hk', hv⟩ := hadded a ha
  exact ⟨hG, by omega, by omega, hv⟩

theorem Grown.trans (h' : Grown G k k' frame' frame'') :
    Grown G k k' frame frame'' := by
  obtain ⟨added, hadded, henv, hblock⟩ := h
  obtain ⟨added', hadded', henv', hblock'⟩ := h'
  exact ⟨added' ++ added, forall_mem_append.2 ⟨hadded', hadded⟩, by simp [henv', henv],
    by simp [hblock', hblock]⟩

/-- Names with smaller numbers are still bound to the same. -/
theorem Grown.get? {x : Local} (hx : x.number ≤ k) :
    frame'.env.get? x.name = frame.env.get? x.name := by
  obtain ⟨added, hadded, henv, -⟩ := h
  rw [henv]
  refine get?_append_of_ne added ?_
  intro a ha
  have := (hadded a ha).2.1
  exact Local.name_ne (by omega)

/-- The scope of expressions does not change while local names are bound. -/
theorem Grown.scope (hclear : ∀ x ∈ G, scopeOf frame.env x.name = none) :
    scopeOf frame'.env = scopeOf frame.env := by
  obtain ⟨added, hadded, henv, -⟩ := h
  funext name
  rw [henv, scopeOf]
  by_cases hname : ∃ a ∈ added, a.1.name = name
  · -- a local name hides nothing that expressions see, and is not seen itself
    obtain ⟨a, ha, rfl⟩ := hname
    rw [hclear a.1 (hadded a ha).1]
    have hbound : ∀ b, Table.get? (added.map (fun a => (a.1.name, a.2)) ++ frame.env) a.1.name =
        some b → b.isValue = false := by
      clear henv
      induction added with
      | nil => simp at ha
      | cons c rest ih =>
        intro b hb
        rw [map_cons, cons_append, Table.get?] at hb
        split at hb
        · cases hb
          exact (hadded c (by simp)).2.2.2
        · next hne =>
          rcases mem_cons.1 ha with rfl | ha
          · exact absurd rfl hne
          · exact ih (fun a ha => hadded a (.tail _ ha)) ha b hb
    split
    · next v hv => exact absurd (hbound _ hv) (by simp [Bound.isValue])
    · rfl
  · rw [get?_append_of_ne added fun a ha e => hname ⟨a, ha, e⟩]
    rfl

end

section

variable (h : Ready G k frame σ)

include h

theorem Ready.grow (hg : Grown G k k' frame frame') (hk : k ≤ k') :
    Ready G k' frame' σ where
  scope := by
    refine ⟨?_, fun name hname => ?_⟩
    · rw [hg.scope, h.scope.scope]
      rw [h.scope.scope]
      exact h.clear
    · obtain ⟨added, -, henv, -⟩ := hg
      rw [henv, get?_append_of_ne added fun a _ => ?_, h.scope.outer name hname]
      exact fun e => a.1.name_notMem_outerNames (e ▸ hname)
  clear := h.clear
  free := by
    obtain ⟨added, hadded, -, hblock⟩ := hg
    intro x hx hnumber hmem
    rw [hblock, mem_append, mem_map] at hmem
    rcases hmem with ⟨a, ha, hname⟩ | hmem
    · have := (hadded a ha).2.2.1
      exact Local.name_ne (by omega) hname
    · exact h.free x hx (by omega) hmem

theorem Ready.mono (hk : k ≤ k') : Ready G k' frame σ :=
  ⟨h.scope, h.clear, fun x hx hnumber => h.free x hx (by omega)⟩

theorem Ready.enter (k' : Nat) : Ready G k' (.enter frame.env) σ where
  scope := h.scope
  clear := h.clear
  free := by simp [Frame.enter]

theorem Ready.declare (bound : Bound V) (hx : x ∈ G) (hk : k < x.number)
    (hv : bound.isValue = false) :
    ∃ frame', frame.declare x.name bound = some frame' ∧ Grown G k x.number frame frame' ∧
      frame'.env.get? x.name = some bound := by
  refine ⟨⟨(x.name, bound) :: frame.env, x.name :: frame.block⟩, ?_, ?_, ?_⟩
  · rw [Frame.declare, if_neg (h.free x hx hk)]
  · exact ⟨[(x, bound)], by simpa using ⟨hx, hk, hv⟩, by simp, by simp⟩
  · simp [Table.get?]

/-- The index of a loop can be bound for each of its turns. -/
theorem Ready.index (hx : x ∈ G) (hk : k < x.number) (i : Nat) :
    Ready G x.number (.enter ((x.name, .index i) :: frame.env)) σ := by
  have hgrown : Grown G k x.number frame
      ⟨(x.name, .index i) :: frame.env, x.name :: frame.block⟩ :=
    ⟨[(x, .index i)], by simpa using ⟨hx, hk, rfl⟩, by simp, by simp⟩
  exact (h.grow hgrown (Nat.le_of_lt hk)).enter x.number

end

theorem scopeOf_cons_value (env : Env V) (name : String) (v : V) :
    scopeOf ((name, .value v) :: env) = (scopeOf env).bind name v := by
  funext other
  rw [scopeOf, Table.get?, Scope.bind]
  by_cases h : name = other
  · rw [if_pos h, if_pos h]
  · rw [if_neg h, if_neg h]
    rfl

/-- A name of a repetition can be bound, and hides no local name. -/
theorem Ready.alias (h : Ready G k frame σ) {name} (v : V) (hapart : ∀ x ∈ G, x.name ≠ name)
    (hblock : name ∉ frame.block) (husable : isBindable name = true ∧ name ∉ outerNames) :
    ∃ frame', frame.choose name v = some frame' ∧ Ready G k frame' (σ.bind name v) ∧
      (∀ x ∈ G, frame'.env.get? x.name = frame.env.get? x.name) ∧
      frame'.block = name :: frame.block := by
  refine ⟨⟨(name, .value v) :: frame.env, name :: frame.block⟩, ?_, ⟨?_, ?_, ?_⟩, ?_, rfl⟩
  · rw [Frame.choose, if_pos husable.1, Frame.declare, if_neg hblock]
  · refine ⟨by rw [scopeOf_cons_value, h.scope.scope], fun other hother => ?_⟩
    rw [Table.get?, if_neg fun e : name = other => husable.2 (e ▸ hother)]
    exact h.scope.outer other hother
  · intro x hx
    rw [Scope.bind, if_neg (Ne.symm (hapart x hx))]
    exact h.clear x hx
  · intro x hx hk hmem
    rcases mem_cons.1 hmem with e | hmem
    · exact hapart x hx e
    · exact h.free x hx hk hmem
  · intro x hx
    rw [Table.get?, if_neg (Ne.symm (hapart x hx))]

end ReactiveMarkup.Output
