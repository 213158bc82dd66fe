/-
What a template stands for, given what its expressions mean.

An expression is a text, and what it means is up to whoever runs the module.  It
may speak of the names that enclosing repetitions bind, so its meaning is given in
a scope.  Once all expressions have a meaning, a template is a sequence of trees:
-/
import ReactiveMarkup.Dom.Node
import ReactiveMarkup.Output.Handler
import ReactiveMarkup.Template.Node

namespace ReactiveMarkup.Template

open List

open Dom (NodeId)
open Markup (Segment)
open Text (lowered)

/-! ### Meanings -/

class Presentable (V : Type) where
  text : V → String
  /-- Whether a value takes an attribute away: nothing, or false. -/
  isAbsent : V → Bool
  ofIndex : Nat → V

inductive Plain where
  | nothing
  | truth (b : Bool)
  | number (n : Nat)
  | text (s : String)
  deriving DecidableEq, Repr

instance : Presentable Plain where
  text
    | .nothing => "null"
    | .truth b => toString b
    | .number n => toString n
    | .text s => s
  isAbsent v := v = .nothing || v = .truth false
  ofIndex := .number

/-- The values of the names that enclosing repetitions bind. -/
abbrev Scope (V : Type) := String → Option V

def Scope.empty {V : Type} : Scope V := fun _ => none

def Scope.bind {V : Type} (σ : Scope V) (name : String) (value : V) : Scope V :=
  fun other => if name = other then some value else σ other

/-- What expressions mean: as a condition, as a list that may be missing, and as a value. -/
structure Meaning (V : Type) where
  holds : String → Scope V → Bool
  items : String → Scope V → Option (List V)
  value : String → Scope V → V

/-- What is done about an event: code, in the scope in which it was written. -/
structure Closure (V : Type) where
  code : String
  scope : Scope V

variable {V : Type} [Presentable V]

/-- The scope of the content of a repetition, for one item and its index. -/
def ForClause.bind (clause : ForClause) (σ : Scope V) (item : V) (index : Nat) : Scope V :=
  match clause.index with
  | none => σ.bind clause.item item
  | some name => (σ.bind clause.item item).bind name (Presentable.ofIndex index)

def ForClause.values (clause : ForClause) (m : Meaning V) (σ : Scope V) : List V :=
  (m.items clause.list σ).getD []

def segmentText (m : Meaning V) (σ : Scope V) : Segment → String
  | .literal text => text
  | .expression source => Presentable.text (m.value source σ)

def textOf (m : Meaning V) (σ : Scope V) (segments : List Segment) : String :=
  segments.foldr (fun segment rest => segmentText m σ segment ++ rest) ""

/-! ### Attributes and handlers -/

/-- The value of an attribute that is bound; nothing if it is taken away. -/
def boundValue (m : Meaning V) (σ : Scope V) (b : Binding) : Option String :=
  if Presentable.isAbsent (m.value b.expression σ) then none
  else some (Presentable.text (m.value b.expression σ))

/-- Sets or takes away an attribute.  Names of attributes are in lower case. -/
def applyValue (attributes : Table String) (name : String) : Option String → Table String
  | none => attributes.erase (lowered name)
  | some value => attributes.put (lowered name) value

def plainAttributes (head : Head) : Table String :=
  head.attributes.foldl (fun t a => t.put (lowered a.name) (a.value.getD "")) []

/-- The attributes of an element: the plain ones, and then those that are bound. -/
def attributesOf (m : Meaning V) (σ : Scope V) (head : Head) : Table String :=
  head.bindings.foldl (fun t b => applyValue t b.name (boundValue m σ b)) (plainAttributes head)

def handlersOf (σ : Scope V) (head : Head) : Table (Closure V) :=
  head.events.foldl
    (fun t b => t.put (lowered b.name) ⟨Output.handler b.expression, σ⟩) []

theorem get?_applyValue_self (t : Table String) (name : String) (value : Option String) :
    (applyValue t name value).get? (lowered name) = value := by
  cases value with
  | none =>
    rw [applyValue, Table.erase]
    induction t with
    | nil => rfl
    | cons entry rest ih => by_cases h : entry.1 = lowered name <;> simp_all [Table.get?]
  | some value => simp [applyValue]

theorem get?_applyValue_ne (t : Table String) {name other} (value : Option String)
    (h : lowered name ≠ other) : (applyValue t name value).get? other = t.get? other := by
  cases value with
  | none =>
    rw [applyValue, Table.erase]
    induction t with
    | nil => rfl
    | cons entry rest ih =>
      by_cases hk : entry.1 = lowered name
      · simp_all [Table.get?]
      · simp_all [Table.get?]
  | some value => simp [applyValue, h]

theorem get?_applyValues_of_ne (m : Meaning V) (σ : Scope V) {bindings : List Binding} {name}
    (h : ∀ b ∈ bindings, lowered b.name ≠ name) (t : Table String) :
    Table.get? (bindings.foldl (fun t b => applyValue t b.name (boundValue m σ b)) t) name =
      t.get? name := by
  induction bindings generalizing t with
  | nil => rfl
  | cons b rest ih =>
    rw [foldl_cons, ih (fun b' hb' => h b' (.tail _ hb')),
      get?_applyValue_ne t _ (h b (by simp))]

theorem get?_applyValues_of_last (m : Meaning V) (σ : Scope V) {bindings : List Binding}
    (hb : bindings[i]? = some b)
    (hlast : ∀ (j : Nat) (b' : Binding), i < j → bindings[j]? = some b' →
      lowered b'.name ≠ lowered b.name) (t : Table String) :
    Table.get? (bindings.foldl (fun t b => applyValue t b.name (boundValue m σ b)) t)
      (lowered b.name) = boundValue m σ b := by
  induction bindings generalizing i t with
  | nil => simp at hb
  | cons first rest ih =>
    rw [foldl_cons]
    cases i with
    | zero =>
      obtain rfl : first = b := by simpa using hb
      rw [get?_applyValues_of_ne, get?_applyValue_self]
      intro b' hb'
      obtain ⟨j, hj⟩ := mem_iff_getElem?.1 hb'
      exact hlast (j + 1) b' (by omega) (by simpa using hj)
    | succ i =>
      refine ih (by simpa using hb) (fun j b' hj hb' => ?_) _
      exact hlast (j + 1) b' (by omega) (by simpa using hb')

theorem exists_last_binding {bindings : List Binding} {name}
    (h : ∃ b ∈ bindings, lowered b.name = name) :
    ∃ (i : Nat) (b : Binding), bindings[i]? = some b ∧ lowered b.name = name ∧
      ∀ (j : Nat) (b' : Binding), i < j → bindings[j]? = some b' → lowered b'.name ≠ name := by
  induction bindings with
  | nil => simp at h
  | cons first rest ih =>
    by_cases hrest : ∃ b ∈ rest, lowered b.name = name
    · obtain ⟨i, b, hb, hname, hlast⟩ := ih hrest
      refine ⟨i + 1, b, by simpa using hb, hname, ?_⟩
      intro j b' hj hb'
      obtain ⟨j, rfl⟩ : ∃ k, j = k + 1 := ⟨j - 1, by omega⟩
      exact hlast j b' (by omega) (by simpa using hb')
    · obtain ⟨b, hb, hname⟩ := h
      rcases mem_cons.1 hb with rfl | hb
      · refine ⟨0, b, rfl, hname, ?_⟩
        intro j b' hj hb' hname'
        obtain ⟨j, rfl⟩ : ∃ k, j = k + 1 := ⟨j - 1, by omega⟩
        exact hrest ⟨b', mem_of_getElem? (by simpa using hb'), hname'⟩
      · exact absurd ⟨b, hb, hname⟩ hrest

/-! ### Trees -/

/-- A tree of nodes.  `A` is what is looked at of the attributes. -/
inductive Tree (A H : Type) where
  | text (data : String)
  | comment (data : String)
  | element (tag : String) (attributes : A) (handlers : Table H) (children : List (Tree A H))

mutual

/-- Whether a node looks like a tree. -/
def Shows {A H : Type} (view : Table String → A) (s : Dom.Store H) : NodeId → Tree A H → Prop
  | n, .text data => (s.node n).kind = .text ∧ (s.node n).data = data
  | n, .comment data => (s.node n).kind = .comment ∧ (s.node n).data = data
  | n, .element tag attributes handlers children =>
    (s.node n).kind = .element ∧ (s.node n).tag = tag ∧ view (s.node n).attributes = attributes ∧
      (s.node n).handlers = handlers ∧ ShowsAll view s (s.node n).children children

def ShowsAll {A H : Type} (view : Table String → A) (s : Dom.Store H) :
    List NodeId → List (Tree A H) → Prop
  | [], [] => True
  | n :: ns, t :: ts => Shows view s n t ∧ ShowsAll view s ns ts
  | [], _ :: _ => False
  | _ :: _, [] => False

end

theorem showsAll_append {view : Table String → A} {s : Dom.Store H} {ns ns'} {ts ts'}
    (h : ShowsAll view s ns ts) (h' : ShowsAll view s ns' ts') :
    ShowsAll view s (ns ++ ns') (ts ++ ts') := by
  induction ns generalizing ts <;> cases ts <;> simp_all [ShowsAll]

/-! ### Rendering -/

section Rendering

variable {A : Type} (view : Table String → A) (m : Meaning V)

def renderHead (σ : Scope V) (head : Head) (content : List (Tree A (Closure V))) :
    Tree A (Closure V) :=
  .element (lowered head.tag) (view (attributesOf m σ head)) (handlersOf σ head) content

/-- Whether an element of a chain is to be there, if none before it is. -/
def Head.holds (σ : Scope V) (head : Head) : Bool :=
  match head.directives.condition, head.directives.elseIf with
  | some condition, _ => m.holds condition σ
  | none, some condition => m.holds condition σ
  | none, none => true

/-- Whether an element continues the chain of the elements before it. -/
def Head.continues (head : Head) : Bool :=
  head.directives.condition.isNone && head.directives.branchKind?.isSome

end Rendering

end ReactiveMarkup.Template
