/-
Where local names are bound and used.

Names are taken from one counter, so statements that build something bind the names with the
numbers `k + 1`, `k + 2` and so on, in this order.  Each use of a name comes after the line
that binds it, in the same block or in a block inside of that one.  Lines that build siblings
close what they open.
-/
import ReactiveMarkup.Proofs.Output.Building
import ReactiveMarkup.Proofs.Output.Drafts

namespace ReactiveMarkup.Output

open Template List Statement
open Markup (Segment)

/-! ### Names of lines -/

def Piece.bound? : Piece → Option Local
  | .bound x => some x
  | _ => none

def Piece.used? : Piece → Option Local
  | .used x => some x
  | _ => none

def Piece.chosen? : Piece → Option String
  | .chosen name => some name
  | _ => none

def Piece.declared? : Piece → Option String
  | .bound x => some x.name
  | .chosen name => some name
  | _ => none

/-- The parts of lines, in order. -/
def piecesIn (drafts : List Draft) : List Piece := drafts.flatMap Draft.pieces

/-- The local names that lines bind. -/
def boundIn (drafts : List Draft) : List Local := (piecesIn drafts).filterMap Piece.bound?

def usedIn (drafts : List Draft) : List Local := (piecesIn drafts).filterMap Piece.used?

/-- The names of repetitions that lines bind. -/
def chosenIn (drafts : List Draft) : List String := (piecesIn drafts).filterMap Piece.chosen?

def declaredIn (drafts : List Draft) : List String := (piecesIn drafts).filterMap Piece.declared?

theorem boundIn_append (l l' : List Draft) : boundIn (l ++ l') = boundIn l ++ boundIn l' := by
  simp [boundIn, piecesIn]

theorem chosenIn_append (l l' : List Draft) : chosenIn (l ++ l') = chosenIn l ++ chosenIn l' := by
  simp [chosenIn, piecesIn]

theorem count_declaredIn (drafts : List Draft) (name : String) :
    (declaredIn drafts).count name =
      ((boundIn drafts).map Local.name).count name + (chosenIn drafts).count name := by
  rw [declaredIn, boundIn, chosenIn]
  induction piecesIn drafts with
  | nil => rfl
  | cons p rest ih =>
    cases p with
    | bound | chosen =>
      simp [filterMap_cons, Piece.declared?, Piece.bound?, Piece.chosen?, count_cons]
      omega
    | wording | given | runner | used =>
      simpa [filterMap_cons, Piece.declared?, Piece.bound?, Piece.chosen?] using ih

mutual

theorem Statement.boundIn_drafts (s : Statement) : boundIn s.drafts = s.locals := by
  cases s with
  | effect body =>
    rw [drafts, locals, cons_append, ← singleton_append,
      boundIn_append, boundIn_append, boundIn_blockDrafts body]
    exact append_nil _
  | loop list index body =>
    rw [drafts, locals, cons_append, ← singleton_append,
      boundIn_append, boundIn_append, boundIn_blockDrafts body]
    exact congrArg (index :: ·) (append_nil _)
  | conditional condition body others =>
    rw [drafts, locals, cons_append, ← singleton_append,
      boundIn_append, boundIn_append, boundIn_blockDrafts body, others.boundIn_drafts]
    rfl
  | _ =>
    rw [drafts, locals]
    rfl

theorem boundIn_blockDrafts : ∀ statements : List Statement,
    boundIn (blockDrafts statements) = localsIn statements
  | [] => rfl
  | s :: others => by
    rw [blockDrafts, localsIn, boundIn_append, s.boundIn_drafts, boundIn_blockDrafts others]

theorem Alternatives.boundIn_drafts : ∀ a : Alternatives, boundIn a.drafts = a.locals
  | .done => by
    rw [Alternatives.drafts, Alternatives.locals]
    rfl
  | .otherwise body => by
    rw [Alternatives.drafts, Alternatives.locals, cons_append, ← singleton_append,
      boundIn_append, boundIn_append, boundIn_blockDrafts body]
    exact append_nil _
  | .elseIf condition body others => by
    rw [Alternatives.drafts, Alternatives.locals, cons_append, ← singleton_append,
      boundIn_append, boundIn_append, boundIn_blockDrafts body, others.boundIn_drafts]
    rfl

end

/-! ### Looking names up -/

/-- The local names that open blocks bind, the innermost block first. -/
abbrev Blocks := List (List Local)

def Blocks.close? : Blocks → Option Blocks
  | _ :: block :: outer => some (block :: outer)
  | _ => none

def Blocks.declare? (x : Local) : Blocks → Option Blocks
  | [] => none
  | block :: outer => some ((x :: block) :: outer)

/-- Goes over a part of a line, if a name that it uses is bound in an open block. -/
def Piece.walk (blocks : Blocks) : Piece → Option Blocks
  | .bound x => blocks.declare? x
  | .used x => if x ∈ blocks.flatten then some blocks else none
  | .wording _ | .given _ | .runner | .chosen _ => some blocks

def Turn.enter? (blocks : Blocks) : Turn → Option Blocks
  | .stays => some blocks
  | .apart | .opens => some ([] :: blocks)
  | .closes => blocks.close?
  | .reopens => blocks.close?.map ([] :: ·)

def Turn.leave? (blocks : Blocks) : Turn → Option Blocks
  | .apart => blocks.close?
  | _ => some blocks

def Draft.walk (blocks : Blocks) (d : Draft) : Option Blocks :=
  ((d.turn.enter? blocks).bind fun inner => d.pieces.foldlM Piece.walk inner).bind
    fun inner => d.turn.leave? inner

/-- Goes over lines, if each name that they use is bound before, in a block that is still open. -/
def walk (blocks : Blocks) (drafts : List Draft) : Option Blocks := drafts.foldlM Draft.walk blocks

theorem walk_append (blocks : Blocks) (l l' : List Draft) :
    walk blocks (l ++ l') = (walk blocks l).bind fun inner => walk inner l' := by
  rw [walk, foldlM_append]
  rfl

theorem walk_cons (blocks : Blocks) (d : Draft) (l : List Draft) :
    walk blocks (d :: l) = (d.walk blocks).bind fun inner => walk inner l := by
  rfl

variable {blocks : Blocks}

theorem foldlM_walk_of_used {pieces : List Piece} (hbound : pieces.filterMap Piece.bound? = [])
    (hused : ∀ x ∈ pieces.filterMap Piece.used?, x ∈ blocks.flatten) :
    pieces.foldlM Piece.walk blocks = some blocks := by
  induction pieces with
  | nil => rfl
  | cons p rest ih =>
    have hfirst : p.walk blocks = some blocks := by
      cases p with
      | bound x => simp [Piece.bound?] at hbound
      | used x => exact if_pos (hused x (by simp [Piece.used?]))
      | wording | given | runner | chosen => rfl
    rw [foldlM_cons, hfirst]
    refine ih ?_ fun x hx => hused x ?_
    · rw [filterMap_eq_nil_iff] at hbound ⊢
      exact fun q hq => hbound q (.tail _ hq)
    · rw [mem_filterMap] at hx ⊢
      obtain ⟨q, hq, hx⟩ := hx
      exact ⟨q, .tail _ hq, hx⟩

theorem walk_of_stays {drafts} (hturn : ∀ d ∈ drafts, d.turn = .stays)
    (hbound : boundIn drafts = []) (hused : ∀ x ∈ usedIn drafts, x ∈ blocks.flatten) :
    walk blocks drafts = some blocks := by
  induction drafts with
  | nil => rfl
  | cons d rest ih =>
    rw [boundIn, piecesIn, flatMap_cons, filterMap_append, append_eq_nil_iff] at hbound
    have hpieces : d.pieces.foldlM Piece.walk blocks = some blocks := by
      refine foldlM_walk_of_used hbound.1 fun x hx => hused x ?_
      rw [usedIn, piecesIn, flatMap_cons, filterMap_append]
      exact mem_append_left _ hx
    have hfirst : d.walk blocks = some blocks := by
      rw [Draft.walk, hturn d (by simp)]
      show (d.pieces.foldlM Piece.walk blocks).bind _ = _
      rw [hpieces]
      rfl
    rw [walk_cons, hfirst]
    refine ih (fun d' hd => hturn d' (.tail _ hd)) hbound.2 fun x hx => hused x ?_
    rw [usedIn, piecesIn, flatMap_cons, filterMap_append]
    exact mem_append_right _ hx

/-! ### Indentation -/

variable {blocks' : Blocks}

theorem Blocks.length_close? (h : blocks.close? = some blocks') :
    blocks.length = blocks'.length + 1 := by
  rw [Blocks.close?.eq_def] at h
  split at h
  · cases h
    rfl
  · cases h

theorem Piece.length_walk {p : Piece} (h : p.walk blocks = some blocks') :
    blocks'.length = blocks.length := by
  cases p with
  | bound x =>
    cases blocks with
    | nil => cases h
    | cons block outer =>
      cases h
      rfl
  | used x =>
    rw [Piece.walk] at h
    split at h
    · cases h
      rfl
    · cases h
  | wording | given | runner | chosen =>
    cases h
    rfl

theorem length_foldlM_walk {pieces : List Piece}
    (h : pieces.foldlM Piece.walk blocks = some blocks') : blocks'.length = blocks.length := by
  induction pieces generalizing blocks with
  | nil =>
    cases h
    rfl
  | cons p rest ih =>
    obtain ⟨inner, hinner, hrest⟩ := Option.bind_eq_some_iff.1 h
    rw [ih hrest, p.length_walk hinner]

theorem Draft.length_walk {d : Draft} (h : d.walk blocks = some blocks') :
    blocks'.length = d.turn.after blocks.length := by
  obtain ⟨inner, hinner, hleave⟩ := Option.bind_eq_some_iff.1 h
  obtain ⟨entered, hentered, hpieces⟩ := Option.bind_eq_some_iff.1 hinner
  have hlength := length_foldlM_walk hpieces
  rw [Turn.after, Turn.before]
  cases hturn : d.turn with rw [hturn] at hentered hleave
  | stays | opens =>
    cases hentered
    cases hleave
    simpa [Turn.isOpening, Turn.isClosing] using hlength
  | apart =>
    cases hentered
    have := Blocks.length_close? hleave
    simp [Turn.isOpening, Turn.isClosing] at hlength ⊢
    omega
  | closes =>
    cases hleave
    have := Blocks.length_close? hentered
    simp [Turn.isOpening, Turn.isClosing]
    omega
  | reopens =>
    cases hleave
    obtain ⟨closed, hclosed, rfl⟩ := Option.map_eq_some_iff.1 hentered
    have := Blocks.length_close? hclosed
    simp [Turn.isOpening, Turn.isClosing] at hlength ⊢
    omega

theorem depthAfter_of_walk {drafts} (h : walk blocks drafts = some blocks') :
    depthAfter blocks.length drafts = blocks'.length := by
  induction drafts generalizing blocks with
  | nil =>
    cases h
    rfl
  | cons d rest ih =>
    obtain ⟨inner, hinner, hrest⟩ := Option.bind_eq_some_iff.1 h
    rw [depthAfter, foldl_cons, ← d.length_walk hinner]
    exact ih hrest

/-! ### Statements in a block -/

/-- In a block from which the names `xs` are seen, the lines of the statements find all names that
they use.  They close what they open, and more names are bound in the block after them. -/
def Scoped (xs : List Local) (statements : List Statement) : Prop :=
  ∀ block outer, (∀ x ∈ xs, x ∈ List.flatten (block :: outer)) →
    ∃ more, walk (block :: outer) (blockDrafts statements) = some ((more ++ block) :: outer)

def Alternatives.Scoped (xs : List Local) (a : Alternatives) : Prop :=
  ∀ inner block outer, (∀ x ∈ xs, x ∈ List.flatten (block :: outer)) →
    walk (inner :: block :: outer) a.drafts = some (block :: outer)

variable {xs ys : List Local} {s : Statement} {body rest : List Statement}

variable {x : Local}

theorem mem_flatten_of_more (more : List Local) {block} {outer : Blocks}
    (h : x ∈ List.flatten (block :: outer)) : x ∈ List.flatten ((more ++ block) :: outer) := by
  simp only [flatten_cons, mem_append] at h ⊢
  tauto

namespace Scoped

theorem nil : Scoped xs [] := fun _ _ _ => ⟨[], rfl⟩

theorem mono (h : Scoped xs body) (hsub : ∀ x ∈ xs, x ∈ ys) : Scoped ys body :=
  fun block outer hy => h block outer fun x hx => hy x (hsub x hx)

theorem append (h : Scoped xs body) (h' : Scoped xs rest) : Scoped xs (body ++ rest) := by
  intro block outer hx
  obtain ⟨more, hmore⟩ := h block outer hx
  obtain ⟨others, hothers⟩ := h' (more ++ block) outer fun x hm =>
    mem_flatten_of_more more (hx x hm)
  refine ⟨others ++ more, ?_⟩
  rw [blockDrafts_append, walk_append, hmore]
  show walk _ _ = _
  rw [hothers, append_assoc]

/-- A statement that leaves the blocks as they are. -/
theorem cons (hs : ∀ block outer, (∀ x ∈ xs, x ∈ List.flatten (block :: outer)) →
    walk (block :: outer) s.drafts = some (block :: outer)) (h : Scoped xs rest) :
    Scoped xs (s :: rest) := by
  intro block outer hx
  obtain ⟨more, hmore⟩ := h block outer hx
  refine ⟨more, ?_⟩
  rw [blockDrafts, walk_append, hs block outer hx]
  exact hmore

/-- A statement that binds a name, which the statements after it see. -/
theorem declare (hs : ∀ block outer, walk (block :: outer) s.drafts = some ((x :: block) :: outer))
    (h : Scoped (x :: xs) rest) : Scoped xs (s :: rest) := by
  intro block outer hx
  obtain ⟨more, hmore⟩ := h (x :: block) outer <| by
    intro y hy
    rcases mem_cons.1 hy with rfl | hy
    · simp
    · exact mem_flatten_of_more [x] (hx y hy)
  refine ⟨more ++ [x], ?_⟩
  rw [blockDrafts, walk_append, hs block outer]
  show walk _ _ = _
  rw [hmore, append_assoc]
  rfl

/-- A statement of plain lines that only uses names. -/
theorem use (used : List Local) (hturn : s.drafts.all (·.turn == .stays) = true)
    (hnames : boundIn s.drafts = [] ∧ usedIn s.drafts = used) (hused : ∀ x ∈ used, x ∈ xs)
    (h : Scoped xs rest) : Scoped xs (s :: rest) := by
  refine h.cons fun _ _ hx => walk_of_stays ?_ hnames.1 fun x hm => hx x (hused x (hnames.2 ▸ hm))
  simpa using hturn

theorem walk_block {opening} {after} {entered block} {start outer : Blocks} (h : Scoped xs body)
    (hx : ∀ x ∈ xs, x ∈ List.flatten (entered :: block :: outer))
    (hopen : opening.walk start = some (entered :: block :: outer))
    (hclose : ∀ inner, walk (inner :: block :: outer) after = some (block :: outer)) :
    walk start (opening :: blockDrafts body ++ after) = some (block :: outer) := by
  obtain ⟨more, hmore⟩ := h entered (block :: outer) hx
  rw [cons_append, walk_cons, hopen]
  show walk _ _ = _
  rw [walk_append, hmore]
  exact hclose (more ++ entered)

theorem effect (h : Scoped xs body) (h' : Scoped xs rest) : Scoped xs (.effect body :: rest) := by
  refine h'.cons fun block outer hx => ?_
  exact walk_block h hx rfl fun _ => rfl

theorem loop {list index} (hlist : list ∈ xs) (h : Scoped (index :: xs) body)
    (h' : Scoped xs rest) : Scoped xs (.loop list index body :: rest) := by
  refine h'.cons fun block outer hx => ?_
  have hseen : ∀ x ∈ index :: xs, x ∈ List.flatten ([index] :: block :: outer) := by
    intro x hm
    rcases mem_cons.1 hm with rfl | hm
    · exact mem_append_left _ (by simp)
    · exact mem_append_right _ (hx x hm)
  refine walk_block h hseen ?_ fun _ => rfl
  have hlist' := hseen list (.tail _ hlist)
  have hindex := hseen index (.head _)
  simp only [Draft.walk, Turn.enter?, Piece.walk, Blocks.declare?, foldlM_cons,
    Option.bind_some, Option.bind_eq_bind, if_pos hlist', if_pos hindex]
  rfl

theorem conditional {condition} (h : Scoped xs body) (ha : a.Scoped xs) (h' : Scoped xs rest) :
    Scoped xs (.conditional condition body a :: rest) := by
  refine h'.cons fun block outer hx => ?_
  exact walk_block h hx rfl fun inner => ha inner block outer hx

theorem clearNodes {nodes node} (hnodes : nodes ∈ xs) (h : Scoped xs rest) :
    Scoped xs (.clearNodes nodes node :: rest) := by
  refine h.cons fun block outer hx => ?_
  have hfound := hx nodes hnodes
  have hinner : nodes ∈ List.flatten ([node] :: block :: outer) := mem_append_right _ hfound
  have hnode : node ∈ List.flatten ([node] :: block :: outer) := mem_append_left _ (by simp)
  rw [drafts]
  simp only [walk, Draft.walk, Turn.enter?, Turn.leave?, Piece.walk, Blocks.declare?,
    foldlM_cons, foldlM_nil, Option.bind_some, Option.bind_eq_bind, if_pos hinner,
    if_pos hnode, Option.pure_def, Blocks.close?, if_pos hfound]

end Scoped

theorem scoped_done : Alternatives.Scoped xs .done := fun _ _ _ _ => rfl

theorem scoped_otherwise (h : Scoped xs body) :
    Alternatives.Scoped xs (.otherwise body) := by
  intro inner block outer hx
  exact h.walk_block hx rfl fun _ => rfl

theorem scoped_elseIf {condition} (h : Scoped xs body) (ha : a.Scoped xs) :
    Alternatives.Scoped xs (.elseIf condition body a) := by
  intro inner block outer hx
  exact h.walk_block hx rfl fun inner' => ha inner' block outer hx

/-! ### Numbers -/

/-- Local names with the numbers after `k` up to `k'`, in order. -/
def Counted (k k' : Nat) (locals : List Local) : Prop :=
  k ≤ k' ∧ locals.map Local.number = List.range' (k + 1) (k' - k)

theorem counted_nil (k : Nat) : Counted k k [] := ⟨Nat.le_refl k, by simp⟩

variable {k : Nat}

theorem Counted.append (h : Counted k k' l) (h' : Counted k' k'' l') : Counted k k'' (l ++ l') := by
  obtain ⟨hle, hl⟩ := h
  obtain ⟨hle', hl'⟩ := h'
  refine ⟨Nat.le_trans hle hle', ?_⟩
  rw [map_append, hl, hl', show k' + 1 = k + 1 + (k' - k) by omega, range'_append_1]
  congr 1
  omega

theorem Counted.cons (h : Counted (k + 1) k' l) (kind : LocalKind) :
    Counted k k' (⟨kind, k + 1⟩ :: l) := by
  have hfirst : Counted k (k + 1) [⟨kind, k + 1⟩] := ⟨by omega, by simp⟩
  exact hfirst.append h

/-! ### The statements of a part -/

/-- Statements that build something into `x`, with the next number after them.  They need no
other name, and bind the names from `k` on. -/
structure Tidy (x : Local) (k : Nat) (built : List Statement × Nat) : Prop where
  names : Scoped [x] built.1
  counted : Counted k built.2 (localsIn built.1)

/-- The statements that build a part are so, whatever it is built into. -/
abbrev TidyItem (item : Item) : Prop := ∀ (x : Local) (k : Nat), Tidy x k (buildItem x item k)

structure TidyBranches (x : Local) (k : Nat) (built : Alternatives × Nat) : Prop where
  names : built.1.Scoped [x]
  counted : Counted k built.2 built.1.locals

theorem buildItem_component (x : Local) {head} (children : List Item) (k : Nat)
    (h : head.isComponent = true) :
    buildItem x (.element head children) k =
      (.createComponent ⟨.component, k + 1⟩ head :: .append x ⟨.component, k + 1⟩ ::
        (build ⟨.component, k + 1⟩ children (k + 1)).1,
        (build ⟨.component, k + 1⟩ children (k + 1)).2) := by
  rw [buildItem, h]
  rfl

theorem scoped_buildData (segments : List Segment) (hx : x ∈ xs) :
    Scoped xs [buildData x segments] := by
  rw [buildData]
  split <;> exact .use [x] rfl ⟨rfl, rfl⟩ (by simp [hx]) .nil

theorem tidy_text (segments : List Segment) : TidyItem (.text segments) := by
  intro x k
  rw [buildItem_text]
  constructor
  · exact .declare (fun _ _ => rfl) <| .use [x, ⟨.text, k + 1⟩] rfl ⟨rfl, rfl⟩ (by simp) <|
      scoped_buildData segments (by simp)
  · have hlocals : (buildData ⟨.text, k + 1⟩ segments).locals = [] := by
      rw [buildData]
      split <;> rfl
    simp only [localsIn, hlocals]
    exact (counted_nil _).cons .text

/-! ### Elements -/

theorem scoped_map {α : Type} {f} (h : ∀ a, Scoped xs [f a]) (l : List α) :
    Scoped xs (l.map f) := by
  induction l with
  | nil => exact .nil
  | cons a rest ih => exact (h a).append ih

theorem scoped_bindings (x : Local) (bindings : List Binding) (k : Nat) :
    Scoped [x] (bindingStatements x bindings k) := by
  induction bindings generalizing k with
  | nil => exact .nil
  | cons b rest ih =>
    refine .effect (.declare (fun _ _ => rfl) ?_) (ih (k + 1))
    exact .use [⟨.value, k + 1⟩, ⟨.value, k + 1⟩, x, x, ⟨.value, k + 1⟩] rfl ⟨rfl, rfl⟩
      (by simp) .nil

theorem counted_bindings (x : Local) (bindings : List Binding) (k : Nat) :
    Counted k (k + bindings.length) (localsIn (bindingStatements x bindings k)) := by
  induction bindings generalizing k with
  | nil => exact counted_nil k
  | cons b rest ih =>
    have hrest := ih (k + 1)
    rw [show k + 1 + rest.length = k + (b :: rest).length by simp; omega] at hrest
    exact hrest.cons .value

theorem scoped_head (x : Local) (head : Head) (k : Nat) :
    Scoped [x] (headStatements x head k) := by
  refine .append (.append (scoped_map (fun a => ?_) _) (scoped_bindings x head.bindings k))
    (scoped_map (fun b => ?_) _)
  · exact .use [x] rfl ⟨rfl, rfl⟩ (by simp) .nil
  · exact .use [x] rfl ⟨rfl, rfl⟩ (by simp) .nil

theorem localsIn_map {α : Type} {f} (h : ∀ a, (f a).locals = []) (l : List α) :
    localsIn (l.map f) = [] := by
  induction l with
  | nil => rfl
  | cons a rest ih => rw [map_cons, localsIn, h, ih, append_nil]

theorem counted_head (x : Local) (head : Head) (k : Nat) :
    Counted k (k + head.bindings.length) (localsIn (headStatements x head k)) := by
  rw [headStatements, localsIn_append, localsIn_append, localsIn_map fun _ => rfl,
    localsIn_map fun _ => rfl, append_nil]
  exact counted_bindings x head.bindings k

theorem tidy_build_of {items} (h : ∀ item ∈ items, TidyItem item) (x : Local) (k : Nat) :
    Tidy x k (build x items k) := by
  induction items generalizing k with
  | nil => exact ⟨.nil, counted_nil k⟩
  | cons item rest ih =>
    have hfirst := h item (by simp) x k
    have hrest := ih (fun i hi => h i (.tail _ hi)) (buildItem x item k).2
    rw [build_cons]
    refine ⟨hfirst.names.append hrest.names, ?_⟩
    rw [localsIn_append]
    exact hfirst.counted.append hrest.counted

theorem tidy_element {head} {children} (h : ∀ item ∈ children, TidyItem item) :
    TidyItem (.element head children) := by
  intro x k
  cases hc : head.isComponent with
  | true =>
    have hinner := tidy_build_of h ⟨.component, k + 1⟩ (k + 1)
    rw [buildItem_component x children k hc]
    refine ⟨.declare (fun _ _ => rfl) ?_, hinner.counted.cons .component⟩
    exact .use [x, ⟨.component, k + 1⟩] rfl ⟨rfl, rfl⟩ (by simp) (hinner.names.mono (by simp))
  | false =>
    have hinner := tidy_build_of h ⟨.element, k + 1⟩ (k + 1 + head.bindings.length)
    have hhead := scoped_head ⟨.element, k + 1⟩ head (k + 1)
    rw [buildItem_element x children k hc]
    refine ⟨.declare (fun _ _ => rfl) ?_, ?_⟩
    · exact .use [x, ⟨.element, k + 1⟩] rfl ⟨rfl, rfl⟩ (by simp) <|
        .append (hhead.mono (by simp)) (hinner.names.mono (by simp))
    · have hlocals := (counted_head ⟨.element, k + 1⟩ head (k + 1)).append hinner.counted
      rw [← localsIn_append] at hlocals
      exact hlocals.cons .element

/-! ### Chains and repetitions -/

theorem scoped_control {label} (h : Scoped [nodesAt k, anchorAt k] body) :
    Scoped [x] [.createComment (anchorAt k) label, .append x (anchorAt k),
      .declareNodes (nodesAt k), .effect body] := by
  exact .declare (fun _ _ => rfl) <| .use [x, anchorAt k] rfl ⟨rfl, rfl⟩ (by simp) <|
    .declare (fun _ _ => rfl) <| .effect (h.mono (by simp)) .nil

theorem tidy_branches_of : ∀ {bs : Branches}, (∀ b ∈ bs.bodies, TidyItem b) →
    ∀ (x : Local) (k : Nat), TidyBranches x k (buildBranches x bs k)
  | .done, _, x, k => by
    exact ⟨scoped_done, counted_nil k⟩
  | .otherwise body, h, x, k => by
    have hbody := h body (by simp [Branches.bodies]) x k
    exact ⟨scoped_otherwise hbody.names, hbody.counted⟩
  | .elseIf condition body rest, h, x, k => by
    have hbody := h body (by simp [Branches.bodies]) x k
    have hrest := tidy_branches_of (fun b (hb) => h b (.tail _ hb))
      x (buildItem x body k).2
    exact ⟨scoped_elseIf hbody.names hrest.names, hbody.counted.append hrest.counted⟩

theorem tidy_chain {condition} {body} {rest}
    (h : ∀ b ∈ (Branches.elseIf condition body rest).bodies, TidyItem b) :
    TidyItem (.chain condition body rest) := by
  intro x k
  let fragment : Local := ⟨.fragment, k + 4⟩
  have hbody := h body (by simp [Branches.bodies]) fragment (k + 4)
  have hrest := tidy_branches_of (fun b (hb) => h b (.tail _ hb))
    fragment (buildItem fragment body (k + 4)).2
  rw [buildItem_chain, buildBranches_elseIf]
  refine ⟨scoped_control ?_, ?_⟩
  · refine .clearNodes (by simp) <| .declare (fun _ _ => rfl) <|
      .conditional (hbody.names.mono (by simp [fragment])) ?_ <|
      .use [nodesAt k, fragment] rfl ⟨rfl, rfl⟩ (by simp [fragment]) <|
      .use [anchorAt k, fragment, anchorAt k] rfl ⟨rfl, rfl⟩ (by simp [fragment]) .nil
    intro inner block outer hx
    exact hrest.names inner block outer fun z hz => hx z (by simp_all [fragment])
  · have hlocals := hbody.counted.append hrest.counted
    have hall := (((hlocals.cons .fragment).cons .node).cons .nodes).cons .anchor
    simpa [localsIn, locals, chainBody, anchorAt, nodesAt] using hall

theorem tidy_each {clause} {body} (h : TidyItem body) : TidyItem (.each clause body) := by
  intro x k
  let fragment : Local := ⟨.fragment, k + 6⟩
  have hbody := h fragment (k + 6)
  rw [buildItem_each]
  refine ⟨scoped_control ?_, ?_⟩
  · refine .clearNodes (by simp) <| .declare (fun _ _ => rfl) <| .loop (by simp) ?_ .nil
    rw [eachStep]
    simp only [append_assoc]
    refine .use [⟨.list, k + 4⟩, ⟨.index, k + 5⟩] rfl ⟨rfl, rfl⟩ (by simp) <|
      .append (scoped_map (fun name => ?_) _) <| .declare (fun _ _ => rfl) <|
      .append (hbody.names.mono (by simp [fragment])) <|
      .use [nodesAt k, fragment] rfl ⟨rfl, rfl⟩ (by simp [fragment]) <|
      .use [anchorAt k, fragment, anchorAt k] rfl ⟨rfl, rfl⟩ (by simp [fragment]) .nil
    exact .use [⟨.index, k + 5⟩] rfl ⟨rfl, rfl⟩ (by simp) .nil
  · have hall := (((((hbody.counted.cons .fragment).cons .index).cons .list).cons .node).cons
      .nodes).cons .anchor
    have haliases := localsIn_map (f := fun name => .declareIndex name ⟨.index, k + 5⟩)
      (fun _ => rfl) clause.index.toList
    simpa [localsIn, localsIn_append, locals, eachBody, eachStep, haliases, anchorAt,
      nodesAt] using hall

theorem tidy_item (item : Item) : TidyItem item := by
  induction item using Item.induction with
  | text segments => exact tidy_text segments
  | element head children ih => exact tidy_element ih
  | each clause body ih => exact tidy_each ih
  | chain condition body rest ih => exact tidy_chain ih

theorem tidy_build (items : List Item) (x : Local) (k : Nat) : Tidy x k (build x items k) :=
  tidy_build_of (fun item _ => tidy_item item) x k

theorem depthAfter_build (x : Local) (items : List Item) (k depth : Nat) :
    depthAfter (depth + 1) (blockDrafts (build x items k).1) = depth + 1 := by
  obtain ⟨more, hmore⟩ := (tidy_build items x k).names [x] (List.replicate depth []) (by simp)
  simpa using depthAfter_of_walk hmore

end ReactiveMarkup.Output
