/-
How attributes are sorted.

Each attribute of a tag goes to one place, and what is wrong with it can be said of the attribute
alone.  So a tree of markup either has a first attribute with a flaw, in the order of the text,
whose fault is told, or it becomes a template of the same shape.

* `lower_sorts`: markup with a flaw fails at the first one, and other markup keeps its shape.
-/
import ReactiveMarkup.Proofs.Markup.Reading
import ReactiveMarkup.Proofs.Template.Clauses
import ReactiveMarkup.Template.Lowering

namespace ReactiveMarkup.Template

open List

open Text (trimmed isBlankText trim_eq_nil_iff)
open Markup (Attribute Tag tagsOf tagsIn)

/-! ### Attributes -/

def marked (mark : Char) (a : Attribute) : Bool := a.name.toList.head? == some mark

def isDirective (a : Attribute) : Bool :=
  ["tn-if", "tn-for", "tn-else-if", "tn-else"].contains a.name

def isPlain (a : Attribute) : Bool := !isDirective a && !marked ':' a && !marked '@' a

def asksValue (a : Attribute) : Bool :=
  ["tn-if", "tn-for", "tn-else-if"].contains a.name || marked ':' a || marked '@' a

def expressionOf (a : Attribute) : String := trimmed (a.value.getD "")

def unmarked (a : Attribute) : Binding := ⟨String.ofList a.name.toList.tail, expressionOf a⟩

/-- The expression that was given last under a name. -/
def last? (name : String) (as : List Attribute) : Option String :=
  (as.filter fun a => a.name == name).getLast?.map expressionOf

/-- What is wrong with an attribute of a tag in a file. -/
inductive Flaw (file : String) (tag : Tag) (a : Attribute) : Fault → Prop
  | missing (h : asksValue a = true) (hv : ∀ v ∈ a.value, isBlankText v = true) :
      Flaw file tag a ⟨.missingValue a.name tag.name, file, tag.position, none⟩
  | clause {v : String} (h : a.name = "tn-for") (hv : a.value = some v) (hb : isBlankText v = false)
      (hc : ∀ clause, ¬ ForClause.Written clause (trimmed v).toList) :
      Flaw file tag a ⟨.invalidFor tag.name (trimmed v), file, tag.position, some (trimmed v)⟩

/-- The head that attributes of a tag make, with a repetition. -/
def Head.sorted (tag : Tag) (each : Option ForClause) (as : List Attribute) : Head where
  tag := tag.name
  isComponent := Markup.isComponent tag.name
  attributes := as.filter isPlain
  bindings := (as.filter (marked ':')).map unmarked
  events := (as.filter (marked '@')).map unmarked
  directives :=
    { condition := last? "tn-if" as
      elseIf := last? "tn-else-if" as
      otherwise := as.any fun a => a.name == "tn-else"
      each }
  position := tag.position

/-- The repetition is the one that was given last. -/
def Repeats (each : Option ForClause) (as : List Attribute) : Prop :=
  Option.Rel (fun clause v => clause.Written v.toList) each (last? "tn-for" as)

/-- The role of an attribute, by its name. -/
inductive Plays (a : Attribute) : Role → Prop
  | condition (h : a.name = "tn-if") : Plays a .condition
  | each (h : a.name = "tn-for") : Plays a .each
  | binding {rest : List Char} (h : a.name.toList = ':' :: rest) :
      Plays a (.binding (String.ofList rest))
  | event {rest : List Char} (h : a.name.toList = '@' :: rest) :
      Plays a (.event (String.ofList rest))
  | elseIf (h : a.name = "tn-else-if") : Plays a .elseIf
  | otherwise (h : a.name = "tn-else") : Plays a .otherwise
  | plain (h : isPlain a = true) : Plays a .plain

theorem plays (a : Attribute) : Plays a (Role.ofName a.name) := by
  rw [Role.ofName]
  split
  · exact .condition (by simp_all)
  split
  · exact .each (by simp_all)
  split
  · exact .binding (by assumption)
  · exact .event (by assumption)
  split
  · exact .elseIf (by simp_all)
  split
  · exact .otherwise (by simp_all)
  · refine .plain ?_
    have hhead mark (h : ∀ rest, a.name.toList = mark :: rest → False) :
        marked mark a = false := by
      rw [marked, beq_eq_false_iff_ne, Ne, head?_eq_some_iff]
      exact fun ⟨rest, hrest⟩ => h rest hrest
    simp_all [isPlain, isDirective]

variable {file : String} {tag : Tag} {a : Attribute} {as : List Attribute} {each : Option ForClause}

/-- An attribute has a flaw, which is told, or goes to its place. -/
def Settles (file : String) (tag : Tag) (as : List Attribute) (a : Attribute)
    (r : Except Fault Head) : Prop :=
  (∃ fault, r = .error fault ∧ Flaw file tag a fault) ∨ (∀ fault, ¬ Flaw file tag a fault) ∧
    ∃ each, r = .ok (.sorted tag each (as ++ [a])) ∧ Repeats each (as ++ [a])

theorem value_cases (file : String) (tag : Tag) (a : Attribute) :
    ((∀ v ∈ a.value, isBlankText v = true) ∧
      requireValue a.name a.value file tag.name tag.position =
        .error ⟨.missingValue a.name tag.name, file, tag.position, none⟩) ∨
    ∃ v, a.value = some v ∧ isBlankText v = false ∧
      requireValue a.name a.value file tag.name tag.position = .ok (expressionOf a) := by
  rw [requireValue.eq_def, expressionOf]
  cases a.value with
  | none => exact .inl ⟨nofun, rfl⟩
  | some v => cases hb : isBlankText v <;> simp [hb]

theorem last?_append (name : String) (as : List Attribute) (a : Attribute) :
    last? name (as ++ [a]) = if a.name = name then some (expressionOf a) else last? name as := by
  by_cases h : a.name = name <;> simp [last?, h]

theorem Repeats.append (h : Repeats each as) (ha : a.name ≠ "tn-for") :
    Repeats each (as ++ [a]) := by
  rwa [Repeats, last?_append, if_neg ha]

theorem settles_valued (h : Repeats each as) (ha : asksValue a = true) (hfor : a.name ≠ "tn-for")
    {f : String → Head} (hf : f (expressionOf a) = .sorted tag each (as ++ [a])) :
    Settles file tag as a
      (requireValue a.name a.value file tag.name tag.position >>= fun e => pure (f e)) := by
  obtain ⟨hv, he⟩ | ⟨v, hv, hb, he⟩ := value_cases file tag a
  · exact .inl ⟨_, by rw [he]; rfl, .missing ha hv⟩
  · refine .inr ⟨?_, each, by rw [he, ← hf]; rfl, h.append hfor⟩
    rintro _ (⟨-, hv'⟩ | ⟨h', -⟩)
    · simp [hv' v hv] at hb
    · exact hfor h'

theorem clause_cases (file : String) (tag : Tag) (he : Text.Bare e.toList) :
    (requireClause e file tag.name tag.position =
      .error ⟨.invalidFor tag.name e, file, tag.position, some e⟩ ∧
        ∀ clause, ¬ ForClause.Written clause e.toList) ∨
    ∃ clause, requireClause e file tag.name tag.position = .ok clause ∧
      ForClause.Written clause e.toList := by
  simp only [← ForClause.parse?_eq_some_iff he, requireClause]
  cases ForClause.parse? e <;> simp

theorem bare_expressionOf (a : Attribute) : Text.Bare (expressionOf a).toList := by
  rw [expressionOf, trimmed, String.toList_ofList]
  exact Text.bare_trim _

theorem settles_each (h : a.name = "tn-for") {f : ForClause → Head}
    (hf : ∀ clause, f clause = .sorted tag (some clause) (as ++ [a])) :
    Settles file tag as a (do
      let e ← requireValue a.name a.value file tag.name tag.position
      let clause ← requireClause e file tag.name tag.position
      return f clause) := by
  obtain ⟨hv, he⟩ | ⟨v, hv, hb, he⟩ := value_cases file tag a
  · exact .inl ⟨_, by rw [he]; rfl, .missing (by simp [asksValue, h]) hv⟩
  have hexpr : trimmed v = expressionOf a := by rw [expressionOf, hv]; rfl
  obtain ⟨hc, hn⟩ | ⟨clause, hc, hw⟩ := clause_cases file tag (bare_expressionOf a)
  · rw [← hexpr] at hc hn he
    exact .inl ⟨_, by simp only [he, hc, bind, Except.bind], .clause h hv hb hn⟩
  · refine .inr ⟨?_, some clause, by simp [he, hc, hf, bind, Except.bind, pure, Except.pure], ?_⟩
    · rintro _ (⟨-, hv'⟩ | ⟨-, hv', -, hn⟩)
      · simp [hv' v hv] at hb
      · rw [Option.some.inj (hv'.symm.trans hv), hexpr] at hn
        exact hn clause hw
    · rw [Repeats, last?_append, if_pos h]
      exact .some hw

theorem names_of_not_isDirective (h : isDirective a = false) :
    a.name ≠ "tn-if" ∧ a.name ≠ "tn-for" ∧ a.name ≠ "tn-else-if" ∧ a.name ≠ "tn-else" := by
  simpa [isDirective] using h

theorem not_isDirective_of_toList {mark} {rest}
    (h : a.name.toList = mark :: rest) (hm : mark ≠ 't') : isDirective a = false := by
  have hnames : ∀ s ∈ ["tn-if", "tn-for", "tn-else-if", "tn-else"], s.toList.head? = some 't' := by
    decide
  rw [isDirective, contains_eq_mem, decide_eq_false_iff_not]
  intro hmem
  simpa [h, hm] using hnames _ hmem

theorem Head.add_sorted (h : Repeats each as) :
    Settles file tag as a ((Head.sorted tag each as).add file a) := by
  have hp := plays a
  rw [Head.add.eq_def]
  generalize Role.ofName a.name = role at hp ⊢
  cases hp with
  | condition hn | elseIf hn =>
    refine settles_valued h (by simp [asksValue, hn]) (by simp [hn]) ?_
    simp [Head.sorted, last?_append, isPlain, isDirective, marked, hn]
  | each hn =>
    refine settles_each hn fun clause => ?_
    simp [Head.sorted, last?_append, isPlain, isDirective, marked, hn]
  | binding hn | event hn =>
    have hd := not_isDirective_of_toList hn (by decide)
    have hne := names_of_not_isDirective hd
    refine settles_valued h (by simp [asksValue, marked, hn]) hne.2.1 ?_
    simp [Head.sorted, last?_append, isPlain, marked, unmarked, hn, hne]
  | otherwise hn =>
    refine .inr ⟨?_, each, ?_, h.append (by simp [hn])⟩
    · rintro _ (⟨h', -⟩ | ⟨h', -⟩) <;> simp [asksValue, marked, hn] at h'
    · simp [Head.sorted, last?_append, isPlain, isDirective, marked, hn]
      rfl
  | plain hn =>
    have hplain := hn
    simp only [isPlain, Bool.and_eq_true, Bool.not_eq_true'] at hplain
    obtain ⟨⟨hd, hcolon⟩, hat⟩ := hplain
    have hne := names_of_not_isDirective hd
    refine .inr ⟨?_, each, ?_, h.append hne.2.1⟩
    · rintro _ (⟨h', -⟩ | ⟨h', -⟩) <;> simp [asksValue, hcolon, hat, hne] at h'
    · simp [Head.sorted, last?_append, hn, hcolon, hat, hne, beq_eq_false_iff_ne.2 hne.2.2.2]
      rfl

theorem perm_kinds (as : List Attribute) :
    (as.filter isPlain ++ (as.filter (marked ':') ++ (as.filter (marked '@') ++
      as.filter isDirective))).Perm as := by
  refine perm_iff_count.2 fun a => ?_
  have hcount (p : Attribute → Bool) : (as.filter p).count a = if p a then as.count a else 0 := by
    split_ifs with hp
    · exact count_filter hp
    · exact count_eq_zero.2 (by simp [hp])
  have hmark (mark : Char) (hm : mark ≠ 't') (h : marked mark a = true) :
      isDirective a = false := by
    obtain ⟨rest, hrest⟩ := head?_eq_some_iff.1 (eq_of_beq h)
    exact not_isDirective_of_toList hrest hm
  have hne : marked ':' a = true → marked '@' a = false := fun h => by simp [marked, eq_of_beq h]
  simp only [count_append, hcount, isPlain]
  by_cases hd : isDirective a = true <;> by_cases hc : marked ':' a = true <;>
    by_cases ha : marked '@' a = true <;> simp_all

/-! ### Trees -/

abbrev Spot := Tag × Attribute

def spotsAt (tags : List Tag) : List Spot := tags.flatMap fun tag => tag.attributes.map (tag, ·)

def Flawless (file : String) (l : List Spot) : Prop :=
  ∀ x ∈ l, ∀ fault, ¬ Flaw file x.1 x.2 fault

/-- The first flaw of some attributes in a file. -/
inductive FirstFlaw (file : String) : List Spot → Fault → Prop
  | here {x : Spot} {l : List Spot} {fault : Fault} (h : Flaw file x.1 x.2 fault) :
      FirstFlaw file (x :: l) fault
  | later {x : Spot} {l : List Spot} {fault : Fault} (hx : ∀ fault, ¬ Flaw file x.1 x.2 fault)
      (h : FirstFlaw file l fault) : FirstFlaw file (x :: l) fault

variable {l l' : List Spot} {fault fault' : Fault}

theorem Flaw.unique (h : Flaw file tag a fault) (h' : Flaw file tag a fault') : fault = fault' := by
  cases h with
  | missing ha hv =>
    cases h' with
    | missing => rfl
    | clause hn hv' hb => simp [hv _ hv'] at hb
  | clause hn hv hb =>
    cases h' with
    | missing ha' hv' => simp [hv' _ hv] at hb
    | clause hn' hv' =>
      cases hv.symm.trans hv'
      rfl

theorem FirstFlaw.unique (h : FirstFlaw file l fault) (h' : FirstFlaw file l fault') :
    fault = fault' := by
  induction h with
  | here h =>
    cases h' with
    | here h' => exact h.unique h'
    | later hx => exact absurd h (hx _)
  | later hx _ ih =>
    cases h' with
    | here h' => exact absurd h' (hx _)
    | later _ h' => exact ih h'

theorem FirstFlaw.exists_mem (h : FirstFlaw file l fault) : ∃ x ∈ l, Flaw file x.1 x.2 fault := by
  induction h with
  | here h => exact ⟨_, .head _, h⟩
  | later _ _ ih =>
    obtain ⟨x, hx, h⟩ := ih
    exact ⟨x, .tail _ hx, h⟩

theorem FirstFlaw.append (h : FirstFlaw file l fault) : FirstFlaw file (l ++ l') fault := by
  induction h with
  | here h => exact .here h
  | later hx _ ih => exact .later hx ih

theorem Flawless.firstFlaw (hl : Flawless file l) (h : FirstFlaw file l' fault) :
    FirstFlaw file (l ++ l') fault := by
  induction l with
  | nil => exact h
  | cons x l ih =>
    obtain ⟨hx, hl⟩ := forall_mem_cons.1 hl
    exact .later hx (ih hl)

/-- A computation fails at the first flaw of some attributes, or has a result. -/
def Sorts {α : Type} (file : String) (l : List Spot) (r : Except Fault α) (P : α → Prop) : Prop :=
  (∃ fault, r = .error fault ∧ FirstFlaw file l fault) ∨ Flawless file l ∧ ∃ x, r = .ok x ∧ P x

theorem Sorts.bind {r} {f : α → Except Fault β} {P} {Q} (h : Sorts file l r P)
    (hf : ∀ x, P x → Sorts file l' (f x) Q) : Sorts file (l ++ l') (r >>= f) Q := by
  obtain ⟨fault, rfl, hfirst⟩ | ⟨hl, x, rfl, hx⟩ := h
  · exact .inl ⟨fault, rfl, hfirst.append⟩
  · obtain ⟨fault, he, hfirst⟩ | ⟨hl', y, he, hy⟩ := hf x hx
    · exact .inl ⟨fault, he, hl.firstFlaw hfirst⟩
    · exact .inr ⟨forall_mem_append.2 ⟨hl, hl'⟩, y, he, hy⟩

theorem Sorts.pure {x : α} {P} (hx : P x) : Sorts file [] (.ok x) P :=
  .inr ⟨nofun, x, rfl, hx⟩

def Holds (tag : Tag) (as : List Attribute) (head : Head) : Prop :=
  ∃ each, head = .sorted tag each as ∧ Repeats each as

theorem sorts_foldlM (more : List Attribute) {head} (h : Holds tag as head) :
    Sorts file (more.map (tag, ·)) (more.foldlM (Head.add file) head) (Holds tag (as ++ more)) := by
  induction more generalizing as head with
  | nil => exact .pure (by simpa using h)
  | cons a more ih =>
    obtain ⟨each, rfl, heach⟩ := h
    have hadd :
        Sorts file [(tag, a)] ((Head.sorted tag each as).add file a) (Holds tag (as ++ [a])) := by
      obtain ⟨fault, he, hflaw⟩ | ⟨hnone, each', he, heach'⟩ := Head.add_sorted heach
      · exact .inl ⟨fault, he, .here hflaw⟩
      · exact .inr ⟨by simpa [Flawless] using hnone, _, he, each', rfl, heach'⟩
    rw [append_cons]
    exact hadd.bind fun head hhead => ih hhead

theorem sorts_ofTag (file : String) (tag : Tag) :
    Sorts file (tag.attributes.map (tag, ·)) (Head.ofTag file tag) (Holds tag tag.attributes) :=
  sorts_foldlM tag.attributes (show Holds tag [] _ from ⟨none, rfl, .none⟩)

/-- Markup, and the part of a template that keeps its shape. -/
inductive Lowered : Markup.Node → Node → Prop
  | text (content : String) : Lowered (.text content) (.text (Markup.segments content))
  | element {tag : Tag} {head : Head} {children : List Markup.Node} {nodes : List Node}
      (hh : Holds tag tag.attributes head) (hc : List.Forall₂ Lowered children nodes) :
      Lowered (.element tag children) (.element head nodes)

mutual

theorem sorts_ofMarkup (file : String) : ∀ node : Markup.Node,
    Sorts file (spotsAt (tagsOf node)) (Node.ofMarkup file node) (Lowered node)
  | .text content => .pure (.text content)
  | .element tag children => by
    rw [Node.ofMarkup, tagsOf, spotsAt, flatMap_cons, ← spotsAt]
    refine (sorts_ofTag file tag).bind fun head hhead => ?_
    rw [← append_nil (spotsAt _)]
    exact (sorts_lower file children).bind fun nodes hnodes => .pure (.element hhead hnodes)

theorem sorts_lower (file : String) : ∀ markup : List Markup.Node,
    Sorts file (spotsAt (tagsIn markup)) (lower file markup) (List.Forall₂ Lowered markup)
  | [] => .pure .nil
  | node :: rest => by
    rw [lower, tagsIn, spotsAt, flatMap_append, ← spotsAt, ← spotsAt]
    refine (sorts_ofMarkup file node).bind fun node' hnode => ?_
    rw [← append_nil (spotsAt _)]
    exact (sorts_lower file rest).bind fun rest' hrest => .pure (.cons hnode hrest)

end

/-- **Markup is lowered or fails at its first flaw.**  Attributes are looked at in the order in
which they are written, and the first one that has a flaw is the one reported.  Without flaws, each
attribute is one of four kinds, and each kind keeps its order. -/
theorem lower_sorts (file : String) (markup : List Markup.Node) :
    (∀ fault, lower file markup = .error fault ↔ FirstFlaw file (spotsAt (tagsIn markup)) fault) ∧
    ((∃ fault, lower file markup = .error fault) ↔
      ∃ x ∈ spotsAt (tagsIn markup), ∃ fault, Flaw file x.1 x.2 fault) ∧
    ((∃ fault, lower file markup = .error fault) ∨
      ∃ nodes, lower file markup = .ok nodes ∧ List.Forall₂ Lowered markup nodes) ∧
    ∀ as : List Attribute, (as.filter isPlain ++ (as.filter (marked ':') ++
      (as.filter (marked '@') ++ as.filter isDirective))).Perm as := by
  obtain ⟨fault, he, hfirst⟩ | ⟨hl, nodes, he, hnodes⟩ := sorts_lower file markup
  · refine ⟨fun fault' => ⟨fun h => ?_, fun h => ?_⟩, ⟨fun _ => ?_, fun _ => ⟨fault, he⟩⟩,
      .inl ⟨fault, he⟩, perm_kinds⟩
    · rw [he] at h
      exact Except.error.inj h ▸ hfirst
    · rw [he, hfirst.unique h]
    · obtain ⟨x, hx, hflaw⟩ := hfirst.exists_mem
      exact ⟨x, hx, fault, hflaw⟩
  · have hok (fault : Fault) : lower file markup ≠ .error fault := by simp [he]
    refine ⟨fun fault => ⟨fun h => absurd h (hok _), fun h => ?_⟩, ⟨?_, ?_⟩,
      .inr ⟨nodes, he, hnodes⟩, perm_kinds⟩
    · obtain ⟨x, hx, hflaw⟩ := h.exists_mem
      exact absurd hflaw (hl x hx _)
    · rintro ⟨fault, h⟩
      exact absurd h (hok _)
    · rintro ⟨x, hx, fault, hflaw⟩
      exact absurd hflaw (hl x hx _)

end ReactiveMarkup.Template
