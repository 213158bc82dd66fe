/-
Stages and the name of the file.

Each stage is given the name that its user has for the file, and puts it into the
fault that it reports.  Nothing else depends on it: a run of a stage under another
name gives the same result, or the same fault with the other name.

* `Alike`: what two runs under different names give;
* `alike_compileSource`: this for all stages, one after the other.
-/
import ReactiveMarkup.Compile

namespace ReactiveMarkup

/-- What a stage gives for a file called `i` and for the same file called `j`: one result, or one
fault, in which each has its own name. -/
def Alike {α : Type} (i j : String) (x y : Except Fault α) : Prop :=
  (∃ a, x = .ok a ∧ y = .ok a) ∨
    ∃ fault : Fault, x = .error { fault with file := i } ∧ y = .error { fault with file := j }

namespace Alike

variable {α β : Type} {i j : String} {x y : Except Fault α}

theorem ok (a : α) : Alike i j (.ok a) (.ok a) := .inl ⟨a, rfl, rfl⟩

theorem error (fault : Fault) :
    Alike i j (.error { fault with file := i } : Except Fault α)
      (.error { fault with file := j }) :=
  .inr ⟨fault, rfl, rfl⟩

/-- A stage whose next one is given nothing but its result. -/
theorem bind {f g : α → Except Fault β} (h : Alike i j x y) (hf : ∀ a, Alike i j (f a) (g a)) :
    Alike i j (x >>= f) (y >>= g) := by
  obtain ⟨a, rfl, rfl⟩ | ⟨fault, rfl, rfl⟩ := h
  · exact hf a
  · exact .error fault

theorem map (h : Alike i j x y) (f : α → β) :
    Alike i j (x >>= fun a => pure (f a)) (y >>= fun a => pure (f a)) :=
  h.bind fun a => .ok (f a)

theorem foldlM {f g : β → α → Except Fault β} (h : ∀ b a, Alike i j (f b a) (g b a)) (l : List α)
    (b : β) : Alike i j (l.foldlM f b) (l.foldlM g b) := by
  induction l generalizing b with
  | nil => exact .ok b
  | cons a l ih => exact (h b a).bind ih

theorem eq_ok {a : α} (h : Alike i j x y) (hx : x = .ok a) : y = .ok a := by
  obtain ⟨b, rfl, rfl⟩ | ⟨fault, rfl, -⟩ := h
  · exact hx
  · cases hx

end Alike

variable (i j : String)

/-! ### Sections -/

namespace Component

theorem alike_templateSpan (s : List Char) (excluded : List Span) :
    Alike i j (templateSpan i s excluded) (templateSpan j s excluded) := by
  rw [templateSpan, templateSpan]
  dsimp only
  split
  · split
    · exact .ok _
    · exact .error (templateFault i .templateUnclosed)
  · exact .error (templateFault i .templateMissing)

theorem alike_ofText (text : String) :
    Alike i j (Sections.ofText i text) (Sections.ofText j text) := by
  refine (alike_templateSpan i j _ _).bind fun span => ?_
  dsimp only
  split
  · exact .error (templateFault i .templateEmpty)
  · exact .ok _

end Component

/-! ### Markup -/

namespace Markup

/-- The tokens are the same, and so is what stopped the scan. -/
theorem alike_scanFrom (position : Text.Position) (skip : Nat) (s : List Char) :
    (scanFrom i position skip s).1 = (scanFrom j position skip s).1 ∧
      ∃ fault : Option Fault,
        (scanFrom i position skip s).2 = fault.map ({ · with file := i }) ∧
        (scanFrom j position skip s).2 = fault.map ({ · with file := j }) := by
  induction s generalizing position skip with
  | nil => exact ⟨rfl, none, rfl, rfl⟩
  | cons c cs ih =>
    cases skip with
    | succ skip => exact ih (position.next c) skip
    | zero =>
      rw [scanFrom, scanFrom]
      cases Token.first (c :: cs) with
      | error problem => exact ⟨rfl, some ⟨problem, i, position, _⟩, rfl, rfl⟩
      | ok read =>
        obtain ⟨hlexemes, hfault⟩ := ih (position.next c) (cs.length - read.2.length)
        exact ⟨congrArg (_ :: ·) hlexemes, hfault⟩

theorem Node.alike_build (fault : Option Fault) (lexemes : List Lexeme) (level : List Node)
    (opens : List Open) :
    Alike i j (build i level opens (fault.map ({ · with file := i })) lexemes)
      (build j level opens (fault.map ({ · with file := j })) lexemes) := by
  induction lexemes generalizing level opens with
  | nil =>
    cases fault with
    | some fault => exact .error fault
    | none =>
      cases opens with
      | nil => exact .ok _
      | cons o opens => exact .error ⟨.unclosed o.tag.name, i, o.tag.position, none⟩
  | cons lexeme rest ih =>
    rw [build, build]
    split
    · exact ih level opens
    · split <;> exact ih _ _
    · dsimp only
      split <;> exact ih _ _
    · next name _ =>
      split
      · exact ih level opens
      cases opens with
      | nil => exact .error ⟨.strayClosing name, i, lexeme.position, some lexeme.context⟩
      | cons o opens =>
        dsimp only
        split
        · exact ih _ opens
        · exact .error ⟨.mismatchedClosing o.tag.name name, i, lexeme.position, some lexeme.context⟩

theorem alike_parse (origin : Text.Position) (text : String) :
    Alike i j (parse i origin text) (parse j origin text) := by
  obtain ⟨hlexemes, fault, hi, hj⟩ := alike_scanFrom i j origin 0 text.toList
  simp only [parse, scan, Node.ofLexemes, hlexemes, hi, hj]
  exact Node.alike_build i j fault _ [] []

end Markup

/-! ### Templates -/

namespace Template

theorem alike_requireValue (name : String) (value : Option String) (tag : String)
    (position : Text.Position) :
    Alike i j (requireValue name value i tag position)
      (requireValue name value j tag position) := by
  rw [requireValue.eq_def, requireValue.eq_def]
  cases value with
  | none => exact .error ⟨.missingValue name tag, i, position, none⟩
  | some text =>
    dsimp only
    split
    · exact .error ⟨.missingValue name tag, i, position, none⟩
    · exact .ok _

theorem alike_requireClause (value tag : String) (position : Text.Position) :
    Alike i j (requireClause value i tag position) (requireClause value j tag position) := by
  rw [requireClause, requireClause]
  cases ForClause.parse? value with
  | none => exact .error ⟨.invalidFor tag value, i, position, some value⟩
  | some clause => exact .ok clause

theorem Head.alike_add (head : Head) (a : Markup.Attribute) :
    Alike i j (head.add i a) (head.add j a) := by
  have hvalue := alike_requireValue i j a.name a.value head.tag head.position
  rw [Head.add.eq_def, Head.add.eq_def]
  cases Role.ofName a.name with
  | condition | binding | event | elseIf => exact hvalue.map _
  | each => exact hvalue.bind fun e => (alike_requireClause i j e _ _).map _
  | otherwise | plain => exact .ok _

mutual

theorem Node.alike_ofMarkup : ∀ node : Markup.Node,
    Alike i j (Node.ofMarkup i node) (Node.ofMarkup j node)
  | .text _ => .ok _
  | .element tag children => by
    rw [Node.ofMarkup, Node.ofMarkup]
    exact (Alike.foldlM (Head.alike_add i j) tag.attributes (Head.bare tag)).bind fun head =>
      (alike_lower children).map (Node.element head)

theorem alike_lower : ∀ markup : List Markup.Node, Alike i j (lower i markup) (lower j markup)
  | [] => .ok []
  | node :: rest => by
    rw [lower, lower]
    exact (Node.alike_ofMarkup node).bind fun node => (alike_lower rest).map (node :: ·)

end

theorem alike_planFrom (chain : Option OpenChain) (nodes : List Node) :
    Alike i j (planFrom i chain nodes) (planFrom j chain nodes) := by
  match nodes with
  | [] =>
    rw [planFrom, planFrom]
    exact .ok _
  | .text segments :: rest =>
    rw [planFrom.eq_def i, planFrom.eq_def j]
    dsimp only
    split
    · exact alike_planFrom _ rest
    · exact (alike_planFrom none rest).map _
  | .element head children :: rest =>
    have hinner := alike_planFrom none children
    rw [planFrom, planFrom]
    split
    · exact hinner.bind fun inner => (alike_planFrom _ rest).map _
    · exact hinner.bind fun inner => (alike_planFrom none rest).map _
    · next kind _ _ =>
      split
      · exact .error (orphan i kind head)
      · refine hinner.bind fun inner => ?_
        split
        · exact alike_planFrom _ rest
        · exact (alike_planFrom none rest).map _
termination_by sizeOf nodes
decreasing_by
  all_goals
    simp only [List.cons.sizeOf_spec, Node.element.sizeOf_spec]
    omega

end Template

/-! ### All stages -/

open Output (Options)

variable (source : String) (options : Options)

/-- The stages, for two users who call the file by different names. -/
theorem alike_compileSource (i j : Option String) :
    Alike (i.getD "<anonymous>") (j.getD "<anonymous>")
      (compileSource source { options with id := i })
      (compileSource source { options with id := j }) := by
  refine (Component.alike_ofText _ _ source).bind fun sections => ?_
  refine (Markup.alike_parse _ _ sections.origin sections.template).bind fun markup => ?_
  refine (Template.alike_lower _ _ markup).bind fun nodes => ?_
  exact (Template.alike_planFrom _ _ none nodes).map _

end ReactiveMarkup
