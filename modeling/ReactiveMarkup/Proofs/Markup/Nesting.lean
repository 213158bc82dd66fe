/-
Markup that nests.

A template is accepted if it is written with tokens whose opening and closing tags
find each other.  Comments and the closing tags of void elements play no part in
this, and neither do opening tags that need no partner.  The tree of an accepted
template, written down in order, is its sequence of tokens, so every token is in
the tree once and in its place.

* `parse_accepts_balanced`: which templates are accepted, and with which tree.
-/
import ReactiveMarkup.Proofs.Markup.Grammar

namespace ReactiveMarkup.Markup

open Text List

/-! ### Tags that find each other -/

/-- A tag that needs a partner. -/
inductive Bracket where
  | opening (tag : String)
  | closing (tag : String)
  deriving DecidableEq, Repr

def Token.brackets : Token → List Bracket
  | .comment => []
  | .text _ => []
  | .opening tag _ selfClosing => if selfClosing || isVoid tag then [] else [.opening tag]
  | .closing tag => if isVoid tag then [] else [.closing tag]

/-- Tags that nest, where partners have the same name. -/
inductive Balanced : List Bracket → Prop
  | nil : Balanced []
  | nest {tag : String} {inner rest : List Bracket} (hi : Balanced inner) (hr : Balanced rest) :
      Balanced (.opening tag :: inner ++ .closing tag :: rest)

/-- Tags that close what is open, the innermost first, and nest besides. -/
def Closes : List String → List Bracket → Prop
  | [], brackets => Balanced brackets
  | tag :: tags, brackets => ∃ inner rest,
      brackets = inner ++ .closing tag :: rest ∧ Balanced inner ∧ Closes tags rest

variable {tag : String} {brackets : List Bracket}

variable {tags : List String}

theorem closes_nil_iff : Closes tags [] ↔ tags = [] := by
  cases tags with
  | nil => exact ⟨fun _ => rfl, fun _ => .nil⟩
  | cons tag tags =>
    constructor
    · rintro ⟨inner, rest, he, -⟩
      simp at he
    · intro h
      cases h

theorem closes_opening_iff :
    Closes tags (.opening tag :: brackets) ↔ Closes (tag :: tags) brackets := by
  cases tags with
  | nil =>
    constructor
    · intro h
      cases h with
      | @nest _ inner rest hi hr => exact ⟨inner, rest, rfl, hi, hr⟩
    · rintro ⟨inner, rest, rfl, hi, hr⟩
      exact .nest hi hr
  | cons outer tags =>
    constructor
    · rintro ⟨inner, rest, he, hi, hr⟩
      -- the partner of the new tag is the first one in what nests before `outer` closes
      cases hi with
      | nil => cases he
      | @nest name inside after hin hafter =>
        simp only [cons_append, append_assoc, List.cons.injEq] at he
        obtain ⟨hname, rfl⟩ := he
        cases hname
        exact ⟨inside, after ++ .closing outer :: rest, rfl, hin, after, rest, rfl, hafter, hr⟩
    · rintro ⟨inside, tail, rfl, hin, after, rest, rfl, hafter, hr⟩
      refine ⟨.opening tag :: inside ++ .closing tag :: after, rest, ?_, .nest hin hafter, hr⟩
      simp

theorem closes_closing_iff :
    Closes tags (.closing tag :: brackets) ↔
      ∃ outer, tags = tag :: outer ∧ Closes outer brackets := by
  cases tags with
  | nil =>
    constructor
    · intro h
      cases h
    · rintro ⟨outer, he, -⟩
      cases he
  | cons name tags =>
    constructor
    · rintro ⟨inner, rest, he, hi, hr⟩
      cases hi with
      | nil =>
        obtain ⟨rfl, rfl⟩ := he
        exact ⟨tags, rfl, hr⟩
      | nest hin hafter => cases he
    · rintro ⟨outer, he, hr⟩
      cases he
      exact ⟨[], brackets, rfl, .nil, hr⟩

/-! ### Trees in order -/

/-- A part of a tree that is written down in order. -/
inductive Mark where
  | opening (tag : String) (attributes : List Attribute)
  | text (content : String)
  | closing (tag : String)
  deriving DecidableEq, Repr

/-- What a token comes down to.  An element without content closes where it opens. -/
def Token.marks : Token → List Mark
  | .comment => []
  | .text content => if isBlankText content then [] else [.text content]
  | .opening tag attributes selfClosing =>
    if selfClosing || isVoid tag then [.opening tag attributes, .closing tag]
    else [.opening tag attributes]
  | .closing tag => if isVoid tag then [] else [.closing tag]

mutual

def Node.marks : Node → List Mark
  | .text content => [.text content]
  | .element tag children =>
    .opening tag.name tag.attributes :: marksOf children ++ [.closing tag.name]

def marksOf : List Node → List Mark
  | [] => []
  | node :: rest => node.marks ++ marksOf rest

end

theorem marksOf_append (nodes others : List Node) :
    marksOf (nodes ++ others) = marksOf nodes ++ marksOf others := by
  induction nodes with
  | nil => rfl
  | cons node nodes ih => rw [cons_append, marksOf, ih, marksOf, append_assoc]

theorem marksOf_singleton (node : Node) : marksOf [node] = node.marks := by
  rw [marksOf, marksOf, append_nil]

/-- What has been read while elements are open, in order. -/
def marksSoFar (level : List Node) : List Open → List Mark
  | [] => marksOf level.reverse
  | o :: opens =>
    marksSoFar o.before opens ++ .opening o.tag.name o.tag.attributes :: marksOf level.reverse

theorem marksSoFar_cons (node : Node) (level : List Node) (opens : List Open) :
    marksSoFar (node :: level) opens = marksSoFar level opens ++ node.marks := by
  cases opens with
  | nil => rw [marksSoFar, marksSoFar, reverse_cons, marksOf_append, marksOf_singleton]
  | cons o opens =>
    rw [marksSoFar, marksSoFar, reverse_cons, marksOf_append, marksOf_singleton]
    simp

/-! ### Building -/

theorem exists_build_iff (file : String) (level : List Node) (opens : List Open)
    (lexemes : List Lexeme) :
    (∃ nodes, Node.build file level opens none lexemes = .ok nodes) ↔
      Closes (opens.map fun o => o.tag.name) (lexemes.flatMap fun l => l.token.brackets) := by
  generalize hf : none = fault
  fun_induction Node.build file level opens fault lexemes <;>
    simp_all +zetaDelta [Token.brackets, closes_nil_iff, closes_opening_iff, closes_closing_iff]

theorem build_ne_ok_of_fault (file : String) (level : List Node) (opens : List Open)
    (fault : Fault) (lexemes : List Lexeme) (nodes : List Node) :
    Node.build file level opens (some fault) lexemes ≠ .ok nodes := by
  generalize hf : some fault = stopped
  fun_induction Node.build file level opens stopped lexemes <;> simp_all

variable {nodes : List Node}

theorem marksOf_of_build {file} {nodes} {level} {opens} {lexemes}
    (h : Node.build file level opens none lexemes = .ok nodes) :
    marksOf nodes = marksSoFar level opens ++ lexemes.flatMap fun l => l.token.marks := by
  generalize hf : none = fault at h
  fun_induction Node.build file level opens fault lexemes <;>
    simp_all +zetaDelta [Token.marks, marksSoFar_cons, marksSoFar, marksOf, Node.marks]

/-! ### Trees without places -/

mutual

/-- A node without the places of its tags. -/
def Node.bare : Node → Node
  | .text content => .text content
  | .element tag children => .element { tag with position := .start } (bareAll children)

def bareAll : List Node → List Node
  | [] => []
  | node :: rest => node.bare :: bareAll rest

end

/-- A text of marks that starts with no node: it is over, or a tag closes. -/
def StartsNoNode (marks : List Mark) : Prop := ∀ mark ∈ marks.head?, ∃ tag, mark = .closing tag

theorem bareAll_eq_of_marksOf_append {others} {rest rest'} (hr : StartsNoNode rest)
    (hr' : StartsNoNode rest') (h : marksOf nodes ++ rest = marksOf others ++ rest') :
    bareAll nodes = bareAll others ∧ rest = rest' := by
  -- by the number of marks, since both the content of the first node and what follows it are
  -- shorter than the whole
  induction hn : (marksOf nodes).length using Nat.strongRecOn generalizing nodes others rest rest'
    with
  | ind n ih =>
    match nodes, others with
    | [], [] => exact ⟨rfl, h⟩
    | [], .text content :: others =>
      rw [marksOf, nil_append] at h
      obtain ⟨tag, htag⟩ := hr (.text content) (by rw [h]; rfl)
      cases htag
    | [], .element tag children :: others =>
      rw [marksOf, nil_append] at h
      obtain ⟨name, hname⟩ := hr (.opening tag.name tag.attributes) (by rw [h]; rfl)
      cases hname
    | .text content :: nodes, [] =>
      rw [marksOf.eq_def [], nil_append] at h
      obtain ⟨tag, htag⟩ := hr' (.text content) (by rw [← h]; rfl)
      cases htag
    | .element tag children :: nodes, [] =>
      rw [marksOf.eq_def [], nil_append] at h
      obtain ⟨name, hname⟩ := hr' (.opening tag.name tag.attributes) (by rw [← h]; rfl)
      cases hname
    | .text content :: nodes, .element tag children :: others =>
      simp [marksOf, Node.marks] at h
    | .element tag children :: nodes, .text content :: others =>
      simp [marksOf, Node.marks] at h
    | .text content :: nodes, .text content' :: others =>
      simp only [marksOf, Node.marks, cons_append, List.cons.injEq,
        Mark.text.injEq] at h
      obtain ⟨rfl, h⟩ := h
      have hlt : (marksOf nodes).length < n := by
        rw [← hn, marksOf, Node.marks]
        simp
      obtain ⟨hnodes, hrest⟩ := ih _ hlt hr hr' h rfl
      exact ⟨by rw [bareAll, bareAll, hnodes], hrest⟩
    | .element tag children :: nodes, .element tag' children' :: others =>
      simp only [marksOf, Node.marks, cons_append, append_assoc, List.cons.injEq,
        Mark.opening.injEq] at h
      obtain ⟨⟨hname, hattributes⟩, h⟩ := h
      have hsize : (marksOf children).length + (marksOf nodes).length < n := by
        rw [← hn, marksOf, Node.marks]
        simp only [length_append, length_cons]
        omega
      have hclose : ∀ (name : String) (marks : List Mark),
          StartsNoNode (.closing name :: marks) := by
        intro name marks mark hmark
        cases hmark
        exact ⟨name, rfl⟩
      obtain ⟨hchildren, htail⟩ := ih _ (by omega) (hclose _ _) (hclose _ _) h rfl
      obtain ⟨hnodes, hrest⟩ := ih _ (by omega) hr hr' (List.cons.inj htail).2 rfl
      refine ⟨?_, hrest⟩
      rw [bareAll, bareAll, hnodes, Node.bare, Node.bare, hchildren, hname, hattributes]

theorem bareAll_eq_of_marksOf {others} (h : marksOf nodes = marksOf others) :
    bareAll nodes = bareAll others := by
  have hnil : StartsNoNode [] := by
    intro mark hmark
    cases hmark
  refine (bareAll_eq_of_marksOf_append hnil hnil ?_).1
  rw [append_nil, append_nil, h]

/-! ### Accepted templates -/

theorem exists_parse_of_splits (file : String) (origin : Position) {text} {tokens}
    (hs : Splits text.toList tokens) (hb : Balanced (tokens.flatMap Token.brackets)) :
    ∃ nodes, parse file origin text = .ok nodes ∧ marksOf nodes = tokens.flatMap Token.marks := by
  obtain ⟨lexemes, hscan, rfl⟩ := scanFrom_of_splits hs file origin
  rw [flatMap_map] at hb
  obtain ⟨nodes, hnodes⟩ := (exists_build_iff file [] [] lexemes).2 hb
  refine ⟨nodes, ?_, ?_⟩
  · rw [parse, scan, hscan]
    exact hnodes
  · rw [marksOf_of_build hnodes, flatMap_map]
    rfl

theorem exists_splits_of_parse {file} {origin} {text}
    (h : parse file origin text = .ok nodes) :
    ∃ tokens, Splits text.toList tokens ∧ Balanced (tokens.flatMap Token.brackets) ∧
      marksOf nodes = tokens.flatMap Token.marks := by
  rw [parse, scan] at h
  cases hscan : scanFrom file origin 0 text.toList with
  | mk lexemes fault =>
    rw [hscan] at h
    cases fault with
    | some fault => exact absurd h (build_ne_ok_of_fault file [] [] fault lexemes nodes)
    | none =>
      refine ⟨lexemes.map Lexeme.token, splits_of_scanFrom hscan, ?_, ?_⟩
      · rw [flatMap_map]
        exact (exists_build_iff file [] [] lexemes).1 ⟨nodes, h⟩
      · rw [flatMap_map]
        exact marksOf_of_build h

/-- **Exactly the texts are accepted whose tokens nest.**  The tree is then, in order, the sequence
of tokens, and is the only one that is. -/
theorem parse_accepts_balanced (file : String) (origin : Position) (text : String) :
    ((∃ nodes, parse file origin text = .ok nodes) ↔
      ∃ tokens, Splits text.toList tokens ∧ Balanced (tokens.flatMap Token.brackets)) ∧
    ∀ nodes tokens, parse file origin text = .ok nodes → Splits text.toList tokens →
      marksOf nodes = tokens.flatMap Token.marks ∧
      ∀ others, marksOf others = tokens.flatMap Token.marks → bareAll others = bareAll nodes := by
  refine ⟨⟨?_, ?_⟩, ?_⟩
  · rintro ⟨nodes, h⟩
    obtain ⟨tokens, hs, hb, -⟩ := exists_splits_of_parse h
    exact ⟨tokens, hs, hb⟩
  · rintro ⟨tokens, hs, hb⟩
    obtain ⟨nodes, h, -⟩ := exists_parse_of_splits file origin hs hb
    exact ⟨nodes, h⟩
  · intro nodes tokens h hs
    obtain ⟨tokens', hs', -, hmarks⟩ := exists_splits_of_parse h
    have htokens : tokens' = tokens := hs'.unique hs
    rw [htokens] at hmarks
    exact ⟨hmarks, fun others ho => bareAll_eq_of_marksOf (ho.trans hmarks.symm)⟩

/-- A quoted `>`, a `<` in an expression, an element that closes itself, a closing tag without
effect and a comment. -/
theorem parse_accepts_balanced_mixed : ∃ text nodes tokens,
    text = "<p :a='x > 1'>\x7b\x7b a < b \x7d\x7d<br/></p></br><!-- </p> -->" ∧
    parse "p.tanni" .start text = .ok nodes ∧ Splits text.toList tokens ∧
    marksOf nodes = tokens.flatMap Token.marks ∧
    tokens.flatMap Token.marks = [.opening "p" [⟨":a", some "x > 1"⟩],
      .text "\x7b\x7b a < b \x7d\x7d", .opening "br" [], .closing "br", .closing "p"] := by
  have hscan : (scanFrom "p.tanni" .start 0
      "<p :a='x > 1'>\x7b\x7b a < b \x7d\x7d<br/></p></br><!-- </p> -->".toList).2 = none := by
    decide +kernel
  have htokens : (scanFrom "p.tanni" .start 0
      "<p :a='x > 1'>\x7b\x7b a < b \x7d\x7d<br/></p></br><!-- </p> -->".toList).1.map
        Lexeme.token =
      [.opening "p" [⟨":a", some "x > 1"⟩] false, .text "\x7b\x7b a < b \x7d\x7d",
        .opening "br" [] true, .closing "p", .closing "br", .comment] := by
    decide +kernel
  have hs := splits_of_scanFrom (Prod.ext rfl hscan)
  rw [htokens] at hs
  have hbrackets : ([.opening "p" [⟨":a", some "x > 1"⟩] false, .text "\x7b\x7b a < b \x7d\x7d",
      .opening "br" [] true, .closing "p", .closing "br", .comment] : List Token).flatMap
      Token.brackets = [.opening "p", .closing "p"] := by
    decide +kernel
  have hb : Balanced [.opening "p", .closing "p"] := .nest .nil .nil
  rw [← hbrackets] at hb
  obtain ⟨hiff, htree⟩ := parse_accepts_balanced "p.tanni" .start
    "<p :a='x > 1'>\x7b\x7b a < b \x7d\x7d<br/></p></br><!-- </p> -->"
  obtain ⟨nodes, hnodes⟩ := hiff.mpr ⟨_, hs, hb⟩
  exact ⟨_, nodes, _, rfl, hnodes, hs, (htree nodes _ hnodes hs).1, by decide +kernel⟩

end ReactiveMarkup.Markup
