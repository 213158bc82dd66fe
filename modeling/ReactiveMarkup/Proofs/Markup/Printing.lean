/-
Trees as they are written, and read again.

A tree is written with every value in double quotes and no more spaces than are
needed.  Reading gives the tree back but for the places of its tags.  What can be
written so is said by `PrintableAll`: names are names, values have no double quote
in them, and in texts a `<` stands only in an expression whose marks are closed in
the same text.

* `parse_print`: what is printed is read again.
-/
import ReactiveMarkup.Proofs.Markup.Nesting
import ReactiveMarkup.Proofs.Results

namespace ReactiveMarkup.Markup

open Text List

/-! ### Writing -/

def Attribute.written (a : Attribute) : List Char :=
  ' ' :: a.name.toList ++ match a.value with
    | none => []
    | some value => ['=', '\"'] ++ value.toList ++ ['\"']

def Tag.written (tag : Tag) : List Char :=
  ['<'] ++ tag.name.toList ++ tag.attributes.flatMap Attribute.written ++ ['>']

mutual

def Node.written : Node → List Char
  | .text content => content.toList
  | .element tag children =>
    tag.written ++ if isVoid tag.name then []
      else writtenAll children ++ (['<', '/'] ++ tag.name.toList ++ ['>'])

def writtenAll : List Node → List Char
  | [] => []
  | node :: rest => node.written ++ writtenAll rest

end

def print (nodes : List Node) : String := String.ofList (writtenAll nodes)

/-! ### What can be written -/

/-- A name that ends where it should, and a value that has no double quote in it. -/
structure Attribute.Printable (a : Attribute) : Prop where
  name_ne : a.name.toList ≠ []
  name_chars : ∀ c ∈ a.name.toList,
    isBlank c = false ∧ c ∉ ['=', '/', '\"', '\'', '<', '>']
  value_chars : ∀ value ∈ a.value, '\"' ∉ value.toList

/-- A name of an element, with attributes that can be written. -/
structure Tag.Printable (tag : Tag) : Prop where
  letter : ∃ c ∈ tag.name.toList.head?, isLetter c = true
  chars : ∀ c ∈ tag.name.toList, isTagChar c = true
  attributes : ∀ a ∈ tag.attributes, a.Printable

/-- Read from left to right, every mark that opens an expression is closed, and a `<` stands only
in an expression. -/
inductive SpansClosed : List Char → Prop
  | nil : SpansClosed []
  | span {inside s : List Char} (hi : FirstEnd closingMark inside) (hs : SpansClosed s) :
      SpansClosed (openingMark ++ inside ++ closingMark ++ s)
  | char {c : Char} {s : List Char} (hc : c ≠ '<') (ho : ¬ openingMark <+: c :: s)
      (hs : SpansClosed s) : SpansClosed (c :: s)

def Node.isText : Node → Bool
  | .text _ => true
  | .element _ _ => false

mutual

def Node.Printable : Node → Prop
  | .text content => isBlankText content = false ∧ SpansClosed content.toList
  | .element tag children =>
    tag.Printable ∧ (isVoid tag.name = true → children = []) ∧ PrintableAll children

/-- Nodes that can be written, with no two texts next to each other. -/
def PrintableAll : List Node → Prop
  | [] => True
  | node :: rest =>
    node.Printable ∧ (node.isText = true → ∀ next ∈ rest.head?, next.isText = false) ∧
      PrintableAll rest

end

/-! ### Attributes -/

theorem isBlank_of_isSpace (h : isSpace c = true) : isBlank c = true := by
  simp only [isSpace, Bool.or_eq_true, beq_iff_eq] at h
  obtain (((rfl | rfl) | rfl) | rfl) | rfl := h <;> decide

theorem Attribute.Printable.isNameChar {a : Attribute} (h : a.Printable) (hc : c ∈ a.name.toList) :
    isNameChar c = true ∧ isDivider c = false ∧ isSpace c = false := by
  obtain ⟨hblank, hchars⟩ := h.name_chars c hc
  have hspace : isSpace c = false := by
    cases hs : isSpace c with
    | false => rfl
    | true =>
      rw [isBlank_of_isSpace hs] at hblank
      cases hblank
  simp only [mem_cons, not_or] at hchars
  obtain ⟨heq, hslash, -⟩ := hchars
  simp [Markup.isNameChar, isDivider, hspace, heq, hslash]

variable {attrs : List Attribute}

theorem dropWhile_isSpace_written (h : ∀ a ∈ attrs, a.Printable) :
    ∀ c ∈ ((attrs.flatMap Attribute.written).dropWhile isSpace).head?, c ≠ '=' := by
  cases attrs with
  | nil =>
    intro c hc
    cases hc
  | cons a attrs =>
    have ha := h a (by simp)
    cases hname : a.name.toList with
    | nil => exact absurd hname ha.name_ne
    | cons d name =>
      have hd := ha.isNameChar (show d ∈ a.name.toList by rw [hname]; simp)
      intro c hc
      have hfirst : c = d := by
        simpa [Attribute.written, hname, hd.2.2, show isSpace ' ' = true from rfl] using hc.symm
      rintro rfl
      rw [← hfirst] at hd
      cases hd.1

theorem head?_written : ∀ c ∈ (attrs.flatMap Attribute.written).head?, c = ' ' := by
  cases attrs with
  | nil => simp
  | cons a attrs => simp [Attribute.written]

theorem takeValue_quoted {value} (hv : '\"' ∉ value) (rest : List Char) :
    takeValue ('\"' :: value ++ '\"' :: rest) = (value, rest) := by
  have hfront : ∀ c ∈ value, (c != '\"') = true := by
    intro c hc
    rw [bne_iff_ne]
    rintro rfl
    exact hv hc
  have hback : ∀ c ∈ ('\"' :: rest).head?, (c != '\"') = false := by
    intro c hc
    cases hc
    decide
  obtain ⟨htake, hdrop⟩ := takeWhile_dropWhile_append hfront hback
  simp only [takeValue, cons_append, htake, hdrop]
  rfl

theorem takeAttribute_written (ha : a.Printable) (h : ∀ b ∈ attrs, b.Printable) :
    takeAttribute (a.written.tail ++ attrs.flatMap Attribute.written) =
      (a, attrs.flatMap Attribute.written) := by
  have hname : ∀ c ∈ a.name.toList, Markup.isNameChar c = true := fun c hc => (ha.isNameChar hc).1
  have hvalue := ha.value_chars
  obtain ⟨name, value⟩ := a
  cases value with
  | none =>
    have hback : ∀ c ∈ (attrs.flatMap Attribute.written).head?, Markup.isNameChar c = false := by
      intro c hc
      rw [head?_written c hc]
      rfl
    obtain ⟨htake, hdrop⟩ := takeWhile_dropWhile_append hname hback
    have hno := dropWhile_isSpace_written h
    simp only [Attribute.written, tail_cons, append_nil] at htake hdrop ⊢
    simp only [takeAttribute, htake, hdrop]
    split
    · rename_i after hafter
      rw [hafter] at hno
      exact absurd rfl (hno '=' rfl)
    · rw [String.ofList_toList]
  | some value =>
    have hback : ∀ c ∈ ('=' :: '\"' :: value.toList ++ '\"' ::
        attrs.flatMap Attribute.written).head?, Markup.isNameChar c = false := by
      intro c hc
      cases hc
      decide
    obtain ⟨htake, hdrop⟩ := takeWhile_dropWhile_append hname hback
    have hquoted := takeValue_quoted (hvalue value rfl) (attrs.flatMap Attribute.written)
    have htext : (Attribute.written ⟨name, some value⟩).tail ++ attrs.flatMap Attribute.written =
        name.toList ++
          ('=' :: '\"' :: value.toList ++ '\"' :: attrs.flatMap Attribute.written) := by
      simp [Attribute.written]
    have hequal : ('=' :: '\"' :: value.toList ++ '\"' ::
        attrs.flatMap Attribute.written).dropWhile isSpace =
        '=' :: '\"' :: value.toList ++ '\"' :: attrs.flatMap Attribute.written := rfl
    have hquote : ('\"' :: value.toList ++ '\"' ::
        attrs.flatMap Attribute.written).dropWhile isSpace =
        '\"' :: value.toList ++ '\"' :: attrs.flatMap Attribute.written := rfl
    rw [htext]
    simp only [takeAttribute, htake, hdrop, hequal]
    simp only [cons_append] at hquote hquoted ⊢
    simp only [hquote, hquoted, String.ofList_toList]

theorem attributesFrom_append (read s : List Char) :
    attributesFrom read.length (read ++ s) = attributesFrom 0 s := by
  induction read with
  | nil => rfl
  | cons c read ih => rw [length_cons, cons_append, attributesFrom, ih]

theorem attributes_written (h : ∀ a ∈ attrs, a.Printable) :
    attributes (attrs.flatMap Attribute.written) = attrs := by
  induction attrs with
  | nil => rfl
  | cons a attrs ih =>
    have ha := h a (by simp)
    have hrest : ∀ b ∈ attrs, b.Printable := fun b hb => h b (mem_cons_of_mem a hb)
    have hfound := takeAttribute_written ha hrest
    cases hname : a.name.toList with
    | nil => exact absurd hname ha.name_ne
    | cons d name =>
      have hd := ha.isNameChar (show d ∈ a.name.toList by rw [hname]; simp)
      obtain ⟨read, hread⟩ : ∃ read, a.written = ' ' :: d :: read := by
        rw [Attribute.written, hname]
        exact ⟨_, rfl⟩
      rw [hread, tail_cons, cons_append] at hfound
      have hlen : (read ++ attrs.flatMap Attribute.written).length -
          (attrs.flatMap Attribute.written).length = read.length := by
        simp
      rw [flatMap_cons, hread, attributes, cons_append, attributesFrom,
        if_pos (show isDivider ' ' = true from rfl), cons_append, attributesFrom,
        if_neg (by rw [hd.2.1]; decide), hfound]
      simp only [hlen, attributesFrom_append]
      rw [← attributes, ih hrest]

/-! ### Tags -/

theorem tagText_written (h : ∀ a ∈ attrs, a.Printable) :
    TagText (attrs.flatMap Attribute.written) := by
  induction attrs with
  | nil => exact .nil
  | cons a attrs ih =>
    have ha := h a (by simp)
    have hrest := ih fun b hb => h b (mem_cons_of_mem a hb)
    have hplain : ∀ s t : List Char, (∀ c ∈ s, c ∉ ['\"', '\'', '<', '>']) → TagText t →
        TagText (s ++ t) := by
      intro s t hs ht
      induction s with
      | nil => exact ht
      | cons c s ihs =>
        exact .plain (hs c (by simp)) (ihs fun d hd => hs d (mem_cons_of_mem c hd))
    have hname : ∀ c ∈ ' ' :: a.name.toList, c ∉ ['\"', '\'', '<', '>'] := by
      intro c hc
      rcases mem_cons.1 hc with rfl | hc
      · decide
      · have hchars := (ha.name_chars c hc).2
        simp only [mem_cons, not_or] at hchars ⊢
        obtain ⟨-, -, hchars⟩ := hchars
        exact hchars
    rw [flatMap_cons, Attribute.written, append_assoc]
    refine hplain _ _ hname ?_
    cases hv : a.value with
    | none => exact hrest
    | some value =>
      have hquote := ha.value_chars value (by rw [hv]; rfl)
      have hquoted : TagText ('\"' :: value.toList ++ '\"' :: attrs.flatMap Attribute.written) :=
        .quoted (.inl rfl) hquote hrest
      have hequal : TagText ('=' :: ('\"' :: value.toList ++ '\"' ::
          attrs.flatMap Attribute.written)) := .plain (by decide) hquoted
      simpa using hequal

theorem getLast?_written (h : ∀ a ∈ attrs, a.Printable) :
    ∀ c ∈ (attrs.flatMap Attribute.written).getLast?, isBlank c = false ∧ c ≠ '/' := by
  induction attrs with
  | nil =>
    intro c hc
    cases hc
  | cons a attrs ih =>
    intro c hc
    rw [flatMap_cons, getLast?_append] at hc
    cases hlast : (attrs.flatMap Attribute.written).getLast? with
    | some d =>
      rw [hlast] at hc
      cases hc
      exact ih (fun b hb => h b (mem_cons_of_mem a hb)) c (by rw [hlast]; rfl)
    | none =>
      have ha := h a (by simp)
      rw [hlast, Attribute.written, getLast?_append] at hc
      cases hv : a.value with
      | some value =>
        rw [hv] at hc
        simp only [getLast?_append] at hc
        cases hc
        decide
      | none =>
        rw [hv] at hc
        have hmem : c ∈ a.name.toList := by
          rw [getLast?_cons_of_ne_nil ha.name_ne] at hc
          exact mem_of_getLast? hc
        obtain ⟨hblank, hchars⟩ := ha.name_chars c hmem
        refine ⟨hblank, ?_⟩
        rintro rfl
        simp at hchars

theorem Tag.Printable.spells {tag : Tag} (h : tag.Printable) (rest : List Char) :
    Spells rest (.opening tag.name tag.attributes false) tag.written := by
  have hhead : ∀ c ∈ (tag.attributes.flatMap Attribute.written ++ []).head?,
      isTagChar c = false := by
    intro c hc
    rw [append_nil] at hc
    rw [head?_written c hc]
    decide
  have htext : TagText (tag.attributes.flatMap Attribute.written ++ []) := by
    rw [append_nil]
    exact tagText_written h.attributes
  have hspells : Spells rest _ _ := .opening h.letter h.chars hhead htext (forall_mem_nil _)
    (getLast?_written h.attributes)
  rw [attributes_written h.attributes, String.ofList_toList, append_nil] at hspells
  exact hspells

theorem Tag.Printable.spells_closing {tag : Tag} (h : tag.Printable) (rest : List Char) :
    Spells rest (.closing tag.name) (['<', '/'] ++ tag.name.toList ++ ['>']) := by
  obtain ⟨c, hc, -⟩ := h.letter
  have hne : tag.name.toList ≠ [] := by
    intro he
    rw [he] at hc
    cases hc
  have hspells : Spells rest _ _ := .closing hne h.chars (forall_mem_nil _)
  rw [String.ofList_toList, append_nil] at hspells
  exact hspells

/-! ### Texts -/

/-- A text in which all marks are closed ends where a tag follows, or nothing. -/
theorem SpansClosed.textRun {s rest} (h : SpansClosed s) (hr : rest = [] ∨ ∃ r, rest = '<' :: r) :
    TextRun rest s := by
  induction h with
  | nil => exact .stop hr
  | span hi _ ih => exact .span hi ih
  | @char c s hc ho _ ih =>
    refine .char hc ?_ ih
    rintro ⟨inside, after, he⟩
    refine ho ?_
    -- the second brace would have to stand in the text too, since what follows starts with `<`
    cases s with
    | nil =>
      rcases hr with rfl | ⟨r, rfl⟩ <;> simp [openingMark] at he
    | cons d s =>
      simp only [openingMark, cons_append, List.cons.injEq] at he
      obtain ⟨rfl, rfl, -⟩ := he
      exact ⟨s, rfl⟩

/-! ### Trees -/

mutual

def Node.tokens : Node → List Token
  | .text content => [.text content]
  | .element tag children =>
    .opening tag.name tag.attributes false ::
      if isVoid tag.name then [] else tokensOf children ++ [.closing tag.name]

def tokensOf : List Node → List Token
  | [] => []
  | node :: rest => node.tokens ++ tokensOf rest

end

/-- A tag follows, or nothing. -/
def TagAhead (s : List Char) : Prop := s = [] ∨ ∃ r, s = '<' :: r

theorem tagAhead_writtenAll {nodes} {rest} (hn : ∀ next ∈ nodes.head?, next.isText = false)
    (hr : TagAhead rest) : TagAhead (writtenAll nodes ++ rest) := by
  match nodes with
  | [] => exact hr
  | .text content :: nodes => exact absurd (hn _ rfl) (by simp [Node.isText])
  | .element tag children :: nodes =>
    exact .inr ⟨_, rfl⟩

mutual

/-- A printed node is written with its tokens. -/
theorem Node.Printable.splits {node : Node} (h : node.Printable) {rest : List Char}
    {tokens : List Token} (hs : Splits rest tokens) (hr : node.isText = true → TagAhead rest) :
    Splits (node.written ++ rest) (node.tokens ++ tokens) := by
  match node with
  | .text content =>
    rw [Node.Printable] at h
    have hne : content.toList ≠ [] := by
      intro he
      rw [isBlankText, he] at h
      exact absurd h.1 (by decide)
    have hspells := Spells.text hne (h.2.textRun (hr rfl))
    rw [String.ofList_toList] at hspells
    exact .cons hspells hs
  | .element tag children =>
    rw [Node.Printable] at h
    obtain ⟨htag, -, hchildren⟩ := h
    rw [Node.written, Node.tokens, append_assoc]
    refine .cons (htag.spells _) ?_
    by_cases hv : isVoid tag.name = true
    · rw [if_pos hv, if_pos hv]
      exact hs
    · have hinner := splits_writtenAll hchildren (.cons (htag.spells_closing rest) hs)
        (.inr ⟨_, rfl⟩)
      rw [if_neg hv, if_neg hv, append_assoc]
      simpa using hinner

theorem splits_writtenAll {nodes : List Node} (h : PrintableAll nodes) {rest : List Char}
    {tokens : List Token} (hs : Splits rest tokens) (hr : TagAhead rest) :
    Splits (writtenAll nodes ++ rest) (tokensOf nodes ++ tokens) := by
  match nodes with
  | [] => exact hs
  | node :: nodes =>
    rw [PrintableAll] at h
    obtain ⟨hnode, hnext, hnodes⟩ := h
    rw [writtenAll, tokensOf, append_assoc, append_assoc]
    exact hnode.splits (splits_writtenAll hnodes hs hr) fun ht => tagAhead_writtenAll (hnext ht) hr

end

theorem Balanced.append {front back} (hf : Balanced front) (hb : Balanced back) :
    Balanced (front ++ back) := by
  induction hf with
  | nil => exact hb
  | nest hi _ _ ih =>
    rw [append_assoc]
    exact .nest hi ih

mutual

theorem Node.balanced_tokens (node : Node) : Balanced (node.tokens.flatMap Token.brackets) := by
  match node with
  | .text content => exact .nil
  | .element tag children =>
    rw [Node.tokens, flatMap_cons, Token.brackets, Bool.false_or]
    by_cases hv : isVoid tag.name = true
    · rw [if_pos hv, if_pos hv]
      exact .nil
    · rw [if_neg hv, if_neg hv, flatMap_append, flatMap_singleton, Token.brackets,
        if_neg hv]
      exact .nest (balanced_tokensOf children) .nil

theorem balanced_tokensOf (nodes : List Node) :
    Balanced ((tokensOf nodes).flatMap Token.brackets) := by
  match nodes with
  | [] => exact .nil
  | node :: nodes =>
    rw [tokensOf, flatMap_append]
    exact node.balanced_tokens.append (balanced_tokensOf nodes)

end

mutual

theorem Node.Printable.marks_tokens {node : Node} (h : node.Printable) :
    node.tokens.flatMap Token.marks = node.marks := by
  match node with
  | .text content =>
    rw [Node.Printable] at h
    rw [Node.tokens, flatMap_singleton, Token.marks, if_neg (by rw [h.1]; decide), Node.marks]
  | .element tag children =>
    rw [Node.Printable] at h
    obtain ⟨-, hvoid, hchildren⟩ := h
    rw [Node.tokens, flatMap_cons, Token.marks, Bool.false_or, Node.marks]
    by_cases hv : isVoid tag.name = true
    · rw [if_pos hv, if_pos hv, hvoid hv]
      rfl
    · rw [if_neg hv, if_neg hv, flatMap_append, flatMap_singleton, Token.marks,
        if_neg hv, marks_tokensOf hchildren]
      rfl

theorem marks_tokensOf {nodes : List Node} (h : PrintableAll nodes) :
    (tokensOf nodes).flatMap Token.marks = marksOf nodes := by
  match nodes with
  | [] => rfl
  | node :: nodes =>
    rw [PrintableAll] at h
    rw [tokensOf, flatMap_append, h.1.marks_tokens, marks_tokensOf h.2.2, marksOf]

end

/-- **What is printed is read again**, but for the places of tags. -/
theorem parse_print (file : String) (origin : Position) {nodes : List Node}
    (h : PrintableAll nodes) :
    ∃ nodes', parse file origin (print nodes) = .ok nodes' ∧ bareAll nodes' = bareAll nodes := by
  have hsplits : Splits (print nodes).toList (tokensOf nodes) := by
    have hall := splits_writtenAll h .nil (.inl rfl)
    rw [append_nil, append_nil] at hall
    rw [print, String.toList_ofList]
    exact hall
  obtain ⟨nodes', hparse, hmarks⟩ :=
    exists_parse_of_splits file origin hsplits (balanced_tokensOf nodes)
  refine ⟨nodes', hparse, bareAll_eq_of_marksOf ?_⟩
  rw [hmarks, marks_tokensOf h]

/-- A value with `>`, `/` and a quote of the other kind, and a text with `<` in an expression. -/
theorem parse_print_quoted : ∃ nodes nodes',
    nodes = [.element ⟨"p", [⟨":a", some "x > 'y' /"⟩, ⟨"b", none⟩], .start⟩
      [.text "\x7b\x7b a < b \x7d\x7d!", .element ⟨"br", [], .start⟩ []]] ∧
    PrintableAll nodes ∧ parse "p.tanni" .start (print nodes) = .ok nodes' ∧
    bareAll nodes' = bareAll nodes := by
  have hspan : SpansClosed "\x7b\x7b a < b \x7d\x7d!".toList := by
    have hcut : cut? closingMark " a < b \x7d\x7d!".toList = some (" a < b ".toList, ['!']) := by
      decide +kernel
    have hfirst := ((cut?_eq_some_iff (by decide)).mp hcut).2
    exact .span hfirst (.char (by decide) (by decide) .nil)
  have hp : Tag.Printable ⟨"p", [⟨":a", some "x > 'y' /"⟩, ⟨"b", none⟩], .start⟩ := by
    refine ⟨⟨'p', rfl, by decide⟩, forall_mem_of_all (by decide +kernel), ?_⟩
    intro a ha
    simp only [mem_cons, not_mem_nil, or_false] at ha
    rcases ha with rfl | rfl
    · refine ⟨by decide +kernel, forall_mem_of_all (by decide +kernel), ?_⟩
      rintro value ⟨rfl⟩
      decide +kernel
    · refine ⟨by decide +kernel, forall_mem_of_all (by decide +kernel), ?_⟩
      rintro value ⟨⟩
  have hbr : Tag.Printable ⟨"br", [], .start⟩ :=
    ⟨⟨'b', rfl, by decide⟩, forall_mem_of_all (by decide +kernel), by simp⟩
  have hall : PrintableAll [.element ⟨"p", [⟨":a", some "x > 'y' /"⟩, ⟨"b", none⟩], .start⟩
      [.text "\x7b\x7b a < b \x7d\x7d!", .element ⟨"br", [], .start⟩ []]] := by
    simp only [PrintableAll, Node.Printable]
    refine ⟨⟨hp, ?_, ⟨?_, hspan⟩, ?_, ⟨hbr, fun _ => trivial, trivial⟩, ?_, trivial⟩, ?_, trivial⟩
    · intro hv
      exact absurd hv (by decide +kernel)
    · decide +kernel
    · simp [Node.isText]
    · simp [Node.isText]
    · simp [Node.isText]
  obtain ⟨nodes', hparse, hbare⟩ := parse_print "p.tanni" .start hall
  exact ⟨_, nodes', rfl, hall, hparse, hbare⟩

end ReactiveMarkup.Markup
