/-
The written form of tokens.

What a scanner finds at the front of a text is said here as a rule of writing,
without a scanner: which texts spell a token when a given text follows them.  Only
the end of a run of text depends on what follows, since a mark that opens an
expression counts only if it is closed somewhere later.
-/
import Mathlib.Data.List.Forall2
import Mathlib.Data.List.TakeWhile
import ReactiveMarkup.Markup.Tree

namespace ReactiveMarkup.Markup

open Text List Option

/-! ### Rules of writing -/

/-- After `body` the text `pat` stands for the first time. -/
def FirstEnd (pat body : List Char) : Prop :=
  ∀ front back, body ++ pat = front ++ pat ++ back → back = []

/-- A text starts with an expression in marks that are closed. -/
def OpensSpan (s : List Char) : Prop :=
  ∃ inside after, s = openingMark ++ inside ++ closingMark ++ after

/-- The inside of an opening tag after its name: quotes are closed, and no angle bracket stands
outside of quotes. -/
inductive TagText : List Char → Prop
  | nil : TagText []
  | plain {c : Char} {s : List Char} (hc : c ∉ ['\"', '\'', '<', '>']) (hs : TagText s) :
      TagText (c :: s)
  | quoted {q : Char} {inside s : List Char} (hq : q = '\"' ∨ q = '\'') (hi : q ∉ inside)
      (hs : TagText s) : TagText (q :: inside ++ q :: s)

/-- A run of text in front of `rest`: it ends at the end or at a `<`, and no `<` stands in it but
in an expression whose marks are closed. -/
inductive TextRun (rest : List Char) : List Char → Prop
  | stop (hr : rest = [] ∨ ∃ r, rest = '<' :: r) : TextRun rest []
  | span {inside run : List Char} (hi : FirstEnd closingMark inside) (hr : TextRun rest run) :
      TextRun rest (openingMark ++ inside ++ closingMark ++ run)
  | char {c : Char} {run : List Char} (hc : c ≠ '<') (ho : ¬ OpensSpan (c :: run ++ rest))
      (hr : TextRun rest run) : TextRun rest (c :: run)

/-- The written form of a token in front of `rest`. -/
inductive Spells (rest : List Char) : Token → List Char → Prop
  /-- A comment ends at the first `-->`. -/
  | comment {body : List Char} (hb : FirstEnd ['-', '-', '>'] body) :
      Spells rest .comment (['<', '!', '-', '-'] ++ body ++ ['-', '-', '>'])
  /-- Spaces may stand after the name in a closing tag. -/
  | closing {name spaces : List Char} (hn : name ≠ []) (ht : ∀ c ∈ name, isTagChar c = true)
      (hs : ∀ c ∈ spaces, isSpace c = true) :
      Spells rest (.closing (String.ofList name)) (['<', '/'] ++ name ++ spaces ++ ['>'])
  /-- A name starts with a letter and goes on as long as it can.  Blanks may end the tag. -/
  | opening {name front blanks : List Char} (hl : ∃ c ∈ name.head?, isLetter c = true)
      (ht : ∀ c ∈ name, isTagChar c = true)
      (hi : ∀ c ∈ (front ++ blanks).head?, isTagChar c = false) (hf : TagText (front ++ blanks))
      (hb : ∀ c ∈ blanks, isBlank c = true)
      (he : ∀ c ∈ front.getLast?, isBlank c = false ∧ c ≠ '/') :
      Spells rest (.opening (String.ofList name) (attributes front) false)
        (['<'] ++ name ++ (front ++ blanks) ++ ['>'])
  /-- A tag whose last character but for blanks is a slash closes itself. -/
  | selfClosing {name front blanks : List Char} (hl : ∃ c ∈ name.head?, isLetter c = true)
      (ht : ∀ c ∈ name, isTagChar c = true)
      (hi : ∀ c ∈ (front ++ '/' :: blanks).head?, isTagChar c = false)
      (hf : TagText (front ++ '/' :: blanks)) (hb : ∀ c ∈ blanks, isBlank c = true) :
      Spells rest (.opening (String.ofList name) (attributes front) true)
        (['<'] ++ name ++ (front ++ '/' :: blanks) ++ ['>'])
  /-- A run of text is not empty. -/
  | text {run : List Char} (hn : run ≠ []) (hr : TextRun rest run) :
      Spells rest (.text (String.ofList run)) run

/-- A text as the tokens that it is written with, one after the other. -/
inductive Splits : List Char → List Token → Prop
  | nil : Splits [] []
  | cons {token : Token} {written rest : List Char} {tokens : List Token}
      (hw : Spells rest token written) (hr : Splits rest tokens) :
      Splits (written ++ rest) (token :: tokens)

/-! ### Finding a fixed text -/

variable {pat rest s : List Char}

theorem drop?_eq_some_iff : drop? pat s = some rest ↔ s = pat ++ rest := by
  fun_induction drop? pat s <;> simp_all
  grind

variable {c : Char} {body : List Char}

theorem FirstEnd.tail (hf : FirstEnd pat (c :: body)) : FirstEnd pat body := by
  intro front back he
  refine hf (c :: front) back ?_
  rw [cons_append, he, cons_append, cons_append]

/-- One more character in front changes nothing if `pat` does not start there. -/
theorem FirstEnd.cons (hf : FirstEnd pat body) (h : ¬ pat <+: c :: body ++ pat) :
    FirstEnd pat (c :: body) := by
  intro front back he
  cases front with
  | nil => exact absurd ⟨back, by rw [he, nil_append]⟩ h
  | cons d front =>
    simp only [cons_append, List.cons.injEq] at he
    exact hf front back he.2

theorem firstEnd_nil (pat : List Char) : FirstEnd pat [] := by
  intro front back he
  have hlen := congrArg List.length he
  simp only [nil_append, length_append] at hlen
  exact length_eq_zero_iff.1 (by omega)

theorem FirstEnd.eq_nil (hf : FirstEnd pat body) (h : pat <+: body ++ pat) : body = [] := by
  obtain ⟨back, he⟩ := h
  have hback : back = [] := hf [] back he.symm
  have hlen := congrArg List.length he
  rw [hback, append_nil, length_append] at hlen
  exact length_eq_zero_iff.1 (by omega)

theorem map_cons_eq_some_iff {found} {front} :
    (found.map fun p => (c :: p.1, p.2)) = some (front, rest) ↔
      ∃ tail, front = c :: tail ∧ found = some (tail, rest) := by
  simp only [map_eq_some_iff]
  grind

theorem cut?_eq_some_iff (hp : pat ≠ []) :
    cut? pat s = some (body, rest) ↔ s = body ++ pat ++ rest ∧ FirstEnd pat body := by
  fun_induction cut? pat s generalizing body with
  | case1 he => simp_all
  | case2 he => simp [hp]
  | case3 c cs after hd =>
    -- `pat` stands right here, so nothing can come before its first occurrence
    have hs : c :: cs = pat ++ after := drop?_eq_some_iff.1 hd
    constructor
    · intro h
      cases h
      exact ⟨hs, firstEnd_nil pat⟩
    · rintro ⟨he, hf⟩
      have hpre : pat <+: body ++ pat :=
        prefix_of_prefix_length_le ⟨after, hs.symm⟩ ⟨rest, he.symm⟩ (by simp)
      have hbody := hf.eq_nil hpre
      rw [hbody, hs] at he
      rw [hbody, append_cancel_left he]
  | case4 c cs hd ih =>
    have hno : ∀ t, c :: cs ≠ pat ++ t := by
      intro t ht
      rw [drop?_eq_some_iff.2 ht] at hd
      cases hd
    rw [map_cons_eq_some_iff]
    constructor
    · rintro ⟨body, rfl, hb⟩
      obtain ⟨rfl, hf⟩ := ih.1 hb
      refine ⟨rfl, hf.cons ?_⟩
      rintro ⟨t, ht⟩
      exact hno (t ++ rest) (by rw [← append_assoc, ht]; rfl)
    · rintro ⟨he, hf⟩
      cases body with
      | nil => exact absurd he (hno rest)
      | cons d body =>
        simp only [cons_append, List.cons.injEq] at he
        exact ⟨body, by rw [he.1], ih.2 ⟨he.2, hf.tail⟩⟩

variable {front : List Char}

theorem exists_firstEnd {back} (hs : s = front ++ pat ++ back) :
    ∃ body rest, s = body ++ pat ++ rest ∧ FirstEnd pat body := by
  induction s generalizing front with
  | nil =>
    refine ⟨[], [], ?_, firstEnd_nil pat⟩
    have hlen := congrArg List.length hs
    simp only [length_append, length_nil] at hlen
    have hpat : pat = [] := length_eq_zero_iff.1 (by omega)
    rw [hpat]
    rfl
  | cons c cs ih =>
    by_cases hpre : pat <+: c :: cs
    · obtain ⟨rest, hrest⟩ := hpre
      exact ⟨[], rest, by rw [nil_append, hrest], firstEnd_nil pat⟩
    · cases front with
      | nil => exact absurd ⟨back, by rw [hs, nil_append]⟩ hpre
      | cons d front =>
        simp only [cons_append, List.cons.injEq] at hs
        obtain ⟨body, rest, he, hf⟩ := ih hs.2
        refine ⟨c :: body, rest, by rw [he]; rfl, hf.cons ?_⟩
        rintro ⟨t, ht⟩
        refine hpre ⟨t ++ rest, ?_⟩
        rw [← append_assoc, ht, he]
        rfl

/-! ### Expressions in texts -/

variable {inside : List Char}

theorem interpolation?_eq_some_iff :
    interpolation? s = some inside ↔
      ∃ after, s = openingMark ++ inside ++ closingMark ++ after ∧ FirstEnd closingMark inside := by
  have hp : closingMark ≠ [] := by simp [closingMark]
  constructor
  · intro h
    simp only [interpolation?, bind_eq_bind, bind_eq_some_iff] at h
    obtain ⟨rest, hrest, ⟨body, after⟩, hcut, he⟩ := h
    cases he
    obtain ⟨hs, hf⟩ := (cut?_eq_some_iff hp).mp hcut
    refine ⟨after, ?_, hf⟩
    rw [drop?_eq_some_iff.mp hrest, hs]
    simp only [append_assoc]
  · rintro ⟨after, hs, hf⟩
    have hdrop : drop? openingMark s = some (inside ++ closingMark ++ after) :=
      drop?_eq_some_iff.mpr (by rw [hs]; simp only [append_assoc])
    have hcut : cut? closingMark (inside ++ closingMark ++ after) = some (inside, after) :=
      (cut?_eq_some_iff hp).mpr ⟨rfl, hf⟩
    simp only [interpolation?, hdrop, hcut, bind_eq_bind, bind_some]
    rfl

theorem interpolation?_eq_none_iff : interpolation? s = none ↔ ¬ OpensSpan s := by
  constructor
  · rintro h ⟨inside, after, hs⟩
    obtain ⟨body, rest, he, hf⟩ := exists_firstEnd (rfl : inside ++ closingMark ++ after = _)
    have hsome : interpolation? s = some body := by
      refine interpolation?_eq_some_iff.mpr ⟨rest, ?_, hf⟩
      rw [hs, append_assoc openingMark, append_assoc openingMark, he]
      simp only [append_assoc]
    rw [h] at hsome
    cases hsome
  · intro h
    cases hi : interpolation? s with
    | none => rfl
    | some inside =>
      obtain ⟨after, hs, -⟩ := interpolation?_eq_some_iff.mp hi
      exact absurd ⟨inside, after, hs⟩ h

/-! ### Runs of text -/

/-- What holds of the empty text, and of a text if it holds of what follows the first expression in
marks, or the first character if there is none. -/
@[elab_as_elim]
theorem induction_ahead {P : List Char → Prop} (nothing : P [])
    (span : ∀ {inside}, FirstEnd closingMark inside → ∀ s, P s →
      P (openingMark ++ inside ++ closingMark ++ s))
    (char : ∀ {c s}, ¬ OpensSpan (c :: s) → P s → P (c :: s)) (s : List Char) : P s := by
  induction hn : s.length using Nat.strongRecOn generalizing s with
  | ind n ih =>
    subst hn
    cases hi : interpolation? s with
    | some inside =>
      obtain ⟨rest, rfl, hf⟩ := interpolation?_eq_some_iff.1 hi
      exact span hf rest (ih rest.length (by simp [openingMark]; omega) rest rfl)
    | none =>
      cases s with
      | nil => exact nothing
      | cons c rest =>
        exact char (interpolation?_eq_none_iff.1 hi) (ih rest.length (by simp) rest rfl)

theorem span_eq (inside s : List Char) : openingMark ++ inside ++ closingMark ++ s =
    '{' :: (('{' :: inside ++ closingMark) ++ s) := by simp [openingMark]

theorem length_span (inside : List Char) :
    inside.length + 3 = ('{' :: inside ++ closingMark).length := by simp [closingMark]

theorem textRunFrom_append (read s : List Char) :
    textRunFrom read.length (read ++ s) = read ++ textRunFrom 0 s := by
  induction read with
  | nil => rfl
  | cons c read ih => rw [length_cons, cons_append, textRunFrom, ih]; rfl

theorem textRun_span (hi : FirstEnd closingMark inside) (s : List Char) :
    textRun (openingMark ++ inside ++ closingMark ++ s) =
      openingMark ++ inside ++ closingMark ++ textRun s := by
  have hfound : interpolation? (openingMark ++ inside ++ closingMark ++ s) = some inside :=
    interpolation?_eq_some_iff.2 ⟨s, rfl, hi⟩
  rw [span_eq] at hfound
  rw [span_eq, span_eq]
  simp only [textRun, textRunFrom, hfound, length_span, textRunFrom_append]

theorem textRun_eq_of_textRun {run} (h : TextRun rest run) : textRun (run ++ rest) = run := by
  induction h with
  | stop hr =>
    rcases hr with rfl | ⟨r, rfl⟩
    · rfl
    · rfl
  | @span inside run hi _ ih => rw [append_assoc, textRun_span hi, ih]
  | @char c run hc ho _ ih =>
    have hnone := interpolation?_eq_none_iff.2 ho
    rw [cons_append] at hnone ⊢
    rw [textRun, textRunFrom, hnone]
    simp only [hc]
    exact congrArg (c :: ·) ih

theorem exists_textRun (s : List Char) : ∃ run rest, s = run ++ rest ∧ TextRun rest run := by
  induction s using induction_ahead with
  | nothing => exact ⟨[], [], rfl, .stop (.inl rfl)⟩
  | span hi s ih =>
    obtain ⟨run, rest, rfl, hr⟩ := ih
    exact ⟨_, rest, by simp only [append_assoc], .span hi hr⟩
  | @char c s ho ih =>
    by_cases hc : c = '<'
    · exact ⟨[], c :: s, rfl, .stop (.inr ⟨s, by rw [hc]⟩)⟩
    · obtain ⟨run, rest, rfl, hr⟩ := ih
      exact ⟨c :: run, rest, rfl, .char hc ho hr⟩

theorem TextRun.head_ne {run} (h : TextRun rest run) : run.head? ≠ some '<' := by
  cases h with
  | stop hr => simp
  | span hi hr => simp [openingMark]
  | char hc ho hr => simpa using hc

/-! ### Tags -/

/-- What may stand in a tag up to its end, given the quote that is open. -/
def TagTextFrom : Option Char → List Char → Prop
  | none, s => TagText s
  | some q, s => ∃ inside after, s = inside ++ q :: after ∧ q ∉ inside ∧ TagText after

theorem tagText_cons_iff :
    TagText (c :: s) ↔ c ≠ '<' ∧ c ≠ '>' ∧
      TagTextFrom (if c = '\"' || c = '\'' then some c else none) s := by
  constructor
  · intro h
    cases h with
    | plain hc hs => simp_all [TagTextFrom]
    | @quoted _ inside after hq hi hs =>
      rcases hq with rfl | rfl <;> exact ⟨by decide, by decide, inside, after, rfl, hi, hs⟩
  · rintro ⟨hl, hg, hs⟩
    by_cases hq : c = '\"' ∨ c = '\''
    · have hif : (if c = '\"' || c = '\'' then some c else none) = some c :=
        if_pos (by simpa using hq)
      rw [hif] at hs
      obtain ⟨inside, after, rfl, hi, ha⟩ := hs
      exact .quoted hq hi ha
    · exact .plain (by simp_all) (by simpa [hq, TagTextFrom] using hs)

theorem tagTextFrom_some_cons_iff :
    TagTextFrom (some q) (c :: s) ↔ TagTextFrom (if c = q then none else some q) s := by
  by_cases hc : c = q
  · subst hc
    rw [if_pos rfl]
    constructor
    · rintro ⟨_ | ⟨d, inside⟩, after, he, hi, ha⟩
      · exact (List.cons.inj he).2 ▸ ha
      · exact absurd (mem_cons.2 (.inl (List.cons.inj he).1)) hi
    · intro hs
      exact ⟨[], s, rfl, not_mem_nil, hs⟩
  · rw [if_neg hc]
    constructor
    · rintro ⟨_ | ⟨d, inside⟩, after, he, hi, ha⟩
      · exact absurd (List.cons.inj he).1 hc
      · exact ⟨inside, after, (List.cons.inj he).2, fun h => hi (mem_cons_of_mem d h), ha⟩
    · rintro ⟨inside, after, rfl, hi, ha⟩
      exact ⟨c :: inside, after, rfl, by simp [hi, Ne.symm hc], ha⟩

theorem takeTagText?_eq_some_iff {quote} :
    takeTagText? quote s = some (inside, rest) ↔
      s = inside ++ '>' :: rest ∧ TagTextFrom quote inside := by
  fun_induction takeTagText? quote s generalizing inside with
  | case1 quote => cases quote <;> simp
  | case2 q c cs ih =>
    rw [map_cons_eq_some_iff]
    cases inside with
    | nil => simp [TagTextFrom]
    | cons d inside =>
      rw [tagTextFrom_some_cons_iff]
      grind
  | case3 cs | case4 cs =>
    cases inside with
    | nil => simp [TagTextFrom, TagText.nil]
    | cons d inside => simp [TagTextFrom, tagText_cons_iff]; grind
  | case5 c cs hg hl ih =>
    rw [map_cons_eq_some_iff]
    cases inside with
    | nil => simp [hg]
    | cons d inside =>
      rw [TagTextFrom, tagText_cons_iff]
      grind

theorem takeWhile_dropWhile_append {back} (hf : ∀ c ∈ front, p c = true)
    (hb : ∀ c ∈ back.head?, p c = false) :
    (front ++ back).takeWhile p = front ∧ (front ++ back).dropWhile p = back := by
  rw [takeWhile_append_of_pos hf, dropWhile_append_of_pos hf]
  cases back with
  | nil => simp
  | cons c back =>
    have hc : p c = false := hb c (by simp)
    simp [hc]

theorem isTagChar_of_isSpace (h : isSpace c = true) : isTagChar c = false := by
  simp only [isSpace, Bool.or_eq_true, beq_iff_eq] at h
  obtain (((rfl | rfl) | rfl) | rfl) | rfl := h <;> decide

variable {token : Token}

theorem takeClosing_eq_ok_iff :
    Token.takeClosing s = .ok (token, rest) ↔
      ∃ name spaces, s = name ++ spaces ++ '>' :: rest ∧ token = .closing (String.ofList name) ∧
        name ≠ [] ∧ (∀ c ∈ name, isTagChar c = true) ∧ ∀ c ∈ spaces, isSpace c = true := by
  constructor
  · intro h
    simp only [Token.takeClosing] at h
    split at h
    · rename_i after hafter
      split at h
      · cases h
      · rename_i hne
        cases h
        refine ⟨s.takeWhile isTagChar, (s.dropWhile isTagChar).takeWhile isSpace, ?_, rfl, ?_, ?_,
          ?_⟩
        · rw [append_assoc, ← hafter, takeWhile_append_dropWhile,
            takeWhile_append_dropWhile]
        · intro he
          exact hne (by rw [he]; rfl)
        · exact fun c hc => mem_takeWhile_imp hc
        · exact fun c hc => mem_takeWhile_imp hc
    · cases h
  · rintro ⟨name, spaces, rfl, rfl, hn, ht, hs⟩
    have hback : ∀ c ∈ (spaces ++ '>' :: rest).head?, isTagChar c = false := by
      cases spaces with
      | nil =>
        intro c hc
        cases hc
        decide
      | cons d spaces =>
        intro c hc
        cases hc
        exact isTagChar_of_isSpace (hs d (by simp))
    obtain ⟨htake, hdrop⟩ := takeWhile_dropWhile_append ht hback
    have hgt : ∀ c ∈ ('>' :: rest).head?, isSpace c = false := by
      intro c hc
      cases hc
      decide
    have hafter := (takeWhile_dropWhile_append hs hgt).2
    rw [← append_assoc] at htake hdrop
    have hne : name.isEmpty = false := by
      cases name with
      | nil => exact absurd rfl hn
      | cons c name => rfl
    simp only [Token.takeClosing, htake, hdrop, hafter, hne]
    rfl

variable {blanks : List Char}

theorem trimEnd_append_blanks (hb : ∀ c ∈ blanks, isBlank c = true)
    (hf : ∀ c ∈ front.getLast?, isBlank c = false) : trimEnd (front ++ blanks) = front := by
  have hb' : ∀ c ∈ blanks.reverse, isBlank c = true := fun c hc => hb c (mem_reverse.1 hc)
  have hf' : ∀ c ∈ front.reverse.head?, isBlank c = false := by
    rw [head?_reverse]
    exact hf
  rw [trimEnd, reverse_append, (takeWhile_dropWhile_append hb' hf').2, reverse_reverse]

theorem exists_trimEnd (s : List Char) : ∃ blanks, s = trimEnd s ++ blanks ∧
    (∀ c ∈ blanks, isBlank c = true) ∧ ∀ c ∈ (trimEnd s).getLast?, isBlank c = false := by
  refine ⟨(s.reverse.takeWhile isBlank).reverse, ?_, ?_, ?_⟩
  · rw [trimEnd, ← reverse_append, takeWhile_append_dropWhile, reverse_reverse]
  · intro c hc
    exact mem_takeWhile_imp (mem_reverse.1 hc)
  · intro c hc
    rw [trimEnd, getLast?_reverse] at hc
    have hnot := head?_dropWhile_not isBlank s.reverse
    rw [mem_def.1 hc] at hnot
    simpa using hnot

theorem takeSlash_slash (hb : ∀ c ∈ blanks, isBlank c = true) :
    Token.takeSlash (front ++ '/' :: blanks) = (true, front) := by
  have htrim : trimEnd (front ++ '/' :: blanks) = front ++ ['/'] := by
    have hlast : ∀ c ∈ (front ++ ['/']).getLast?, isBlank c = false := by
      intro c hc
      rw [getLast?_append] at hc
      cases hc
      decide
    rw [← trimEnd_append_blanks hb hlast, append_assoc]
    rfl
  rw [Token.takeSlash, htrim]
  simp

theorem takeSlash_plain (hb : ∀ c ∈ blanks, isBlank c = true)
    (he : ∀ c ∈ front.getLast?, isBlank c = false ∧ c ≠ '/') :
    Token.takeSlash (front ++ blanks) = (false, front) := by
  have htrim := trimEnd_append_blanks hb fun c hc => (he c hc).1
  rw [Token.takeSlash, htrim]
  split
  · rename_i back hback
    have hlast : front.getLast? = some '/' := by rw [← head?_reverse, hback]; rfl
    exact absurd rfl (he '/' hlast).2
  · rw [reverse_reverse]

theorem slash_cases (s : List Char) : ∃ front blanks, (∀ c ∈ blanks, isBlank c = true) ∧
    (s = front ++ '/' :: blanks ∨
      s = front ++ blanks ∧ ∀ c ∈ front.getLast?, isBlank c = false ∧ c ≠ '/') := by
  obtain ⟨blanks, hs, hb, hl⟩ := exists_trimEnd s
  by_cases h : (trimEnd s).getLast? = some '/'
  · obtain ⟨front, hfront⟩ := getLast?_eq_some_iff.1 h
    refine ⟨front, blanks, hb, .inl ?_⟩
    rw [hs, hfront, append_assoc]
    rfl
  · refine ⟨trimEnd s, blanks, hb, .inr ⟨hs, fun c hc => ⟨hl c hc, ?_⟩⟩⟩
    rintro rfl
    exact h hc

theorem takeComment_eq_ok_iff :
    Token.takeComment s = .ok (token, rest) ↔
      ∃ body, s = body ++ ['-', '-', '>'] ++ rest ∧ FirstEnd ['-', '-', '>'] body ∧
        token = .comment := by
  have hcut (body : List Char) : cut? ['-', '-', '>'] s = some (body, rest) ↔
      s = body ++ ['-', '-', '>'] ++ rest ∧ FirstEnd ['-', '-', '>'] body :=
    cut?_eq_some_iff (cons_ne_nil _ _)
  simp only [← and_assoc, ← hcut, Token.takeComment]
  cases cut? ['-', '-', '>'] s with
  | none => simp
  | some p => simp [Prod.ext_iff, and_comm, eq_comm]

theorem isTagChar_of_isLetter (h : isLetter c = true) : isTagChar c = true := by
  simp [isTagChar, isAlphanumeric, h]

theorem takeOpening_eq_ok_iff :
    Token.takeOpening s = .ok (token, rest) ↔
      ∃ name inside, s = name ++ inside ++ '>' :: rest ∧
        (∃ c ∈ name.head?, isLetter c = true) ∧ (∀ c ∈ name, isTagChar c = true) ∧
        (∀ c ∈ inside.head?, isTagChar c = false) ∧ TagText inside ∧
        token = .opening (String.ofList name) (attributes (Token.takeSlash inside).2)
          (Token.takeSlash inside).1 := by
  constructor
  · intro h
    cases s with
    | nil => cases h
    | cons c cs =>
      simp only [Token.takeOpening] at h
      split at h
      · rename_i hl
        split at h
        · rename_i inside after htag
          cases h
          obtain ⟨hs, ht⟩ := takeTagText?_eq_some_iff.1 htag
          refine ⟨(c :: cs).takeWhile isTagChar, inside, ?_, ⟨c, ?_, hl⟩, ?_, ?_, ht, rfl⟩
          · rw [append_assoc, ← hs, takeWhile_append_dropWhile]
          · simp [isTagChar_of_isLetter hl]
          · exact fun d hd => mem_takeWhile_imp hd
          · intro d hd
            have hnot := head?_dropWhile_not isTagChar (c :: cs)
            rw [hs, List.head?_append, mem_def.1 hd] at hnot
            simpa using hnot
        · cases h
      · cases h
  · rintro ⟨name, inside, rfl, ⟨c, hc, hl⟩, ht, hi, htag, rfl⟩
    have hback : ∀ d ∈ (inside ++ '>' :: rest).head?, isTagChar d = false := by
      cases inside with
      | nil =>
        intro d hd
        cases hd
        decide
      | cons e inside => exact hi
    obtain ⟨htake, hdrop⟩ := takeWhile_dropWhile_append ht hback
    have htext : takeTagText? none (inside ++ '>' :: rest) = some (inside, rest) :=
      takeTagText?_eq_some_iff.2 ⟨rfl, htag⟩
    cases name with
    | nil => cases hc
    | cons d name =>
      cases hc
      simp only [append_assoc, cons_append] at htake hdrop ⊢
      simp only [Token.takeOpening, hl, htake, hdrop, htext]
      rfl

/-! ### The first token -/

theorem first_eq_takeOpening (hbang : s.head? ≠ some '!') (hslash : s.head? ≠ some '/') :
    Token.first ('<' :: s) = Token.takeOpening s := by
  unfold Token.first
  split
  · simp_all
  · simp_all
  · simp_all
  · simp_all

theorem first_eq_text (h : s.head? ≠ some '<') :
    Token.first s = .ok (.text (String.ofList (textRun s)), s.drop (textRun s).length) := by
  unfold Token.first
  split
  · simp at h
  · simp at h
  · simp at h
  · rfl

theorem spells_opening {name} (rest : List Char) (hl : ∃ c ∈ name.head?, isLetter c = true)
    (ht : ∀ c ∈ name, isTagChar c = true) (hi : ∀ c ∈ inside.head?, isTagChar c = false)
    (hf : TagText inside) :
    Spells rest (.opening (String.ofList name) (attributes (Token.takeSlash inside).2)
      (Token.takeSlash inside).1) (['<'] ++ name ++ inside ++ ['>']) := by
  obtain ⟨front, blanks, hb, rfl | ⟨rfl, he⟩⟩ := slash_cases inside
  · rw [takeSlash_slash hb]
    exact .selfClosing hl ht hi hf hb
  · rw [takeSlash_plain hb he]
    exact .opening hl ht hi hf hb he

theorem exists_spells_of_first {cs} (h : Token.first (c :: cs) = .ok (token, rest)) :
    ∃ written, c :: cs = written ++ rest ∧ Spells rest token written := by
  by_cases hc : c = '<'
  · unfold Token.first at h
    split at h
    · rename_i after hs
      obtain ⟨body, rfl, hf, rfl⟩ := takeComment_eq_ok_iff.1 h
      refine ⟨_, ?_, .comment hf⟩
      rw [hs]
      simp
    · rename_i after _ hs
      obtain ⟨name, spaces, rfl, rfl, hn, ht, hsp⟩ := takeClosing_eq_ok_iff.1 h
      refine ⟨_, ?_, .closing hn ht hsp⟩
      rw [hs]
      simp
    · rename_i after _ _ hs
      obtain ⟨name, inside, rfl, hl, ht, hi, hf, rfl⟩ := takeOpening_eq_ok_iff.1 h
      refine ⟨_, ?_, spells_opening rest hl ht hi hf⟩
      rw [hs]
      simp
    · rename_i hno
      exact absurd (by rw [hc]) (hno cs)
  · rw [first_eq_text (by simpa using hc)] at h
    cases h
    obtain ⟨run, rest, hs, hr⟩ := exists_textRun (c :: cs)
    have hrun : textRun (c :: cs) = run := by rw [hs, textRun_eq_of_textRun hr]
    have hdrop : (c :: cs).drop run.length = rest := by rw [hs, drop_left]
    rw [hrun, hdrop]
    refine ⟨run, hs, .text ?_ hr⟩
    rintro rfl
    -- an empty run would have to stand before the end or a `<`
    cases hr with
    | stop hstop =>
      rcases hstop with rfl | ⟨r, rfl⟩
      · cases hs
      · cases hs
        exact hc rfl

theorem first_opening {name} (hl : ∃ c ∈ name.head?, isLetter c = true)
    (ht : ∀ c ∈ name, isTagChar c = true) (hi : ∀ c ∈ inside.head?, isTagChar c = false)
    (hf : TagText inside) :
    Token.first (['<'] ++ name ++ inside ++ ['>'] ++ rest) =
      .ok (.opening (String.ofList name) (attributes (Token.takeSlash inside).2)
        (Token.takeSlash inside).1, rest) := by
  have htake : Token.takeOpening (name ++ inside ++ '>' :: rest) = .ok (_, rest) :=
    takeOpening_eq_ok_iff.2 ⟨name, inside, rfl, hl, ht, hi, hf, rfl⟩
  obtain ⟨d, hd, hletter⟩ := hl
  have hhead : (name ++ inside ++ '>' :: rest).head? = some d := by
    rw [append_assoc, List.head?_append, mem_def.1 hd]
    rfl
  have hopen := first_eq_takeOpening
    (by rw [hhead]; rintro ⟨rfl⟩; revert hletter; decide)
    (by rw [hhead]; rintro ⟨rfl⟩; revert hletter; decide)
  rw [← htake, ← hopen]
  simp

variable {written : List Char}

theorem first_of_spells (h : Spells rest token written) :
    Token.first (written ++ rest) = .ok (token, rest) := by
  cases h with
  | @comment body hb =>
    have htake : Token.takeComment (body ++ ['-', '-', '>'] ++ rest) = .ok (.comment, rest) :=
      takeComment_eq_ok_iff.2 ⟨body, rfl, hb, rfl⟩
    rw [← htake]
    simp [Token.first]
  | @closing name spaces hn ht hs =>
    have htake : Token.takeClosing (name ++ spaces ++ '>' :: rest) = .ok (_, rest) :=
      takeClosing_eq_ok_iff.2 ⟨name, spaces, rfl, rfl, hn, ht, hs⟩
    rw [← htake]
    simp [Token.first]
  | opening hl ht hi hf hb he =>
    rw [first_opening hl ht hi hf, takeSlash_plain hb he]
  | selfClosing hl ht hi hf hb =>
    rw [first_opening hl ht hi hf, takeSlash_slash hb]
  | text hn hr =>
    have hhead : (written ++ rest).head? ≠ some '<' := by
      cases written with
      | nil => exact absurd rfl hn
      | cons c run => exact hr.head_ne
    rw [first_eq_text hhead, textRun_eq_of_textRun hr, drop_left]

theorem Spells.ne_nil (h : Spells rest token written) : written ≠ [] := by
  cases h with
  | text hn hr => exact hn
  | comment | closing | opening | selfClosing => simp

/-! ### All tokens -/

theorem scanFrom_append (file : String) (position : Position) (read s : List Char) :
    scanFrom file position read.length (read ++ s) = scanFrom file (position.after read) 0 s := by
  induction read generalizing position with
  | nil => rfl
  | cons c read ih => rw [length_cons, cons_append, scanFrom, ih, Position.after_cons]

theorem scanFrom_of_spells (file : String) (position : Position) (hw : Spells rest token written) :
    scanFrom file position 0 (written ++ rest) =
      (⟨token, position, excerpt (written ++ rest)⟩ ::
          (scanFrom file (position.after written) 0 rest).1,
        (scanFrom file (position.after written) 0 rest).2) := by
  have hfirst := first_of_spells hw
  cases written with
  | nil => exact absurd rfl hw.ne_nil
  | cons c read =>
    have hlen : (read ++ rest).length - rest.length = read.length := by simp
    rw [cons_append] at hfirst ⊢
    rw [scanFrom, hfirst]
    simp only [hlen, scanFrom_append, Position.after_cons]

theorem scanFrom_of_splits {tokens} (h : Splits s tokens) (file : String) (position : Position) :
    ∃ lexemes, scanFrom file position 0 s = (lexemes, none) ∧
      lexemes.map Lexeme.token = tokens := by
  induction h generalizing position with
  | nil => exact ⟨[], rfl, rfl⟩
  | @cons token written rest tokens hw _ ih =>
    obtain ⟨lexemes, hrest, rfl⟩ := ih (position.after written)
    rw [scanFrom_of_spells file position hw, hrest]
    exact ⟨_, rfl, rfl⟩

/-- A token with the text that stands before it. -/
structure Read where
  before : List Char
  token : Token

/-- Whether a text, with another one before it, is read as some tokens up to a point. -/
inductive Reads : List Char → List Char → List Read → List Char → List Char → Prop
  | done {before s : List Char} : Reads before s [] before s
  | token {before written rest before' rest' : List Char} {token : Token} {reads : List Read}
      (hw : Spells rest token written) (hr : Reads (before ++ written) rest reads before' rest') :
      Reads before (written ++ rest) (⟨before, token⟩ :: reads) before' rest'

variable {before before' : List Char} {reads : List Read}

theorem Reads.append_eq (h : Reads before s reads before' rest) :
    before ++ s = before' ++ rest := by
  induction h with
  | done => rfl
  | token _ _ ih => rw [← append_assoc, ih]

theorem Reads.splits (h : Reads before s reads before' []) : Splits s (reads.map Read.token) := by
  generalize hr : [] = rest at h
  induction h with
  | done => exact hr ▸ .nil
  | token hw _ ih => exact .cons hw (ih hr)

/-- A scan finds the tokens that it reads at the places where they stand, and is stopped, if it is,
where no token can be read. -/
theorem exists_reads_of_scanFrom (file : String) (origin : Position) (before s : List Char) :
    ∃ reads before' rest, Reads before s reads before' rest ∧
      List.Forall₂ (fun l r => l.token = r.token ∧ l.position = origin.after r.before)
        (scanFrom file (origin.after before) 0 s).1 reads ∧
      (rest = [] ∧ (scanFrom file (origin.after before) 0 s).2 = none ∨
        ∃ problem, Token.first rest = .error problem ∧
          (scanFrom file (origin.after before) 0 s).2 =
            some ⟨problem, file, origin.after before', some (excerpt rest)⟩) := by
  induction hn : s.length using Nat.strongRecOn generalizing before s with
  | ind n ih =>
    cases s with
    | nil => exact ⟨[], before, [], .done, .nil, .inl ⟨rfl, rfl⟩⟩
    | cons c cs =>
      cases hfirst : Token.first (c :: cs) with
      | error problem =>
        refine ⟨[], before, c :: cs, .done, ?_, .inr ⟨problem, hfirst, ?_⟩⟩
        · rw [scanFrom, hfirst]
          exact .nil
        · rw [scanFrom, hfirst]
      | ok found =>
        obtain ⟨token, rest⟩ := found
        obtain ⟨written, hs, hw⟩ := exists_spells_of_first hfirst
        have hlt : rest.length < n := by
          have hpos := length_pos_iff.2 hw.ne_nil
          rw [← hn, hs, length_append]
          omega
        obtain ⟨reads, before', rest', hreads, hlexemes, hfault⟩ :=
          ih rest.length hlt (before ++ written) rest rfl
        rw [Position.after_append] at hlexemes hfault
        refine ⟨⟨before, token⟩ :: reads, before', rest', ?_, ?_, ?_⟩
        · rw [hs]
          exact .token hw hreads
        · rw [hs, scanFrom_of_spells _ _ hw]
          exact .cons ⟨rfl, rfl⟩ hlexemes
        · rw [hs, scanFrom_of_spells _ _ hw]
          exact hfault

theorem splits_of_scanFrom {file : String} {position : Position} {lexemes : List Lexeme}
    (h : scanFrom file position 0 s = (lexemes, none)) :
    Splits s (lexemes.map Lexeme.token) := by
  obtain ⟨reads, before, rest, hreads, hlexemes, hend⟩ :=
    exists_reads_of_scanFrom file position [] s
  have hscan : scanFrom file (position.after []) 0 s = (lexemes, none) := h
  rw [hscan] at hlexemes hend
  have htokens : lexemes.map Lexeme.token = reads.map Read.token := by
    rw [← forall₂_eq_eq_eq, forall₂_map_left_iff, forall₂_map_right_iff]
    exact hlexemes.imp fun _ _ h => h.1
  obtain ⟨rfl, -⟩ := hend.resolve_right (by simp)
  exact htokens ▸ hreads.splits

/-- A text is written with one sequence of tokens at most. -/
theorem Splits.unique {tokens tokens'} (h : Splits s tokens) (h' : Splits s tokens') :
    tokens = tokens' := by
  obtain ⟨lexemes, hscan, rfl⟩ := scanFrom_of_splits h "" .start
  obtain ⟨lexemes', hscan', rfl⟩ := scanFrom_of_splits h' "" .start
  rw [hscan] at hscan'
  cases hscan'
  rfl

end ReactiveMarkup.Markup
