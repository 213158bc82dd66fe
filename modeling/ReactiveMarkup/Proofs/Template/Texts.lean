/-
Texts as they are scanned and as they are cut.

A scan looks for the `<` that ends a text, and a text is cut into literals and expressions once the
whole template has been read.  Both pass over marks that are closed as one piece, but the scan sees
all of the template that follows, and the cut only the text.

* `texts_cut_as_scanned`: the pieces are the same, so no literal holds a `<`.
-/
import ReactiveMarkup.Proofs.Markup.Segments
import ReactiveMarkup.Proofs.Positions

namespace ReactiveMarkup.Markup

open Text List

/-! ### Pieces -/

/-- What is passed over at once. -/
inductive Piece where
  | char (c : Char)
  | span (inside : List Char)
  deriving DecidableEq

def Piece.text : Piece → List Char
  | char c => [c]
  | span inside => openingMark ++ inside ++ closingMark

/-- The pieces of a text up to a character that ends it.  The first `skip` characters have been
passed over. -/
def piecesFrom (ends : Char → Bool) : Nat → List Char → List Piece
  | _, [] => []
  | skip + 1, _ :: cs => piecesFrom ends skip cs
  | 0, c :: cs =>
    match interpolation? (c :: cs) with
    | some inside => .span inside :: piecesFrom ends (inside.length + 3) cs
    | none => if ends c then [] else .char c :: piecesFrom ends 0 cs

/-- The pieces that a scan for the end of a text passes over. -/
def passed (s : List Char) : List Piece := piecesFrom (· == '<') 0 s

/-- The pieces of a whole text. -/
def pieces (s : List Char) : List Piece := piecesFrom (fun _ => false) 0 s

/-- The parts that pieces make, after plain characters, last one first. -/
def partsFrom : List Char → List Piece → List Segment
  | plain, [] => flush plain
  | plain, .char c :: ps => partsFrom (c :: plain) ps
  | plain, .span inside :: ps =>
    if inside.all Text.isBlank then partsFrom ((Piece.span inside).text.reverse ++ plain) ps
    else flush plain ++ .expression (String.ofList (trim inside)) :: partsFrom [] ps

variable {inside s : List Char} {c : Char} {ps : List Piece}

theorem piecesFrom_append (ends : Char → Bool) (read s : List Char) :
    piecesFrom ends read.length (read ++ s) = piecesFrom ends 0 s := by
  induction read with
  | nil => rfl
  | cons c read ih => rw [length_cons, cons_append, piecesFrom, ih]

theorem piecesFrom_span (ends : Char → Bool) (hi : FirstEnd closingMark inside) (s : List Char) :
    piecesFrom ends 0 (openingMark ++ inside ++ closingMark ++ s) =
      .span inside :: piecesFrom ends 0 s := by
  have hfound : interpolation? (openingMark ++ inside ++ closingMark ++ s) = some inside :=
    interpolation?_eq_some_iff.2 ⟨s, rfl, hi⟩
  rw [span_eq] at hfound ⊢
  simp only [piecesFrom, hfound, length_span, piecesFrom_append]

theorem piecesFrom_char (ends : Char → Bool) (ho : ¬ OpensSpan (c :: s)) (hc : ends c = false) :
    piecesFrom ends 0 (c :: s) = .char c :: piecesFrom ends 0 s := by
  simp [piecesFrom, interpolation?_eq_none_iff.2 ho, hc]

theorem textRun_eq (s : List Char) : textRun s = (passed s).flatMap Piece.text := by
  induction s using induction_ahead with
  | nothing => rfl
  | span hi s ih => rw [textRun_span hi, ih, passed, passed, piecesFrom_span _ hi]; rfl
  | @char c s ho ih =>
    simp only [textRun, textRunFrom, passed, piecesFrom, interpolation?_eq_none_iff.2 ho]
    by_cases hc : c = '<'
    · simp [hc]
    · simpa [hc, Piece.text] using! ih

theorem segmentsFrom_eq (plain s : List Char) :
    segmentsFrom 0 plain s = partsFrom plain (pieces s) := by
  induction s using induction_ahead generalizing plain with
  | nothing => rfl
  | span hi s ih =>
    rw [segmentsFrom_span hi, pieces, piecesFrom_span _ hi, partsFrom, ← pieces, ← ih, ← ih]
    rfl
  | char ho ih =>
    rw [segmentsFrom_char ho, pieces, piecesFrom_char _ ho rfl, partsFrom, ← pieces, ← ih]

/-- What follows a run of text has no say in its pieces. -/
theorem TextRun.pieces {rest run} (h : TextRun rest run) :
    passed (run ++ rest) = Markup.pieces run ∧ .char '<' ∉ Markup.pieces run := by
  induction h with
  | stop hr =>
    rcases hr with rfl | ⟨r, rfl⟩
    · exact ⟨rfl, not_mem_nil⟩
    · exact ⟨rfl, not_mem_nil⟩
  | span hi _ ih =>
    rw [append_assoc, passed, piecesFrom_span _ hi, Markup.pieces, piecesFrom_span _ hi]
    exact ⟨congrArg _ ih.1, fun h => ih.2 (by simpa using! h)⟩
  | @char c run hc ho _ ih =>
    have ho' : ¬ OpensSpan (c :: run) := by
      rintro ⟨inside, after, he⟩
      exact ho ⟨inside, after ++ rest, by rw [he, append_assoc]⟩
    rw [cons_append] at ho ⊢
    rw [passed, piecesFrom_char _ ho (by simpa using hc), Markup.pieces, piecesFrom_char _ ho' rfl]
    exact ⟨congrArg _ ih.1, fun h => ih.2 (by simpa [hc.symm] using! h)⟩

/-! ### Where a `<` can stand -/

theorem not_mem_literal {plain} (hp : '<' ∉ plain) (hc : .char '<' ∉ ps) :
    ∀ t, .literal t ∈ partsFrom plain ps → '<' ∉ t.toList := by
  have hflush {plain : List Char} (hp : '<' ∉ plain) {t : String}
      (ht : .literal t ∈ flush plain) : '<' ∉ t.toList := by
    rw [flush] at ht
    split_ifs at ht
    · simp at ht
    · obtain rfl := Segment.literal.inj (mem_singleton.1 ht)
      simpa using hp
  induction ps generalizing plain with
  | nil => exact fun t => hflush hp
  | cons p ps ih =>
    have hps : .char '<' ∉ ps := fun h => hc (.tail _ h)
    cases p with
    | char c =>
      refine ih ?_ hps
      simp only [mem_cons, not_or]
      exact ⟨fun h => hc (h ▸ .head _), hp⟩
    | span inside =>
      rw [partsFrom]
      split_ifs with hb
      · refine ih ?_ hps
        have hin : '<' ∉ inside := fun h => absurd (all_eq_true.1 hb _ h) (by decide)
        simpa [Piece.text, openingMark, closingMark, hp] using hin
      · intro t ht
        rcases mem_append.1 ht with ht | ht
        · exact hflush hp ht
        · exact ih not_mem_nil hps t (by simpa using ht)

theorem expression_mem_partsFrom (plain : List Char) (h : .span inside ∈ ps)
    (hb : inside.all Text.isBlank = false) :
    .expression (String.ofList (trim inside)) ∈ partsFrom plain ps := by
  induction ps generalizing plain with
  | nil => cases h
  | cons p ps ih =>
    rcases mem_cons.1 h with rfl | hmem
    · simp [partsFrom, hb]
    · cases p with
      | char c => exact ih _ hmem
      | span other =>
        rw [partsFrom]
        split_ifs
        · exact ih _ hmem
        · exact mem_append_right _ (.tail _ (ih _ hmem))

/-- A `<` is passed over in an expression only. -/
theorem exists_expression (hc : .char '<' ∉ ps) (hp : p ∈ ps) (hl : '<' ∈ p.text) :
    ∃ inside, p = .span inside ∧ '<' ∈ trim inside ∧
      .expression (String.ofList (trim inside)) ∈ partsFrom [] ps := by
  cases p with
  | char c =>
    obtain rfl := mem_singleton.1 hl
    exact absurd hp hc
  | span inside =>
    have hin : '<' ∈ inked inside :=
      mem_filter.2 ⟨by simpa [Piece.text, openingMark, closingMark] using hl, by decide⟩
    have hb : inside.all Text.isBlank = false := by
      rw [Bool.eq_false_iff, Ne, ← inked_eq_nil_iff]
      exact ne_nil_of_mem hin
    rw [← inked_trim] at hin
    exact ⟨inside, rfl, (mem_filter.1 hin).1, expression_mem_partsFrom _ hp hb⟩

end ReactiveMarkup.Markup

namespace ReactiveMarkup.Template

open List Markup

/-- **What the scan passes over is what the cut finds.**  Each text of a template has been read
where it stands.  The pieces that the scan passed over there, with all of the template ahead, are
those that the text is cut into; a `<` among them is inside an expression, so no literal holds
one. -/
theorem texts_cut_as_scanned {file : String} {origin : Text.Position} {text : String}
    {markup : List Markup.Node} {nodes : List Node} (h : parse file origin text = .ok markup)
    (hl : lower file markup = .ok nodes) :
    ∀ parts ∈ textsIn nodes, (∀ t, .literal t ∈ parts → '<' ∉ t.toList) ∧
      ∃ content reads before rest, parts = segments content ∧
        Reads [] text.toList reads before (content.toList ++ rest) ∧
        Token.first (content.toList ++ rest) = .ok (.text content, rest) ∧
        textRun (content.toList ++ rest) = (passed (content.toList ++ rest)).flatMap Piece.text ∧
        passed (content.toList ++ rest) = pieces content.toList ∧
        parts = partsFrom [] (pieces content.toList) ∧
        ∀ p ∈ pieces content.toList, '<' ∈ p.text → ∃ inside, p = .span inside ∧
          '<' ∈ Text.trim inside ∧ .expression (String.ofList (Text.trim inside)) ∈ parts := by
  intro parts hparts
  obtain ⟨tokens, hsplits, -, hmarks⟩ := exists_splits_of_parse h
  obtain ⟨reads, hreads, -⟩ := exists_reads_of_parse h
  rw [(kept_of_lower hl).2, hmarks] at hparts
  obtain ⟨mark, hmark, hsome⟩ := mem_filterMap.mp hparts
  obtain ⟨token, htoken, hmem⟩ := mem_flatMap.mp hmark
  obtain ⟨content, rfl, rfl⟩ : ∃ content, token = .text content ∧ segments content = parts := by
    cases mark with
    | text content =>
      refine ⟨content, ?_, Option.some.inj hsome⟩
      cases token <;> grind [Token.marks]
    | _ => cases hsome
  rw [hsplits.unique hreads.splits] at htoken
  obtain ⟨r, hr, hrtoken⟩ := mem_map.mp htoken
  obtain ⟨earlier, written, rest, hearlier, hspells⟩ := hreads.of_mem hr
  rw [hrtoken] at hspells
  have hfirst := first_of_spells hspells
  obtain ⟨rfl, hne, hrun⟩ : content.toList = written ∧ content ≠ "" ∧
    TextRun rest content.toList := by
    cases hspells with
    | text hn hr => simpa using ⟨hn, hr⟩
  obtain ⟨hscan, hchar⟩ := hrun.pieces
  have hcut : segments content = partsFrom [] (pieces content.toList) := by
    rw [(segments_eq hne).1, segmentsFrom_eq]
  rw [hcut]
  exact ⟨not_mem_literal not_mem_nil hchar, content, earlier, r.before, rest, hcut.symm, hearlier,
    hfirst, textRun_eq _, hscan, rfl, fun p => exists_expression hchar⟩

/-- A `<` in an expression, and marks with nothing between them. -/
def comparison : String := "<p>\x7b\x7b a < b \x7d\x7d \x7b\x7b\x7d\x7d</p>"

theorem texts_cut_as_scanned_comparison : ∃ markup nodes,
    parse "a.tanni" .start comparison = .ok markup ∧ lower "a.tanni" markup = .ok nodes ∧
    textsIn nodes = [[.expression "a < b", .literal " \x7b\x7b\x7d\x7d"]] ∧
    ∀ parts ∈ textsIn nodes, ∀ t, .literal t ∈ parts → '<' ∉ t.toList := by
  have hparse : parse "a.tanni" .start comparison = .ok [.element ⟨"p", [], ⟨1, 1⟩⟩
      [.text "\x7b\x7b a < b \x7d\x7d \x7b\x7b\x7d\x7d"]] := by rfl
  refine ⟨_, _, hparse, rfl, by decide +kernel, fun parts hparts => ?_⟩
  exact (texts_cut_as_scanned hparse rfl parts hparts).1

end ReactiveMarkup.Template
