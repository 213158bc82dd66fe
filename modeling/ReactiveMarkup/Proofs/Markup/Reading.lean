/-
Where tokens are read.

A scan walks over its text and keeps count of the place it has come to.  Here each
token goes together with the text that stands before it, so that its place is known
from that text alone, and so is the place of each element, and of each fault.
-/
import ReactiveMarkup.Proofs.Markup.Nesting

namespace ReactiveMarkup.Markup

open Text List

/-! ### Reading -/

variable {before before' s rest rest' : List Char} {reads : List Read}

theorem Reads.of_mem (h : Reads before s reads before' rest') (hr : r ∈ reads) :
    ∃ earlier written rest, Reads before s earlier r.before (written ++ rest) ∧
      Spells rest r.token written := by
  induction h with
  | done => simp at hr
  | @token before written rest _ _ token reads hw _ ih =>
    rcases mem_cons.1 hr with rfl | hr
    · exact ⟨[], written, rest, .done, hw⟩
    · obtain ⟨earlier, written', rest', hreads, hspells⟩ := ih hr
      exact ⟨⟨before, token⟩ :: earlier, written', rest', .token hw hreads, hspells⟩

theorem Reads.first_of_mem (h : Reads before s reads before' rest') (hr : r ∈ reads) :
    ∃ earlier here rest, Reads before s earlier r.before here ∧
      Token.first here = .ok (r.token, rest) := by
  obtain ⟨earlier, written, rest, hreads, hspells⟩ := h.of_mem hr
  exact ⟨earlier, written ++ rest, rest, hreads, first_of_spells hspells⟩

theorem Spells.opening_eq {name} {attributes} {slash} {written}
    (h : Spells rest (.opening name attributes slash) written) :
    ∃ inside, written = ('<' :: name.toList) ++ inside := by
  cases h with
  | opening | selfClosing => exact ⟨_, by simp; rfl⟩

/-! ### Tags of a tree -/

mutual

def tagsOf : Node → List Tag
  | .text _ => []
  | .element tag children => tag :: tagsIn children

def tagsIn : List Node → List Tag
  | [] => []
  | node :: rest => tagsOf node ++ tagsIn rest

end

def Token.tagAt? (token : Token) (position : Position) : Option Tag :=
  match token with
  | .opening name attributes _ => some ⟨name, attributes, position⟩
  | _ => none

def Token.isOpening : Token → Bool
  | .opening _ _ _ => true
  | _ => false

theorem Token.isSome_tagAt? (token : Token) (position : Position) :
    (token.tagAt? position).isSome = token.isOpening := by
  cases token <;> rfl

theorem Token.tagAt?_eq_some_iff {token : Token} {position} {tag} :
    token.tagAt? position = some tag ↔
      ∃ slash, token = .opening tag.name tag.attributes slash ∧ tag.position = position := by
  constructor
  · intro h
    cases token with
    | opening name attributes slash =>
      cases h
      exact ⟨slash, rfl, rfl⟩
    | comment | closing _ | text _ => cases h
  · rintro ⟨slash, rfl, rfl⟩
    rfl

theorem tagsIn_append (nodes others : List Node) :
    tagsIn (nodes ++ others) = tagsIn nodes ++ tagsIn others := by
  induction nodes with
  | nil => rfl
  | cons node nodes ih => rw [cons_append, tagsIn, ih, tagsIn, append_assoc]

/-- The tags that have been read while elements are open. -/
def tagsSoFar (level : List Node) : List Open → List Tag
  | [] => tagsIn level.reverse
  | o :: opens => tagsSoFar o.before opens ++ o.tag :: tagsIn level.reverse

theorem tagsSoFar_cons (node : Node) (level : List Node) (opens : List Open) :
    tagsSoFar (node :: level) opens = tagsSoFar level opens ++ tagsOf node := by
  cases opens <;> simp [tagsSoFar, tagsIn_append, tagsIn]

theorem tagsIn_of_build {file} {level} {opens} {fault} {lexemes} {nodes}
    (h : Node.build file level opens fault lexemes = .ok nodes) :
    tagsIn nodes = tagsSoFar level opens ++ lexemes.filterMap fun l =>
      l.token.tagAt? l.position := by
  fun_induction Node.build file level opens fault lexemes <;>
    simp_all +zetaDelta [Token.tagAt?, tagsSoFar_cons, tagsSoFar, tagsOf, tagsIn]

theorem filterMap_tagAt? {origin : Position} {lexemes : List Lexeme}
    (h : List.Forall₂ (fun l r => l.token = r.token ∧ l.position = origin.after r.before)
      lexemes reads) :
    (lexemes.filterMap fun l => l.token.tagAt? l.position) =
      reads.filterMap fun r => r.token.tagAt? (origin.after r.before) := by
  induction h with
  | nil => rfl
  | cons h _ ih => rw [filterMap_cons, filterMap_cons, h.1, h.2, ih]

/-- A template that has a tree is read to its end, and the tags of the tree are the opening tags
that are read. -/
theorem exists_reads_of_parse {file} {origin} {text} {nodes}
    (h : parse file origin text = .ok nodes) :
    ∃ reads, Reads [] text.toList reads text.toList [] ∧
      tagsIn nodes = reads.filterMap fun r => r.token.tagAt? (origin.after r.before) := by
  obtain ⟨reads, before, rest, hreads, hlexemes, hend⟩ :=
    exists_reads_of_scanFrom file origin [] text.toList
  have hbuild : Node.build file [] [] (scanFrom file (origin.after []) 0 text.toList).2
      (scanFrom file (origin.after []) 0 text.toList).1 = .ok nodes := h
  have htags := tagsIn_of_build hbuild
  rcases hend with ⟨rfl, _⟩ | ⟨problem, _, hfault⟩
  · have hall : before = text.toList := by simpa using hreads.append_eq.symm
    subst hall
    refine ⟨reads, hreads, ?_⟩
    rw [htags]
    exact filterMap_tagAt? hlexemes
  · rw [hfault] at hbuild
    exact absurd hbuild (build_ne_ok_of_fault _ _ _ _ _ _)

/-- What a fault in building a tree is about: what stopped the scan, a closing tag that closes
nothing or something else, or an element that is not closed. -/
inductive Misbuilt (file : String) (stopped : Option Fault) (opens : List Open)
    (lexemes : List Lexeme) : Fault → Prop
  | unread {fault : Fault} (h : stopped = some fault) : Misbuilt file stopped opens lexemes fault
  | stray {l : Lexeme} {name : String} {context : Option String} (hl : l ∈ lexemes)
      (ht : l.token = .closing name) :
      Misbuilt file stopped opens lexemes ⟨.strayClosing name, file, l.position, context⟩
  | mismatched {l : Lexeme} {expected name : String} {context : Option String} (hl : l ∈ lexemes)
      (ht : l.token = .closing name) (hne : expected ≠ name) :
      Misbuilt file stopped opens lexemes
        ⟨.mismatchedClosing expected name, file, l.position, context⟩
  | left {o : Open} (ho : o ∈ opens) :
      Misbuilt file stopped opens lexemes ⟨.unclosed o.tag.name, file, o.tag.position, none⟩
  | unclosed {l : Lexeme} {name : String} {attributes : List Attribute} (hl : l ∈ lexemes)
      (ht : l.token = .opening name attributes false) :
      Misbuilt file stopped opens lexemes ⟨.unclosed name, file, l.position, none⟩

section

variable {file : String} {stopped : Option Fault} {opens opens' : List Open} {lexeme : Lexeme}
  {lexemes : List Lexeme} {fault : Fault}

/-- A fault after a token that opens nothing. -/
theorem Misbuilt.cons (hopens : opens ⊆ opens') (h : Misbuilt file stopped opens lexemes fault) :
    Misbuilt file stopped opens' (lexeme :: lexemes) fault := by
  cases h with
  | unread h => exact .unread h
  | stray hl ht => exact .stray (.tail _ hl) ht
  | mismatched hl ht hne => exact .mismatched (.tail _ hl) ht hne
  | left ho => exact .left (hopens ho)
  | unclosed hl ht => exact .unclosed (.tail _ hl) ht

theorem Misbuilt.cons_open {name} {attributes} {level}
    (ht : lexeme.token = .opening name attributes false)
    (h : Misbuilt file stopped (⟨⟨name, attributes, lexeme.position⟩, level⟩ :: opens) lexemes
      fault) :
    Misbuilt file stopped opens (lexeme :: lexemes) fault := by
  cases h with
  | unread h => exact .unread h
  | stray hl ht => exact .stray (.tail _ hl) ht
  | mismatched hl ht hne => exact .mismatched (.tail _ hl) ht hne
  | left ho =>
    rcases mem_cons.1 ho with rfl | ho
    · exact .unclosed (.head _) ht
    · exact .left ho
  | unclosed hl ht => exact .unclosed (.tail _ hl) ht

end

theorem misbuilt_of_build {file} {level} {opens} {stopped} {lexemes} {fault}
    (h : Node.build file level opens stopped lexemes = .error fault) :
    Misbuilt file stopped opens lexemes fault := by
  fun_induction Node.build file level opens stopped lexemes with
  | case1 => cases h; exact .unread rfl
  | case2 => cases h
  | case3 => cases h; exact .left (.head _)
  | case4 _ _ _ _ _ _ ih | case5 _ _ _ _ _ _ _ _ ih | case6 _ _ _ _ _ _ _ _ ih
  | case7 _ _ _ _ _ _ _ _ _ _ _ ih | case9 _ _ _ _ _ _ _ _ ih =>
    exact (ih h).cons (List.Subset.refl _)
  | case8 _ _ _ _ _ name attributes slash ht _ hs ih =>
    have hplain : slash = false := by simp_all
    exact (ih h).cons_open (hplain ▸ ht)
  | case10 => cases h; exact .stray (.head _) ‹_›
  | case11 _ _ _ _ _ _ _ _ ih => exact (ih h).cons (subset_cons_self _ _)
  | case12 => cases h; exact .mismatched (.head _) ‹_› ‹_›

end ReactiveMarkup.Markup
