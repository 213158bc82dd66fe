/-
What the lines of a module show.

The text of a line tells what it does to blocks, and which of its names are local ones: the wording
between the pieces of a line holds neither of the signs that local names are written with.
-/
import ReactiveMarkup.Output.Module
import ReactiveMarkup.Proofs.Output.Names

namespace ReactiveMarkup.Output

open Template List Statement

/-! ### Lines -/

def depthAfter (depth : Nat) (drafts : List Draft) : Nat :=
  drafts.foldl (fun depth d => d.turn.after depth) depth

theorem blockDrafts_append (l l' : List Statement) :
    blockDrafts (l ++ l') = blockDrafts l ++ blockDrafts l' := by
  induction l with
  | nil => rfl
  | cons statement rest ih => simp [blockDrafts, ih]

/-! ### Braces -/

def Piece.first? : Piece → Option Char
  | .wording text => text.toList.head?
  | .runner | .bound _ | .used _ => some '_'
  | .given _ | .chosen _ => none

def Piece.last? : Piece → Option Char
  | .wording text => text.toList.getLast?
  | _ => none

/-- Whether a piece is no fixed wording with the signs that all local names have. -/
def Piece.isPlain : Piece → Bool
  | .wording text => text.toList.all fun c => c != '$' && c != '_'
  | _ => true

/-- Whether a line begins with a brace if it closes a block, and ends with one if it opens a
block. -/
def Draft.isFrank (d : Draft) : Bool :=
  match d.pieces.head?.bind Piece.first?, d.pieces.getLast?.bind Piece.last? with
  | some a, some b =>
    (a == '\x7d') == d.turn.isClosing && (b == '\x7b') == d.turn.isOpening &&
      d.pieces.all Piece.isPlain
  | _, _ => false

theorem Local.head_name (x : Local) : x.name.toList.head? = some '_' := by
  simp [Local.name]

theorem Piece.head_text {p : Piece} (h : p.first? = some a) : p.text.toList.head? = some a := by
  cases p with
  | wording text => exact h
  | given | chosen => cases h
  | runner =>
    cases h
    decide
  | bound x | used x =>
    cases h
    exact x.head_name

theorem Piece.getLast_text {p : Piece} (h : p.last? = some b) :
    p.text.toList.getLast? = some b := by
  cases p with
  | wording text => exact h
  | given | runner | bound | used | chosen => cases h

theorem Draft.toList_text (d : Draft) :
    d.text.toList = d.pieces.flatMap fun p => p.text.toList := by
  rw [Draft.text]
  induction d.pieces with
  | nil => rfl
  | cons p rest ih => rw [foldr_cons, String.toList_append, ih, flatMap_cons]

/-- What the text of a line shows of its blocks, and that fixed wording holds no local name. -/
structure Draft.Frank (d : Draft) : Prop where
  closing : d.text.toList.head? = some '\x7d' ↔ d.turn.isClosing = true
  opening : d.text.toList.getLast? = some '\x7b' ↔ d.turn.isOpening = true
  plain : ∀ text, .wording text ∈ d.pieces → '$' ∉ text.toList ∧ '_' ∉ text.toList

theorem Draft.isPlain_of_mem {d : Draft} (h : d.isFrank = true) (hp : p ∈ d.pieces) :
    p.isPlain = true := by
  rw [Draft.isFrank] at h
  split at h
  · exact all_eq_true.1 (Bool.and_eq_true_iff.1 h).2 p hp
  · cases h

theorem Draft.frank_of_isFrank {d : Draft} (h : d.isFrank = true) : d.Frank := by
  have hplain := fun text => Draft.isPlain_of_mem (p := .wording text) h
  rw [Draft.isFrank] at h
  split at h
  case h_2 => cases h
  case h_1 a b ha hb =>
    obtain ⟨first, hfirst, ha⟩ := Option.bind_eq_some_iff.1 ha
    obtain ⟨last, hlast, hb⟩ := Option.bind_eq_some_iff.1 hb
    obtain ⟨rest, hrest⟩ := head?_eq_some_iff.1 hfirst
    obtain ⟨init, hinit⟩ := getLast?_eq_some_iff.1 hlast
    have hstart : d.text.toList.head? = some a := by
      rw [d.toList_text, hrest, flatMap_cons, List.head?_append, Piece.head_text ha]
      rfl
    have hend : d.text.toList.getLast? = some b := by
      rw [d.toList_text, hinit, flatMap_append, flatMap_singleton, getLast?_append,
        Piece.getLast_text hb]
      rfl
    simp only [Bool.and_eq_true, beq_iff_eq] at h
    refine ⟨?_, ?_, ?_⟩
    · rw [hstart, ← h.1.1]
      simp
    · rw [hend, ← h.1.2]
      simp
    · intro text hmem
      have hsigns := all_eq_true.1 (hplain text hmem)
      exact ⟨fun hsign => by simpa using hsigns _ hsign, fun hsign => by simpa using hsigns _ hsign⟩

mutual

theorem Statement.isFrank_drafts (s : Statement) : s.drafts.all Draft.isFrank = true := by
  cases s with
  | effect body | loop _ _ body =>
    rw [drafts, cons_append, all_cons, all_append,
      all_isFrank_blockDrafts body]
    rfl
  | conditional condition body others =>
    rw [drafts, cons_append, all_cons, all_append,
      all_isFrank_blockDrafts body, others.isFrank_drafts]
    rfl
  | _ =>
    rw [drafts]
    rfl

theorem all_isFrank_blockDrafts : ∀ statements : List Statement,
    (blockDrafts statements).all Draft.isFrank = true
  | [] => rfl
  | s :: others => by
    rw [blockDrafts, all_append, s.isFrank_drafts, all_isFrank_blockDrafts others]
    rfl

theorem Alternatives.isFrank_drafts : ∀ a : Alternatives, a.drafts.all Draft.isFrank = true
  | .done => by
    rw [Alternatives.drafts]
    rfl
  | .otherwise body => by
    rw [Alternatives.drafts, cons_append, all_cons, all_append,
      all_isFrank_blockDrafts body]
    rfl
  | .elseIf condition body others => by
    rw [Alternatives.drafts, cons_append, all_cons, all_append,
      all_isFrank_blockDrafts body, others.isFrank_drafts]
    rfl

end

theorem Draft.isFrank_of_mem {statements} (h : d ∈ functionDrafts statements) :
    d.isFrank = true := by
  have hall : (functionDrafts statements).all isFrank = true := by
    rw [functionDrafts, all_append, all_isFrank_blockDrafts]
    rfl
  exact all_eq_true.1 hall d h

end ReactiveMarkup.Output
