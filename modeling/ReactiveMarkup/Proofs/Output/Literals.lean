/-
Texts in quotes are recovered from the lines that they are written into.

A literal ends at the first quote that is not part of an escape, and this is its last character,
whatever the text is that it stands for.  So a reader who knows nothing of a line but the rules of
literals finds where each of them begins and ends, and what it stands for.

* `quote_recovered`: literals, and the lines of a module that hold them.
-/
import Mathlib.Data.String.Basic
import ReactiveMarkup.Output.Draft
import ReactiveMarkup.Proofs.Text.Quoting

namespace ReactiveMarkup.Text

open List

theorem le_toNat_of_mem_escape (h : c ∈ escape s) : 0x20 ≤ c.toNat := by
  obtain ⟨d, -, h⟩ := mem_flatMap.1 h
  have hdigit : ∀ n, n < 16 → 0x20 ≤ (hexDigit n).toNat := by decide
  unfold escapeChar at h
  split_ifs at h with hq hs hb hf hn hr ht hlow
  -- the seven characters that have an escape of their own
  iterate 7 (· rcases mem_pair.1 h with rfl | rfl <;> decide)
  · have hi := hdigit (d.toNat / 16) (by omega)
    have lo := hdigit (d.toNat % 16) (by omega)
    simp only [mem_cons, not_mem_nil, or_false] at h
    rcases h with rfl | rfl | rfl | rfl | rfl | rfl <;> first | decide | assumption
  · exact mem_singleton.1 h ▸ Nat.le_of_not_lt hlow

/-- The texts that the literals in a line stand for.  The first `skip` characters have been read. -/
def literalsFrom? : Nat → List Char → Option (List String)
  | _, [] => some []
  | skip + 1, _ :: cs => literalsFrom? skip cs
  | 0, c :: cs =>
    if c = '\"' then do
      let (written, _) ← takeQuoted? cs
      let text ← unescape? written
      let more ← literalsFrom? (written.length + 1) cs
      return String.ofList text :: more
    else literalsFrom? 0 cs

/-- The texts in quotes on a line, as they are read. -/
def literals? (line : String) : Option (List String) := literalsFrom? 0 line.toList

/-- A line is built from texts in quotes, with wording around them that has no quotes. -/
inductive Recites : String → List String → Prop
  | last {gap : String} (h : '\"' ∉ gap.toList) : Recites gap []
  | wording {gap line : String} {texts : List String} (h : '\"' ∉ gap.toList)
      (hline : Recites line texts) : Recites (gap ++ line) texts
  | literal (text : String) {line : String} {texts : List String} (hline : Recites line texts) :
      Recites (quote text ++ line) (text :: texts)

theorem literalsFrom?_wording {gap} (h : '\"' ∉ gap) (s : List Char) :
    literalsFrom? 0 (gap ++ s) = literalsFrom? 0 s := by
  induction gap with
  | nil => rfl
  | cons c gap ih =>
    obtain ⟨hc, hgap⟩ := not_or.1 (mt mem_cons.2 h)
    rw [cons_append, literalsFrom?, if_neg (Ne.symm hc), ih hgap]

theorem literalsFrom?_skip (l s : List Char) :
    literalsFrom? l.length (l ++ s) = literalsFrom? 0 s := by
  induction l with
  | nil => rfl
  | cons c l ih => exact ih

theorem literalsFrom?_quote (text : String) (s : List Char) :
    literalsFrom? 0 ((quote text).toList ++ s) = (literalsFrom? 0 s).map (text :: ·) := by
  have hskip := literalsFrom?_skip (escape text.toList ++ ['\"']) s
  rw [length_append, length_singleton] at hskip
  simp only [quote, String.toList_ofList, cons_append, append_assoc, nil_append, literalsFrom?,
    takeQuoted?_escape, unescape?_escape, Option.bind_eq_bind, Option.bind_some] at hskip ⊢
  rw [hskip, Option.map_eq_bind, String.ofList_toList]
  rfl

theorem Recites.literals?_eq {line texts} (h : Recites line texts) :
    literals? line = some texts := by
  induction h with
  | @last gap h => simpa [literals?, literalsFrom?] using literalsFrom?_wording h []
  | wording h _ ih => rwa [literals?, String.toList_append, literalsFrom?_wording h]
  | literal text _ ih =>
    rw [literals?, String.toList_append, literalsFrom?_quote, ← literals?, ih]
    rfl

end ReactiveMarkup.Text

namespace ReactiveMarkup.Output

open List
open Text (quote escape takeQuoted? unescape? literals? Recites)
open Markup (Segment)

theorem Local.quote_notMem_name (x : Local) : '\"' ∉ x.name.toList := by
  have hstem : '\"' ∉ x.kind.stem.toList := by cases x.kind <;> decide
  have hdigits : '\"' ∉ Nat.toDigits 10 x.number := by
    intro h
    exact absurd (Nat.isDigit_of_mem_toDigits (by decide) (by decide) h) (by decide)
  simp [Local.name, hstem, hdigits]

/-- A line of a statement that begins with a local name and some wording. -/
theorem recites_line {texts rest} (depth : Nat) (before : String) (x : Local)
    (h : '\"' ∉ before.toList) (hrest : Recites rest texts) :
    Recites (line depth (before ++ (x.name ++ rest))) texts := by
  refine .wording ?_ (.wording h (.wording x.quote_notMem_name hrest))
  simp [mem_replicate]

theorem recites_dataCode (texts : List String) :
    Recites (dataCode (texts.map .literal) ++ ";") texts := by
  rw [dataCode]
  induction texts with
  | nil => exact .last (by decide)
  | cons text rest ih =>
    cases rest with
    | nil => exact .literal text (.last (by decide))
    | cons next rest =>
      simp only [map_cons, String.intercalate_cons_cons, String.append_assoc]
      exact .literal text (.wording (by decide) ih)

/-- **Literals cannot be left.**  A literal is a text between two quotes, of which the second is the
first one that is not escaped, whatever follows it.  It holds no control characters, and stands for
the text that it was written for.  A line that is built from literals is cut back into them: this
recovers tags, names and values of attributes, and texts. -/
theorem quote_recovered (s : String) :
    (∃ body, (quote s).toList = '\"' :: (body ++ ['\"']) ∧
      (∀ rest, takeQuoted? (body ++ '\"' :: rest) = some (body, rest)) ∧
      (∀ c ∈ (quote s).toList, 0x20 ≤ c.toNat) ∧ unescape? body = some s.toList) ∧
    (∀ line texts, Recites line texts → literals? line = some texts) ∧
    ∀ depth x tag name value texts,
      ((Statement.createElement x tag).lines depth).map literals? = [some [tag]] ∧
      ((Statement.setAttribute x name value).lines depth).map literals? = [some [name, value]] ∧
      ((Statement.setData x (texts.map .literal)).lines depth).map literals? = [some texts] := by
  refine ⟨⟨escape s.toList, String.toList_ofList, Text.takeQuoted?_escape s.toList, ?_,
    Text.unescape?_escape s.toList⟩, fun _ _ h => h.literals?_eq, ?_⟩
  · intro c hc
    rw [quote, String.toList_ofList, cons_append, mem_cons, mem_append, mem_singleton] at hc
    rcases hc with rfl | hc | rfl
    · decide
    · exact Text.le_toNat_of_mem_escape hc
    · decide
  · intro depth x tag name value texts
    have hwrite (pieces : List Piece) : write depth [⟨.stays, pieces⟩] =
        [line depth (Draft.text ⟨.stays, pieces⟩)] := rfl
    refine ⟨?_, ?_, ?_⟩
    · have h : Recites (line depth ("const " ++ (x.name ++ (" = document.createElement(" ++
          (quote tag ++ ");"))))) [tag] :=
        recites_line depth _ x (by decide) (.wording (by decide) (.literal tag (.last (by decide))))
      simpa [Statement.lines, Statement.drafts, hwrite, Draft.text, Piece.text, String.append_assoc]
        using h.literals?_eq
    · have h : Recites (line depth ("" ++ (x.name ++ (".setAttribute(" ++ (quote name ++ (", " ++
          (quote value ++ ");"))))))) [name, value] :=
        recites_line depth _ x (by decide) (.wording (by decide) (.literal name
          (.wording (by decide) (.literal value (.last (by decide))))))
      simpa [Statement.lines, Statement.drafts, hwrite, Draft.text, Piece.text, String.append_assoc]
        using h.literals?_eq
    · have h : Recites (line depth ("" ++ (x.name ++ (".data = " ++
          (dataCode (texts.map .literal) ++ ";"))))) texts :=
        recites_line depth _ x (by decide) (.wording (by decide) (recites_dataCode texts))
      simpa [Statement.lines, Statement.drafts, hwrite, Draft.text, Piece.text, String.append_assoc]
        using h.literals?_eq

end ReactiveMarkup.Output
