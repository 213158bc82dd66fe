/-
Sections that are written one after the other are cut apart again.

A script may hold any text but its own closing tag, and so may a style.  Scripts and styles are
looked for in the whole file, and only the template is looked for outside of them.  A tag that a
style mentions is therefore harmless, since the script and the template stand before it, and so is
a template that the script mentions.  But a style that the script mentions is a section of the file
like any other: it is collected, and if the script does not close it, it runs on over the template.

* `Parts.ofText_text`: the file is cut into its parts, unless the script mentions a style.
-/
import ReactiveMarkup.Proofs.Component.Blocks

namespace ReactiveMarkup.Component

open Text List

variable {q name s : List Char} {styles : List (List Char)}

/-! ### Styles in turn -/

def styleTexts (styles : List (List Char)) : List Char :=
  styles.flatMap (written "style".toList [])

theorem fresh_styleTexts : ∀ styles : List (List Char), Fresh (styleTexts styles)
  | [] => nofun
  | _ :: _ => fresh_cons _

theorem tagName_style : TagName "style".toList := by decide

theorem blocksFrom_styleTexts_cons {css} (h : cutFolded? (closingTag "style".toList) css = none)
    (offset : Nat) :
    blocksFrom "style".toList offset 0 (styleTexts (css :: styles)) =
      ⟨⟨offset, offset + (written "style".toList [] css).length⟩, [], css⟩ ::
        blocksFrom "style".toList (offset + (written "style".toList [] css).length) 0
          (styleTexts styles) := by
  exact blocksFrom_written tagName_style (by simp) rfl h offset

theorem bodies_styleTexts
    (h : ∀ css ∈ styles, cutFolded? (closingTag "style".toList) css = none) (offset : Nat) :
    (blocksFrom "style".toList offset 0 (styleTexts styles)).map Block.body = styles := by
  induction styles generalizing offset with
  | nil => rfl
  | cons css styles ih =>
    rw [blocksFrom_styleTexts_cons (h css (.head _)), map_cons,
      ih fun other ho => h other (mem_cons_of_mem css ho)]

theorem exists_has_styleTexts
    (h : ∀ css ∈ styles, cutFolded? (closingTag "style".toList) css = none) {offset i}
    (hi : offset ≤ i) (hi' : i < offset + (styleTexts styles).length) :
    ∃ b ∈ blocksFrom "style".toList offset 0 (styleTexts styles), b.span.has i = true := by
  induction styles generalizing offset with
  | nil => exact absurd hi' (by simpa [styleTexts] using hi)
  | cons css styles ih =>
    rw [blocksFrom_styleTexts_cons (h css (.head _))]
    by_cases hin : i < offset + (written "style".toList [] css).length
    · exact ⟨_, .head _, by simp only [Span.has, hi, hin, decide_true, Bool.and_self]⟩
    · have hlen : (styleTexts (css :: styles)).length =
          (written "style".toList [] css).length + (styleTexts styles).length := by
        rw [styleTexts, flatMap_cons, length_append, styleTexts]
      obtain ⟨b, hb, hhas⟩ := ih (fun other ho => h other (mem_cons_of_mem css ho))
        (Nat.le_of_not_lt hin) (by omega)
      exact ⟨b, .tail _ hb, hhas⟩

/-- What is collected of styles with the given bodies. -/
def shown (bodies : List (List Char)) : List String :=
  (bodies.map fun css => String.ofList (trim css)).filter fun css => !css.isEmpty

/-! ### Where the template is found -/

theorem openingsFrom_append (hname : '>' ∉ name) (offset : Nat) (hk : k ≤ x.length)
    (hx : Closed x) :
    ∃ earlier, openingsFrom name offset k (x ++ s) =
        earlier ++ openingsFrom name (offset + x.length) 0 s ∧
      ∀ r ∈ earlier, r.start < offset + x.length := by
  induction x generalizing offset k with
  | nil =>
    cases Nat.le_zero.1 hk
    exact ⟨[], rfl, by simp⟩
  | cons c x ih =>
    have hnext {k : Nat} (hk : k ≤ x.length) : ∃ earlier,
        openingsFrom name (offset + 1) k (x ++ s) =
          earlier ++ openingsFrom name (offset + (c :: x).length) 0 s ∧
        ∀ r ∈ earlier, r.start < offset + (c :: x).length := by
      have h := ih (offset + 1) hk hx.tail
      rwa [Nat.add_assoc, Nat.add_comm 1] at h
    cases k with
    | succ k => exact hnext (Nat.le_of_succ_le_succ hk)
    | zero =>
      rw [cons_append, openingsFrom]
      split
      · rename_i attributes rest hopening
        obtain ⟨front, hfront, hlen⟩ := hx.exists_front s
        rw [hfront] at hopening
        obtain ⟨y, rfl, hy⟩ := exists_of_openingTag? hname hopening
        obtain ⟨earlier, he, hearlier⟩ :=
          hnext (k := (c :: (x ++ s)).length - (y ++ s).length - 1) (by simp; omega)
        refine ⟨_ :: earlier, by rw [cons_append, ← he], ?_⟩
        rw [forall_mem_cons]
        exact ⟨by simp, hearlier⟩
      · exact hnext (Nat.zero_le _)

theorem occurrencesFrom_append (pat : List Char) (offset : Nat) (x s : List Char) :
    ∃ earlier, occurrencesFrom pat offset (x ++ s) =
      earlier ++ occurrencesFrom pat (offset + x.length) s := by
  induction x generalizing offset with
  | nil => exact ⟨[], rfl⟩
  | cons c x ih =>
    obtain ⟨earlier, he⟩ := ih (offset + 1)
    rw [Nat.add_assoc, Nat.add_comm 1] at he
    rw [cons_append, occurrencesFrom]
    split_ifs
    · exact ⟨offset :: earlier, by rw [he]; rfl⟩
    · exact ⟨earlier, he⟩

theorem mem_occurrencesFrom {pat} {offset i} (h : i ∈ occurrencesFrom pat offset s) :
    offset ≤ i ∧ i < offset + s.length := by
  induction s generalizing offset with
  | nil => cases h
  | cons c s ih =>
    rw [occurrencesFrom] at h
    have hlater (h : i ∈ occurrencesFrom pat (offset + 1) s) :
        offset ≤ i ∧ i < offset + (c :: s).length := by
      have := ih h
      rw [length_cons]
      omega
    split_ifs at h
    · rcases mem_cons.1 h with rfl | h
      · simp
      · exact hlater h
    · exact hlater h

def outside (excluded : List Span) (offset : Nat) : Bool := !excluded.any fun r => r.has offset

theorem templateSpan_eq (file : String) {excluded} (opening : Span) {closing}
    (ho : (openingsFrom "template".toList 0 0 s).find? (fun r => outside excluded r.start) =
      some opening) (hc : ((occurrencesFrom "</template>".toList 0 s).filter fun i =>
      opening.stop ≤ i && outside excluded i).getLast? = some closing) :
    templateSpan file s excluded = .ok ⟨opening.stop, closing⟩ := by
  simp only [outside] at ho hc
  simp only [templateSpan, ho, hc]
  rfl

/-! ### Files in their written form -/

/-- What a file is written from. -/
structure Parts where
  language : List Char
  script : List Char
  template : List Char
  styles : List (List Char)

namespace Parts

def scriptText (p : Parts) : List Char :=
  written "script".toList (" lang=\"".toList ++ p.language ++ ['\"']) p.script

def templateText (p : Parts) : List Char := written "template".toList [] p.template

def text (p : Parts) : List Char := p.scriptText ++ (p.templateText ++ styleTexts p.styles)

def sections (p : Parts) : Sections where
  template := String.ofList p.template
  script := String.ofList (trim p.script)
  language := String.ofList (p.language.map toLower)
  styles := shown p.styles
  origin := Position.start.after (p.scriptText ++ "<template>".toList)

/-- No body holds the tag that ends it, and the template opens none of the other sections. -/
structure Fitting (p : Parts) : Prop where
  language : ∀ c ∈ p.language, isWord c = true
  script : ¬ Mentions "</script>" p.script
  template : p.template.all isBlank = false
  tags : ∀ tag ∈ ["<script", "<style"], ¬ Mentions tag p.template
  styles : ∀ css ∈ p.styles, ¬ Mentions "</style>" css

variable {p : Parts}

theorem cutFolded?_templateText (hq : '<' ∉ q)
    (hd : ∀ t, dropFolded? q ("template>".toList ++ t) = none)
    (hc : cutFolded? ('<' :: q) (closingTag "template".toList) = none)
    (ht : cutFolded? ('<' :: q) p.template = none) :
    cutFolded? ('<' :: q) p.templateText = none := by
  have hopening := cutFolded?_opening (by decide) (hd p.template) ht
  have hmiddle := cutFolded?_append_eq_none hq (fresh_cons _) hopening hc
  exact hmiddle

theorem exists_openingsFrom_templateText (p : Parts) (offset : Nat) (s : List Char) :
    ∃ later, openingsFrom "template".toList offset 0 (p.templateText ++ s) =
      ⟨offset, offset + 10⟩ :: later := by
  obtain ⟨rest, hrest⟩ : ∃ rest, p.templateText ++ s =
      '<' :: ("template".toList ++ [] ++ '>' :: rest) :=
    ⟨p.template ++ closingTag "template".toList ++ s, by simp [templateText, written]⟩
  have hopening : openingTag? "template".toList ('<' :: "template".toList ++ [] ++ '>' :: rest) =
      some ([], rest) := openingTag?_written (by decide) not_mem_nil rfl
  have hsize : ('<' :: ("template".toList ++ [] ++ '>' :: rest)).length - rest.length = 10 := by
    simp
    omega
  rw [cons_append, cons_append] at hopening
  rw [hrest, openingsFrom, hopening]
  simp only [hsize]
  exact ⟨_, rfl⟩

theorem occurrencesFrom_closingTag (offset : Nat) (s : List Char) :
    occurrencesFrom "</template>".toList offset ("</template>".toList ++ s) =
      offset :: occurrencesFrom "</template>".toList (offset + 11) s := by
  simp [occurrencesFrom, drop?]

theorem templateSpan_text (file : String) {excluded}
    (hscript : ⟨0, p.scriptText.length⟩ ∈ excluded)
    (hbetween : ∀ r ∈ excluded, r.stop ≤ p.scriptText.length ∨
      p.scriptText.length + p.templateText.length ≤ r.start)
    (hstyles : ∀ i, p.scriptText.length + p.templateText.length ≤ i → i < p.text.length →
      ∃ r ∈ excluded, r.has i = true) :
    templateSpan file p.text excluded = .ok ⟨p.scriptText.length + 10,
      p.scriptText.length + 10 + p.template.length⟩ := by
  have hsize : p.templateText.length = 10 + p.template.length + 11 := by
    simp [templateText, written, closingTag]
    omega
  have hinside (i : Nat) (hi : i < p.scriptText.length) : outside excluded i = false := by
    simp only [outside, Bool.not_eq_false', any_eq_true]
    exact ⟨_, hscript, by simp [Span.has, hi]⟩
  have houtside (i : Nat) (hi : p.scriptText.length ≤ i)
      (hi' : i < p.scriptText.length + p.templateText.length) : outside excluded i = true := by
    simp only [outside, Bool.not_eq_true', any_eq_false, Span.has, Bool.and_eq_true,
      decide_eq_true_eq]
    rintro r hr ⟨hstart, hstop⟩
    rcases hbetween r hr with h | h <;> omega
  refine templateSpan_eq file ⟨p.scriptText.length, p.scriptText.length + 10⟩ ?_ ?_
  · -- the opening tags before the template begin in the script
    obtain ⟨earlier, he, hearlier⟩ := openingsFrom_append
      (by decide : '>' ∉ "template".toList) 0
      (Nat.zero_le _)
      (closed_written "script".toList (" lang=\"".toList ++ p.language ++ ['\"']) p.script)
    rw [Nat.zero_add, ← scriptText] at he hearlier
    obtain ⟨later, hlater⟩ := exists_openingsFrom_templateText p p.scriptText.length
      (styleTexts p.styles)
    have hnone : earlier.find? (fun r => outside excluded r.start) = none := by
      rw [find?_eq_none]
      intro r hr
      simp [hinside r.start (hearlier r hr)]
    have hfirst := houtside p.scriptText.length (Nat.le_refl _) (by omega)
    rw [text, he, find?_append, hnone, Option.none_or, hlater, find?_cons, hfirst]
  · -- the closing tags after it stand in styles
    obtain ⟨earlier, he⟩ := occurrencesFrom_append "</template>".toList 0
      (p.scriptText ++ "<template>".toList ++ p.template)
      ("</template>".toList ++ styleTexts p.styles)
    have htext : p.scriptText ++ "<template>".toList ++ p.template ++
        ("</template>".toList ++ styleTexts p.styles) = p.text := by
      simp [text, templateText, written, closingTag]
    have hlength : (p.scriptText ++ "<template>".toList ++ p.template).length =
        p.scriptText.length + 10 + p.template.length := by
      rw [length_append, length_append]
      rfl
    rw [htext, hlength, Nat.zero_add, occurrencesFrom_closingTag] at he
    have hnone : (occurrencesFrom "</template>".toList
        (p.scriptText.length + 10 + p.template.length + 11) (styleTexts p.styles)).filter
          (fun i => p.scriptText.length + 10 ≤ i && outside excluded i) = [] := by
      rw [filter_eq_nil_iff]
      intro i hi
      obtain ⟨hle, hlt⟩ := mem_occurrencesFrom hi
      have hlast : i < p.text.length := by
        simp only [text, length_append]
        omega
      obtain ⟨r, hr, hhas⟩ := hstyles i (by omega) hlast
      simp only [outside, Bool.and_eq_true, Bool.not_eq_true', any_eq_false, not_and]
      exact fun _ h => h r hr hhas
    have hkept := houtside (p.scriptText.length + 10 + p.template.length) (by omega) (by omega)
    rw [he, filter_append, filter_cons, hkept, hnone]
    simp

theorem language?_eq {language} (hl : '\"' ∉ language) :
    language? (" lang=\"".toList ++ language ++ ['\"']) =
      some (String.ofList (language.map toLower)) := by
  have hvalue : attributeValue? ('\"' :: (language ++ ['\"'])) =
      some (language, language.length + 2) := by
    simp only [attributeValue?]
    rw [cut?_char_iff.2 ⟨rfl, hl⟩]
  have htext : " lang=\"".toList ++ language ++ ['\"'] =
      ' ' :: 'l' :: ("ang".toList ++ '=' :: '\"' :: (language ++ ['\"'])) := by simp
  have hattribute : attributesFrom 0 ('l' :: ("ang".toList ++ '=' :: '\"' :: (language ++ ['\"'])))
      = ("lang".toList, some language) :: attributesFrom (4 + (language.length + 2))
          ("ang".toList ++ '=' :: '\"' :: (language ++ ['\"'])) := by
    have hdrop : ("ang".toList ++ '=' :: '\"' :: (language ++ ['\"'])).dropWhile isAttributeChar =
        '=' :: '\"' :: (language ++ ['\"']) := rfl
    rw [attributesFrom, hdrop]
    simp only [hvalue]
    rfl
  rw [language?, htext, attributesFrom, hattribute]
  rfl

theorem blocks_script (h : p.Fitting) :
    blocks "script" p.text = ⟨⟨0, p.scriptText.length⟩,
        " lang=\"".toList ++ p.language ++ ['\"'], p.script⟩ ::
      blocksFrom "script".toList (p.scriptText.length + p.templateText.length) 0
        (styleTexts p.styles) := by
  have hscript : cutFolded? (closingTag "script".toList) p.script = none :=
    (cutFolded?_eq_none_iff "</script>" (by decide)).2 h.script
  have htemplate : cutFolded? ('<' :: "script".toList) p.templateText = none :=
    cutFolded?_templateText (by decide) (fun _ => rfl) (by decide)
      ((cutFolded?_eq_none_iff "<script" (by decide)).2 (h.tags _ (by simp)))
  have hattributes : '>' ∉ " lang=\"".toList ++ p.language ++ ['\"'] := by
    have hl : '>' ∉ p.language := fun hmem => absurd (h.language _ hmem) (by decide)
    simp [hl]
  rw [blocks, text, scriptText, blocksFrom_written (by decide) hattributes (by rfl) hscript,
    Nat.zero_add, blocksFrom_quiet (by decide) _ (fresh_styleTexts _) htemplate]

theorem quiet_styles (h : p.Fitting) :
    ∀ css ∈ p.styles, cutFolded? (closingTag "style".toList) css = none := fun css hcss =>
  (cutFolded?_eq_none_iff "</style>" (by decide)).2 (h.styles css hcss)

theorem blocks_style (h : p.Fitting) (hs : ¬ Mentions "<style" p.script) :
    blocks "style" p.text = blocksFrom "style".toList
      (p.scriptText.length + p.templateText.length) 0 (styleTexts p.styles) := by
  have hlanguage : '<' ∉ p.language := fun hmem => absurd (h.language _ hmem) (by decide)
  have hopening := cutFolded?_opening (q := "style".toList)
    (x := "script lang=\"".toList ++ p.language ++ "\">".toList) (by simp [hlanguage]) rfl
    ((cutFolded?_eq_none_iff "<style" (by decide)).2 hs)
  have hclosing : cutFolded? ('<' :: "style".toList) (closingTag "script".toList) = none := by
    decide
  have hmiddle := cutFolded?_append_eq_none (by decide) (fresh_cons _) hopening hclosing
  have hscript : cutFolded? ('<' :: "style".toList) p.scriptText = none := by
    simpa [scriptText, written, closingTag] using hmiddle
  have htemplate : cutFolded? ('<' :: "style".toList) p.templateText = none :=
    cutFolded?_templateText (by decide) (fun _ => rfl) (by decide)
      ((cutFolded?_eq_none_iff "<style" (by decide)).2 (h.tags _ (by simp)))
  have hfresh : Fresh (p.templateText ++ styleTexts p.styles) := fresh_cons _
  rw [blocks, text, blocksFrom_quiet (by decide) _ hfresh hscript, Nat.zero_add,
    blocksFrom_quiet (by decide) _ (fresh_styleTexts _) htemplate]

theorem templateSpan_eq_ok (file : String) (h : p.Fitting) (hs : ¬ Mentions "<style" p.script) :
    templateSpan file p.text ((blocks "script" p.text ++ blocks "style" p.text).map Block.span) =
      .ok ⟨p.scriptText.length + 10, p.scriptText.length + 10 + p.template.length⟩ := by
  rw [blocks_script h, blocks_style h hs]
  refine templateSpan_text file ?_ ?_ ?_
  · simp
  · simp only [cons_append, forall_mem_cons,
      forall_mem_append, forall_mem_map]
    exact ⟨.inl (Nat.le_refl _), fun b hb => .inr (le_start_of_mem_blocksFrom hb),
      fun b hb => .inr (le_start_of_mem_blocksFrom hb)⟩
  · intro i hi hi'
    have hlast : i < p.scriptText.length + p.templateText.length +
        (styleTexts p.styles).length := by
      simpa [text, Nat.add_assoc] using hi'
    obtain ⟨b, hb, hhas⟩ := exists_has_styleTexts (quiet_styles h) hi hlast
    exact ⟨b.span, mem_map_of_mem (mem_append_right _ hb), hhas⟩

/-- **Sections do not leak into each other.**  A file that is written from a script, a template and
styles is cut into them again, whatever tags their bodies mention, unless the script mentions an
opening tag of a style. -/
theorem ofText_text (file : String) (h : p.Fitting) (hs : ¬ Mentions "<style" p.script) :
    Sections.ofText file (String.ofList p.text) = .ok p.sections := by
  have hlanguage : '\"' ∉ p.language := fun hmem => absurd (h.language _ hmem) (by decide)
  have htext : p.text = p.scriptText ++ "<template>".toList ++ p.template ++
      (closingTag "template".toList ++ styleTexts p.styles) := by
    simp [text, templateText, written]
  have hstart : p.text.take (p.scriptText.length + 10) = p.scriptText ++ "<template>".toList := by
    rw [htext, append_assoc]
    exact take_left' (by simp)
  have hbody : (p.text.take (p.scriptText.length + 10 + p.template.length)).drop
      (p.scriptText.length + 10) = p.template := by
    rw [htext, take_left' (by simp; omega), drop_left' (by simp)]
  have hstyles : stylesOf (blocks "style" p.text) = shown p.styles := by
    have hbodies := bodies_styleTexts (quiet_styles h)
      (p.scriptText.length + p.templateText.length)
    rw [blocks_style h hs, ← congrArg shown hbodies, shown, map_map]
    rfl
  have hscript : scriptOf (blocks "script" p.text) =
      (String.ofList (trim p.script), String.ofList (p.language.map toLower)) := by
    rw [blocks_script h, scriptOf, language?_eq hlanguage]
    rfl
  simp only [Sections.ofText, String.toList_ofList, templateSpan_eq_ok file h hs, hstart, hbody,
    hstyles,
    hscript, h.template, bind, Except.bind]
  rfl

/-- Each body mentions tags of other sections, but the script none of a style that opens. -/
def crossing : Parts where
  language := "TS".toList
  script := " a = '<template>' + '</style>' ".toList
  template := "<template>b</template>".toList
  styles := ["</template><script>".toList, " ".toList, "c \x7b\x7d </script>".toList]

theorem ofText_text_crossing : crossing.Fitting ∧ ¬ Mentions "<style" crossing.script ∧
    Sections.ofText "page.tanni" (String.ofList crossing.text) = .ok crossing.sections := by
  have hfitting : crossing.Fitting := by
    refine ⟨all_eq_true.mp ?_, ?_, ?_, ?_, ?_⟩ <;> decide +kernel
  have hscript : ¬ Mentions "<style" crossing.script := by decide +kernel
  exact ⟨hfitting, hscript, ofText_text "page.tanni" hfitting hscript⟩

/-- A style that the script mentions without an end takes in the template. -/
theorem templateMissing_of_mentioned_style : ∃ p : Parts, p.Fitting ∧
    Sections.ofText "page.tanni" (String.ofList p.text) =
      .error (templateFault "page.tanni" .templateMissing) := by
  refine ⟨⟨"ts".toList, "a = '<style>'".toList, "<p>b</p>".toList, ["c \x7b\x7d".toList]⟩, ?_, ?_⟩
  · refine ⟨all_eq_true.mp ?_, ?_, ?_, ?_, ?_⟩ <;> decide +kernel
  · decide +kernel

end Parts

end ReactiveMarkup.Component
