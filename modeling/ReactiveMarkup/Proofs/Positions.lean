/-
Places that are told point into the file.

Stages after the first one see only the text of the template, which stands somewhere
in the middle of the file.  Still, every place that they keep or report is a place in
the file: that of the token which the element was read from, or which is at fault.

* `places_in_file`: all places of a template are places in the file.
-/
import ReactiveMarkup.Proofs.Renaming
import ReactiveMarkup.Proofs.Template.Orphans
import ReactiveMarkup.Proofs.Template.Sorting
import ReactiveMarkup.Proofs.Text.Offsets

namespace ReactiveMarkup

open Text List
open Markup (Read Reads Tag Token Lexeme Misbuilt Spells tagsOf tagsIn)
open Template (Head headsOf headsIn)
open String (utf8Len utf8Len_append)

variable {attributes : List Markup.Attribute} {tag : Tag} {file : String}

namespace Template

/-! ### Elements -/

theorem Head.ofTag_ok {head} (h : Head.ofTag file tag = .ok head) :
    head.tag = tag.name ∧ head.position = tag.position := by
  obtain ⟨fault, he, -⟩ | ⟨-, head', he, each, rfl, -⟩ := sorts_ofTag file tag
  · cases h.symm.trans he
  · cases h.symm.trans he
    exact ⟨rfl, rfl⟩

theorem Head.ofTag_error {fault} (h : Head.ofTag file tag = .error fault) :
    fault.position = tag.position := by
  obtain ⟨fault', he, hfirst⟩ | ⟨-, head, he, -⟩ := sorts_ofTag file tag
  · cases h.symm.trans he
    obtain ⟨x, hx, hflaw⟩ := hfirst.exists_mem
    obtain ⟨a, -, rfl⟩ := mem_map.1 hx
    cases hflaw <;> rfl
  · cases h.symm.trans he

/-- The parts of a text. -/
def partsOf? : Markup.Mark → Option (List Markup.Segment)
  | .text content => some (Markup.segments content)
  | _ => none

mutual

theorem kept_of_ofMarkup : ∀ {markup : Markup.Node} {node : Node},
    Node.ofMarkup file markup = .ok node →
    List.Forall₂ (fun tag head => Head.ofTag file tag = .ok head) (tagsOf markup) (headsOf node) ∧
      textsOf node = markup.marks.filterMap partsOf?
  | .text _, _, h => by
    rw [Node.ofMarkup] at h
    cases h
    exact ⟨.nil, rfl⟩
  | .element tag children, _, h => by
    rw [Node.ofMarkup] at h
    obtain ⟨head, hhead, h⟩ := exists_of_bind_eq_ok h
    obtain ⟨nodes, hnodes, h⟩ := exists_of_bind_eq_ok h
    cases h
    obtain ⟨hheads, htexts⟩ := kept_of_lower hnodes
    exact ⟨.cons hhead hheads,
      by simp [textsOf, htexts, Markup.Node.marks, filterMap_cons, partsOf?]⟩

theorem kept_of_lower : ∀ {markup : List Markup.Node} {nodes : List Node},
    lower file markup = .ok nodes →
    List.Forall₂ (fun tag head => Head.ofTag file tag = .ok head) (tagsIn markup) (headsIn nodes) ∧
      textsIn nodes = (Markup.marksOf markup).filterMap partsOf?
  | [], _, h => by
    rw [lower] at h
    cases h
    exact ⟨.nil, rfl⟩
  | node :: rest, _, h => by
    rw [lower] at h
    obtain ⟨node', hnode, h⟩ := exists_of_bind_eq_ok h
    obtain ⟨rest', hrest, h⟩ := exists_of_bind_eq_ok h
    cases h
    obtain ⟨hhead, htext⟩ := kept_of_ofMarkup hnode
    obtain ⟨hheads, htexts⟩ := kept_of_lower hrest
    rw [tagsIn, headsIn, textsIn, Markup.marksOf, filterMap_append, htext, htexts]
    exact ⟨rel_append hhead hheads, rfl⟩

end

theorem headsIn_of_lower {markup} {nodes} (h : lower file markup = .ok nodes) :
    List.Forall₂ (fun tag head => Head.ofTag file tag = .ok head) (tagsIn markup) (headsIn nodes) :=
  (kept_of_lower h).1

mutual

theorem exists_tag_of_ofMarkup : ∀ {markup : Markup.Node} {fault : Fault},
    Node.ofMarkup file markup = .error fault →
      ∃ tag ∈ tagsOf markup, Head.ofTag file tag = .error fault
  | .text _, _, h => by
    rw [Node.ofMarkup] at h
    cases h
  | .element tag children, _, h => by
    rw [Node.ofMarkup] at h
    rcases exists_of_bind_eq_error h with h | ⟨head, _, h⟩
    · exact ⟨tag, mem_cons_self, h⟩
    · rcases exists_of_bind_eq_error h with h | ⟨_, _, h⟩
      · obtain ⟨other, hmem, hother⟩ := exists_tag_of_lower h
        exact ⟨other, mem_cons_of_mem _ hmem, hother⟩
      · cases h

theorem exists_tag_of_lower : ∀ {markup : List Markup.Node} {fault : Fault},
    lower file markup = .error fault → ∃ tag ∈ tagsIn markup, Head.ofTag file tag = .error fault
  | [], _, h => by
    rw [lower] at h
    cases h
  | node :: rest, _, h => by
    rw [lower] at h
    rw [tagsIn]
    rcases exists_of_bind_eq_error h with h | ⟨_, _, h⟩
    · obtain ⟨tag, hmem, htag⟩ := exists_tag_of_ofMarkup h
      exact ⟨tag, mem_append_left _ hmem, htag⟩
    · rcases exists_of_bind_eq_error h with h | ⟨_, _, h⟩
      · obtain ⟨tag, hmem, htag⟩ := exists_tag_of_lower h
        exact ⟨tag, mem_append_right _ hmem, htag⟩
      · cases h

end

mutual

theorem head_mem_headsOf {s : Site} {before : List Node} : ∀ {node : Node},
    s ∈ sitesOf before node → s.head ∈ headsOf node
  | .text _, h => by cases h
  | .element head children, h => by
    rw [headsOf]
    rcases mem_cons.1 h with rfl | h
    · exact mem_cons_self
    · exact mem_cons_of_mem _ (head_mem_headsIn h)

theorem head_mem_headsIn {s : Site} {before : List Node} : ∀ {nodes : List Node},
    s ∈ sitesIn before nodes → s.head ∈ headsIn nodes
  | [], h => by cases h
  | node :: rest, h => by
    rw [headsIn]
    rcases mem_append.1 h with h | h
    · exact mem_append_left _ (head_mem_headsOf h)
    · exact mem_append_right _ (head_mem_headsIn h)

end

theorem exists_head_of_planFrom (nodes : List Node) {fault}
    (h : planFrom file none nodes = .error fault) :
    ∃ head ∈ headsIn nodes, ∃ kind, head.directives.branchKind? = some kind ∧
      fault = orphan file kind head := by
  obtain ⟨s, hs, rfl⟩ := ((planFrom_outcome file none [] nodes fits_none_nil).error_iff fault).1 h
  have horphan := find?_some hs
  rw [Site.isOrphan, Bool.and_eq_true, Bool.and_eq_true, Option.isSome_iff_exists] at horphan
  obtain ⟨kind, hkind⟩ := horphan.1.2
  refine ⟨s.head, head_mem_headsIn (mem_of_find?_eq_some hs), kind, hkind, ?_⟩
  rw [Site.fault, Site.kind_of_branchKind? hkind]

end Template

/-! ### Faults -/

/-- What a fault says of the text where it was found: nothing can be read there, a closing tag that
does not close the innermost open element, an opening tag that is never closed or has an attribute
which is wrong, or that of an element which continues nothing.  The fault has the name of the
file. -/
inductive Concerns (file : String) : Fault → List Char → Prop
  | unread {s : List Char} {problem : Problem} {place : Position} {context : Option String}
      (h : Token.first s = .error problem) : Concerns file ⟨problem, file, place, context⟩ s
  | stray {s rest : List Char} {name : String} {place : Position} {context : Option String}
      (h : Token.first s = .ok (.closing name, rest)) :
      Concerns file ⟨.strayClosing name, file, place, context⟩ s
  | mismatched {s rest : List Char} {expected name : String} {place : Position}
      {context : Option String} (h : Token.first s = .ok (.closing name, rest))
      (hne : expected ≠ name) :
      Concerns file ⟨.mismatchedClosing expected name, file, place, context⟩ s
  | unclosed {s rest : List Char} {name : String} {attributes : List Markup.Attribute}
      {place : Position} (h : Token.first s = .ok (.opening name attributes false, rest)) :
      Concerns file ⟨.unclosed name, file, place, none⟩ s
  | directive {s rest : List Char} {tag : Tag} {slash : Bool} {fault : Fault}
      (h : Token.first s = .ok (.opening tag.name tag.attributes slash, rest))
      (hf : Head.ofTag file tag = .error fault) : Concerns file fault s
  | orphan {s rest : List Char} {tag : Tag} {slash : Bool} {head : Head} {kind : BranchKind}
      (h : Token.first s = .ok (.opening tag.name tag.attributes slash, rest))
      (hh : Head.ofTag file tag = .ok head) (hk : head.directives.branchKind? = some kind) :
      Concerns file (Template.orphan file kind head) s

/-- A fault is found at a place of a text that has been read up to there. -/
def FoundIn (file : String) (fault : Fault) (origin : Position) (text : List Char) : Prop :=
  ∃ reads before rest, Reads [] text reads before rest ∧ fault.position = origin.after before ∧
    Concerns file fault rest

section

variable {origin : Position} {text : String}

variable {fault : Fault}

theorem foundIn_of_parse (h : Markup.parse file origin text = .error fault) :
    FoundIn file fault origin text.toList := by
  obtain ⟨reads, before, rest, hreads, hlexemes, hend⟩ :=
    Markup.exists_reads_of_scanFrom file origin [] text.toList
  -- The token at fault has been read, at the place that it was found.
  have htoken : ∀ l ∈ (Markup.scanFrom file (origin.after []) 0 text.toList).1,
      ∃ reads before here rest, Reads [] text.toList reads before here ∧
        l.position = origin.after before ∧ Token.first here = .ok (l.token, rest) := by
    intro l hl
    obtain ⟨r, hr, htoken, hplace⟩ := exists_mem_of_forall₂ hlexemes hl
    obtain ⟨earlier, here, rest', hearlier, hfirst⟩ := hreads.first_of_mem hr
    exact ⟨earlier, r.before, here, rest', hearlier, hplace, htoken ▸ hfirst⟩
  cases Markup.misbuilt_of_build h with
  | unread hstopped =>
    rcases hend with ⟨_, hnone⟩ | ⟨problem, hfirst, hfault⟩
    · cases hnone.symm.trans hstopped
    · obtain rfl := Option.some.inj (hfault.symm.trans hstopped)
      exact ⟨reads, before, rest, hreads, rfl, .unread hfirst⟩
  | stray hl ht =>
    obtain ⟨reads, before, here, rest, hreads, hplace, hfirst⟩ := htoken _ hl
    exact ⟨reads, before, here, hreads, hplace, .stray (ht ▸ hfirst)⟩
  | mismatched hl ht hne =>
    obtain ⟨reads, before, here, rest, hreads, hplace, hfirst⟩ := htoken _ hl
    exact ⟨reads, before, here, hreads, hplace, .mismatched (ht ▸ hfirst) hne⟩
  | left ho => simp at ho
  | unclosed hl ht =>
    obtain ⟨reads, before, here, rest, hreads, hplace, hfirst⟩ := htoken _ hl
    exact ⟨reads, before, here, hreads, hplace, .unclosed (ht ▸ hfirst)⟩

variable {markup : List Markup.Node}

section

variable (h : Markup.parse file origin text = .ok markup)

include h

theorem exists_read_of_mem_tagsIn (htag : tag ∈ tagsIn markup) :
    ∃ reads before here rest slash, Reads [] text.toList reads before here ∧
      tag.position = origin.after before ∧
      Token.first here = .ok (.opening tag.name tag.attributes slash, rest) := by
  obtain ⟨reads, hreads, htags⟩ := Markup.exists_reads_of_parse h
  rw [htags] at htag
  obtain ⟨r, hr, hsome⟩ := mem_filterMap.1 htag
  obtain ⟨slash, htoken, hplace⟩ := Token.tagAt?_eq_some_iff.1 hsome
  obtain ⟨earlier, here, rest, hearlier, hfirst⟩ := hreads.first_of_mem hr
  exact ⟨earlier, r.before, here, rest, slash, hearlier, hplace, htoken ▸ hfirst⟩

theorem foundIn_of_lower
    (hfault : Template.lower file markup = .error fault) :
    FoundIn file fault origin text.toList := by
  obtain ⟨tag, htag, hof⟩ := Template.exists_tag_of_lower hfault
  obtain ⟨reads, before, here, rest, slash, hreads, hplace, hfirst⟩ :=
    exists_read_of_mem_tagsIn h htag
  exact ⟨reads, before, here, hreads, (Head.ofTag_error hof).trans hplace,
    .directive hfirst hof⟩

theorem foundIn_of_plan {nodes}
    (hnodes : Template.lower file markup = .ok nodes)
    (hfault : Template.plan file nodes = .error fault) :
    FoundIn file fault origin text.toList := by
  obtain ⟨head, hhead, kind, hkind, rfl⟩ := Template.exists_head_of_planFrom nodes hfault
  obtain ⟨tag, htag, hof⟩ :=
    exists_mem_of_forall₂ (Template.headsIn_of_lower hnodes).flip hhead
  obtain ⟨reads, before, here, rest, slash, hreads, hplace, hfirst⟩ :=
    exists_read_of_mem_tagsIn h htag
  exact ⟨reads, before, here, hreads, (Head.ofTag_ok hof).2.trans hplace,
    .orphan hfirst hof hkind⟩

end

end

theorem foundIn_of_compile {source} {options} {sections}
    (h : Component.Sections.ofText file source = .ok sections) {report}
    (hreport : compile source options = .error report) :
    ∃ fault : Fault, report = fault.report ∧
      FoundIn options.file fault sections.origin sections.template.toList := by
  have hsource : ∃ fault, compileSource source options = .error fault ∧
      fault.report = report := by
    rw [compile] at hreport
    cases hc : compileSource source options with
    | error fault =>
      rw [hc] at hreport
      exact ⟨fault, rfl, Except.error.inj hreport⟩
    | ok out =>
      rw [hc] at hreport
      cases hreport
  obtain ⟨fault, hfault, rfl⟩ := hsource
  refine ⟨fault, rfl, ?_⟩
  -- The sections are the same under the name in the options.
  replace h := (Component.alike_ofText file options.file source).eq_ok h
  rcases exists_of_bind_eq_error hfault with hbad | ⟨found, hfound, hfault⟩
  · cases h.symm.trans hbad
  obtain rfl := Except.ok.inj (h.symm.trans hfound)
  rcases exists_of_bind_eq_error hfault with hparse | ⟨markup, hparse, hfault⟩
  · exact foundIn_of_parse hparse
  · rcases exists_of_bind_eq_error hfault with hlower | ⟨nodes, hlower, hfault⟩
    · exact foundIn_of_lower hparse hlower
    · rcases exists_of_bind_eq_error hfault with hplan | ⟨items, _, hfault⟩
      · exact foundIn_of_plan hparse hlower hplan
      · cases hfault

/-! ### The template in its file -/

namespace Component

theorem start_le_stop_of_templateSpan {excluded} {span}
    (h : templateSpan file s excluded = .ok span) : span.start ≤ span.stop := by
  rw [templateSpan] at h
  dsimp only at h
  split at h
  · next opening _ =>
    split at h
    · next closing hlast =>
      obtain rfl := Except.ok.inj h
      have hmem := mem_of_getLast? hlast
      simp only [mem_filter, Bool.and_eq_true, decide_eq_true_eq] at hmem
      exact hmem.2.1
    · cases h
  · cases h

/-- The stretches of scripts and styles, in which no template starts or ends. -/
def excludedSpans (s : List Char) : List Span :=
  (blocks "script" s ++ blocks "style" s).map Block.span

theorem exists_template_of_ofText {source} {sections}
    (h : Sections.ofText file source = .ok sections) :
    ∃ span back, templateSpan file source.toList (excludedSpans source.toList) = .ok span ∧
      source.toList = source.toList.take span.start ++ (sections.template.toList ++ back) ∧
      sections.origin = Position.start.after (source.toList.take span.start) := by
  obtain ⟨span, hspan, h⟩ := exists_of_bind_eq_ok h
  dsimp only at h
  split at h
  · cases h
  · obtain rfl := Except.ok.inj h
    refine ⟨span, source.toList.drop span.stop, hspan, ?_, rfl⟩
    have hle := start_le_stop_of_templateSpan hspan
    have hfront :
        source.toList.take span.start = (source.toList.take span.stop).take span.start := by
      rw [take_take, Nat.min_eq_left hle]
    rw [String.toList_ofList, hfront, ← append_assoc, take_append_drop,
      take_append_drop]

end Component

open Component (Sections templateSpan excludedSpans)

/-- All that is told about places in a template is true of the file, in which the template stands at
the byte offset `start`. -/
structure PlacedIn (file source : String) (start : Nat) (sections : Sections) : Prop where
  text : StandsAt sections.template.toList source.toList start
  /-- Counting from where the template starts leads to places in the file. -/
  offsets : ∀ offset before, textBefore? offset sections.template.toList = some before →
    (sections.origin.after before).IsAt source.toList (start + offset)
  /-- Tokens have the places where they are read. -/
  tokens : ∃ reads before rest, Reads [] sections.template.toList reads before rest ∧
    List.Forall₂ (fun l r => l.token = r.token ∧
        l.position.IsAt source.toList (start + utf8Len r.before))
      (Markup.scan file sections.origin sections.template.toList).1 reads
  /-- Elements have the places of their own `<`, and there is one for each opening tag. -/
  elements : ∀ markup nodes, Markup.parse file sections.origin sections.template = .ok markup →
    Template.lower file markup = .ok nodes →
    ∃ reads, Reads [] sections.template.toList reads sections.template.toList [] ∧
      List.Forall₂
        (fun head r => (∃ attributes slash, r.token = .opening head.tag attributes slash) ∧
          StandsAt ('<' :: head.tag.toList) source.toList (start + utf8Len r.before) ∧
          head.position.IsAt source.toList (start + utf8Len r.before))
        (headsIn nodes) (reads.filter fun r => r.token.isOpening)
  /-- Reports have the place of what they are about, and the name that they are to have. -/
  reports : ∀ options report, compile source options = .error report →
    ∃ (fault : Fault) (reads : List Read) (before rest : List Char), report = fault.report ∧
      Reads [] sections.template.toList reads before rest ∧ Concerns options.file fault rest ∧
      report.position.IsAt source.toList (start + utf8Len before)

section

variable {front text back : List Char} {reads : List Read} {before rest : List Char}

theorem Markup.Reads.isAt (h : Reads [] text reads before rest) :
    ((Position.start.after front).after before).IsAt (front ++ (text ++ back))
      (utf8Len front + utf8Len before) := by
  have htext : text = before ++ rest := h.append_eq
  rw [htext, append_assoc]
  exact Position.isAt_after front before (rest ++ back)

theorem Markup.Reads.isAt_of_mem (h : Reads [] text reads before rest) (hr : r ∈ reads) :
    ((Position.start.after front).after r.before).IsAt (front ++ (text ++ back))
      (utf8Len front + utf8Len r.before) := by
  obtain ⟨earlier, written, rest', hearlier, _⟩ := h.of_mem hr
  exact hearlier.isAt

theorem Markup.Reads.standsAt_of_mem (h : Reads [] text reads before rest) (hr : r ∈ reads) {name}
    {slash} (ht : r.token = .opening name attributes slash) :
    StandsAt ('<' :: name.toList) (front ++ (text ++ back))
      (utf8Len front + utf8Len r.before) := by
  obtain ⟨earlier, written, rest', hearlier, hspells⟩ := h.of_mem hr
  rw [ht] at hspells
  obtain ⟨inside, rfl⟩ := hspells.opening_eq
  have htext : text = r.before ++ (('<' :: name.toList) ++ inside ++ rest') := hearlier.append_eq
  refine ⟨front ++ r.before, inside ++ rest' ++ back, ?_, ?_⟩
  · rw [htext, ← utf8Len_append, append_assoc r.before, ← append_assoc front]
    exact textBefore?_append _ _
  · simp [htext]

end

/-- **Places point into the file.**  Wherever the template stands, the places of its tokens and of
its elements, and those that are reported, are lines and columns of the whole file. -/
theorem places_in_file (file source : String) (sections : Sections)
    (h : Sections.ofText file source = .ok sections) :
    ∃ span, templateSpan file source.toList (excludedSpans source.toList) = .ok span ∧
      PlacedIn file source (utf8Len (source.toList.take span.start)) sections := by
  obtain ⟨span, back, hspan, hsource, horigin⟩ := Component.exists_template_of_ofText h
  refine ⟨span, hspan, ?_⟩
  generalize source.toList.take span.start = front at hsource horigin
  constructor
  case text =>
    refine ⟨front, back, ?_, hsource⟩
    rw [hsource]
    exact textBefore?_append front _
  case offsets =>
    intro offset before hbefore
    obtain ⟨after, htext, rfl⟩ := exists_append_of_textBefore? hbefore
    rw [hsource, horigin, htext, append_assoc]
    exact Position.isAt_after front before (after ++ back)
  case tokens =>
    obtain ⟨reads, before, rest, hreads, hlexemes, _⟩ :=
      Markup.exists_reads_of_scanFrom file sections.origin [] sections.template.toList
    refine ⟨reads, before, rest, hreads, ?_⟩
    have hat : ∀ r ∈ reads, (sections.origin.after r.before).IsAt source.toList
        (utf8Len front + utf8Len r.before) := by
      intro r hr
      rw [hsource, horigin]
      exact hreads.isAt_of_mem hr
    refine ((forall₂_and_left _ _).mpr ⟨hat, hlexemes.flip⟩).flip.imp ?_
    rintro l r ⟨hplace, htoken, hposition⟩
    exact ⟨htoken, hposition ▸ hplace⟩
  case elements =>
    intro markup nodes hparse hlower
    obtain ⟨reads, hreads, htags⟩ := Markup.exists_reads_of_parse hparse
    refine ⟨reads, hreads, ?_⟩
    have hheads := Template.headsIn_of_lower hlower
    rw [htags] at hheads
    have hfilter : reads.filter (fun r => r.token.isOpening) =
        reads.filter fun r => (r.token.tagAt? (sections.origin.after r.before)).isSome := by
      simp only [Token.isSome_tagAt?]
    rw [hfilter]
    refine (forall₂_filter_of_filterMap hheads).imp ?_
    rintro head r ⟨hr, tag, htag, hof⟩
    obtain ⟨slash, htoken, hplace⟩ := Token.tagAt?_eq_some_iff.mp htag
    obtain ⟨hname, hposition⟩ := Head.ofTag_ok hof
    rw [← hname] at htoken
    refine ⟨⟨_, _, htoken⟩, ?_, ?_⟩
    · rw [hsource]
      exact hreads.standsAt_of_mem hr htoken
    · rw [hposition, hplace, hsource, horigin]
      exact hreads.isAt_of_mem hr
  case reports =>
    intro options report hcompile
    obtain ⟨fault, rfl, reads, before, rest, hreads, hplace, hconcerns⟩ :=
      foundIn_of_compile h hcompile
    refine ⟨fault, reads, before, rest, rfl, hreads, hconcerns, ?_⟩
    show fault.position.IsAt source.toList _
    rw [hplace, hsource, horigin]
    exact hreads.isAt

/-- A file whose template does not start on the first line, and has a mistake in its second
element. -/
def accented : String :=
  "<script>\n// é\n</script>\n<!-- ü --><template>é\n <p>…</p> <p tn-if></p></template>\n"

def accentedSections : Sections where
  template := "é\n <p>…</p> <p tn-if></p>"
  script := "// é"
  language := "js"
  styles := []
  origin := ⟨4, 21⟩

/-- The mistake is on the fifth line, at the eleventh character. -/
theorem places_in_file_accented :
    Sections.ofText "a.tanni" accented = .ok accentedSections ∧
      compile accented {} =
        .error (Fault.report ⟨.missingValue "tn-if" "p", "<anonymous>", ⟨5, 11⟩, none⟩) ∧
      ∃ span, templateSpan "a.tanni" accented.toList (excludedSpans accented.toList) = .ok span ∧
        PlacedIn "a.tanni" accented (utf8Len (accented.toList.take span.start)) accentedSections :=
  ⟨by decide +kernel, by decide +kernel,
    places_in_file "a.tanni" accented accentedSections (by decide +kernel)⟩

end ReactiveMarkup
