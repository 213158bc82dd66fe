/-
How repetitions are written.

A clause is written with one or two names, `in` between blanks, and a list that has no blanks around
it.  Reading takes as many characters for a name as can continue it; since no blank can, a text
writes one clause at most, and reading finds it.
-/
import ReactiveMarkup.Proofs.Text.Blanks
import ReactiveMarkup.Template.Lowering

namespace ReactiveMarkup.Template.ForClause

open Text List
open Markup (drop?_eq_some_iff takeWhile_dropWhile_append)

variable {s list name rest : List Char}

/-- What follows the names of a clause: `in` between blanks, and the list. -/
def Follows (list s : List Char) : Prop :=
  list ≠ [] ∧ Bare list ∧ ∃ w w', IsGap w ∧ IsGap w' ∧ s = w ++ (['i', 'n'] ++ (w' ++ list))

inductive Written : ForClause → List Char → Prop
  | item {item list s : List Char} (hi : isIdentifier item = true) (hs : Follows list s) :
      Written ⟨String.ofList item, none, String.ofList list⟩ (item ++ s)
  | indexed {item w w' index list s : List Char} (hi : isIdentifier item = true)
      (hw : ∀ c ∈ w, isBlank c = true) (hw' : ∀ c ∈ w', isBlank c = true)
      (hx : isIdentifier index = true) (hs : Follows list s) :
      Written ⟨String.ofList item, some (String.ofList index), String.ofList list⟩
        (item ++ (w ++ ',' :: (w' ++ (index ++ s))))

theorem isIdentifier_cons (c : Char) (cs : List Char) :
    isIdentifier (c :: cs) = (beginsIdentifier c && cs.all continuesIdentifier) := by
  rw [Bool.eq_iff_iff, Bool.and_eq_true, all_eq_true, ← dropWhile_eq_nil_iff, isIdentifier,
    takeIdentifier]
  by_cases hc : beginsIdentifier c = true
  · cases cs.dropWhile continuesIdentifier <;> simp [hc]
  · simp [hc]

theorem takeIdentifier_eq_some_iff : takeIdentifier s = some (name, rest) ↔
    s = name ++ rest ∧ isIdentifier name = true ∧
      ∀ c ∈ rest.head?, continuesIdentifier c = false := by
  constructor
  · intro h
    cases s with
    | nil => cases h
    | cons c cs =>
      rw [takeIdentifier] at h
      split_ifs at h with hc
      obtain ⟨rfl, rfl⟩ := Prod.mk.inj (Option.some.inj h)
      have hhead := head?_dropWhile_not continuesIdentifier cs
      refine ⟨by simp, ?_, fun d hd => ?_⟩
      · rw [isIdentifier_cons, hc, Bool.true_and, all_takeWhile]
      · rw [Option.mem_def.1 hd] at hhead
        simpa using hhead
  · rintro ⟨rfl, hname, hrest⟩
    cases name with
    | nil => cases hname
    | cons c cs =>
      rw [isIdentifier_cons, Bool.and_eq_true, all_eq_true] at hname
      obtain ⟨htake, hdrop⟩ := takeWhile_dropWhile_append hname.2 hrest
      rw [cons_append, takeIdentifier, if_pos hname.1, htake, hdrop]

theorem takeList?_gap (hw : IsGap w) (hl : list ≠ []) (hb : Bare list) :
    takeList? (w ++ list) = some list := by
  obtain ⟨hne, hw⟩ := hw
  obtain ⟨c, w, rfl⟩ := exists_cons_of_ne_nil hne
  obtain ⟨hc, hw⟩ := forall_mem_cons.1 hw
  have hnot : (w ++ list).all isBlank = false := by
    obtain ⟨d, list, rfl⟩ := exists_cons_of_ne_nil hl
    simp [hb.1 d rfl]
  rw [cons_append, takeList?, if_pos hc, hnot]
  simpa using @trim_eq _ _ [] hb hw (by simp)

theorem takeSource?_eq_some_iff (hs : ∀ c ∈ s.getLast?, isBlank c = false) :
    takeSource? s = some list ↔ Follows list s := by
  constructor
  · intro h
    -- the clause does not end in blanks
    have hend (front : List Char) {back : List Char} (he : s = front ++ back)
        (hb : ∀ c ∈ back, isBlank c = true) : back = [] := by
      by_contra hne
      have hlast : s.getLast? = some (back.getLast hne) := by
        rw [he, getLast?_append, getLast?_eq_some_getLast hne, Option.some_or]
      exact absurd (hb _ (getLast_mem hne)) (by simp [hs _ hlast])
    cases s with
    | nil => cases h
    | cons c cs =>
      rw [takeSource?] at h
      split_ifs at h with hc
      obtain ⟨after, hdrop, hlist⟩ := Option.bind_eq_some_iff.1 h
      obtain ⟨w, hw, hsplit⟩ : ∃ w, IsGap w ∧ c :: cs = w ++ (['i', 'n'] ++ after) := by
        refine ⟨(c :: cs).takeWhile isBlank, ⟨by simp [hc], fun d => mem_takeWhile_imp⟩, ?_⟩
        rw [← drop?_eq_some_iff.1 hdrop, trimStart, takeWhile_append_dropWhile]
      cases after with
      | nil => cases hlist
      | cons d ds =>
        rw [takeList?] at hlist
        split_ifs at hlist with hd hall
        · have hblank : ∀ e ∈ d :: ds, isBlank e = true :=
            forall_mem_cons.2 ⟨hd, all_eq_true.1 hall⟩
          rw [← append_assoc] at hsplit
          cases hend _ hsplit hblank
        · obtain ⟨v, v', hds, hv, hv', hbare⟩ := exists_trim ds
          rw [Option.some.inj hlist] at hds hbare
          obtain rfl : v' = [] :=
            hend (w ++ (['i', 'n'] ++ d :: (v ++ list))) (by simp [hsplit, hds]) hv'
          refine ⟨?_, hbare, w, d :: v, hw, ⟨by simp, forall_mem_cons.2 ⟨hd, hv⟩⟩, ?_⟩
          · rintro rfl
            exact hall (trim_eq_nil_iff.1 (Option.some.inj hlist))
          · simp [hsplit, hds]
  · rintro ⟨hl, hb, w, w', hw, hw', rfl⟩
    obtain ⟨c, w, rfl⟩ := exists_cons_of_ne_nil hw.1
    have hstart : trimStart (c :: w ++ (['i', 'n'] ++ (w' ++ list))) = ['i', 'n'] ++ (w' ++ list) :=
      (takeWhile_dropWhile_append hw.2 (by simp; decide)).2
    rw [cons_append] at hstart ⊢
    rw [takeSource?, if_pos (hw.2 c (.head _)), hstart]
    exact takeList?_gap hw' hl hb

theorem isBlank_of_isIdentifier (h : isIdentifier name = true) :
    ∀ c ∈ (name ++ rest).head?, isBlank c = false := by
  cases name with
  | nil => cases h
  | cons c cs =>
    rw [isIdentifier_cons, Bool.and_eq_true] at h
    have hcontinues : continuesIdentifier c = true := by
      have hbegins := h.1
      simp only [beginsIdentifier, Bool.or_eq_true] at hbegins
      rcases hbegins with (hc | hc) | hc <;> simp [continuesIdentifier, isWord, isAlphanumeric, hc]
    rintro d ⟨⟩
    by_contra hblank
    rw [Bool.not_eq_false] at hblank
    simp [(continues_of_isBlank hblank).1] at hcontinues

theorem Follows.takeIdentifier (h : Follows list s) (hn : isIdentifier name = true) :
    Text.takeIdentifier (name ++ s) = some (name, s) := by
  refine takeIdentifier_eq_some_iff.2 ⟨rfl, hn, ?_⟩
  obtain ⟨-, -, w, w', ⟨hne, hw⟩, -, rfl⟩ := h
  obtain ⟨c, w, rfl⟩ := exists_cons_of_ne_nil hne
  rintro d ⟨⟩
  exact (continues_of_isBlank (hw c (.head _))).1

/-- **Clauses are read as they are written.**  A text that has no blanks around it is read as the
clause that it writes, and as none if it writes none. -/
theorem parse?_eq_some_iff {text} (h : Bare text.toList) {clause} :
    parse? text = some clause ↔ Written clause text.toList := by
  rw [parse?, trimStart_of_head h.1]
  generalize text.toList = s at h   -- what is left of the clause ends as the clause does
  have hlast (front : List Char) {back : List Char} (he : s = front ++ back) :
      ∀ c ∈ back.getLast?, isBlank c = false := by
    intro c hc
    refine h.2 c ?_
    rw [he, getLast?_append, Option.mem_def.1 hc]
    rfl
  constructor
  · intro hparse
    obtain ⟨⟨item, rest⟩, htake, hmore⟩ := Option.bind_eq_some_iff.1 hparse
    obtain ⟨rfl, hitem, -⟩ := takeIdentifier_eq_some_iff.1 htake
    dsimp only at hmore
    split at hmore
    · rename_i after hcomma
      obtain ⟨⟨index, rest'⟩, htake', hmore⟩ := Option.bind_eq_some_iff.1 hmore
      obtain ⟨hafter, hindex, -⟩ := takeIdentifier_eq_some_iff.1 htake'
      obtain ⟨list, hlist, hmore⟩ := Option.bind_eq_some_iff.1 hmore
      obtain ⟨w, hw, hrest⟩ := exists_trimStart rest
      obtain ⟨w', hw', hrest'⟩ := exists_trimStart after
      rw [hcomma] at hrest
      rw [hafter] at hrest'
      rw [hrest, hrest'] at hlast ⊢
      cases hmore
      have hfollows := (takeSource?_eq_some_iff
        (hlast (item ++ (w ++ ',' :: (w' ++ index))) (by simp))).1 hlist
      exact .indexed hitem hw hw' hindex hfollows
    · obtain ⟨list, hlist, hmore⟩ := Option.bind_eq_some_iff.1 hmore
      cases hmore
      exact .item hitem ((takeSource?_eq_some_iff (hlast _ rfl)).1 hlist)
  · intro hwritten
    cases hwritten with
    | @item item list rest hi hs =>
      have hlist := (takeSource?_eq_some_iff (hlast _ rfl)).2 hs
      have hin : ∃ after, trimStart rest = 'i' :: after := by
        obtain ⟨-, -, w, w', hw, -, rfl⟩ := hs
        exact ⟨_, (takeWhile_dropWhile_append hw.2 (by simp; decide)).2⟩
      obtain ⟨after, hin⟩ := hin
      simp [hs.takeIdentifier hi, hin, hlist]
    | @indexed item w w' index list rest hi hw hw' hx hs =>
      have hlist := (takeSource?_eq_some_iff
        (hlast (item ++ (w ++ ',' :: (w' ++ index))) (by simp))).2 hs
      have htake : Text.takeIdentifier (item ++ (w ++ ',' :: (w' ++ (index ++ rest)))) =
          some (item, w ++ ',' :: (w' ++ (index ++ rest))) := by
        refine takeIdentifier_eq_some_iff.2 ⟨rfl, hi, ?_⟩
        cases w with
        | nil => simp; decide
        | cons c w =>
          rintro d ⟨⟩
          exact (continues_of_isBlank (hw c (.head _))).1
      have hcomma :
          trimStart (w ++ ',' :: (w' ++ (index ++ rest))) = ',' :: (w' ++ (index ++ rest)) :=
        (takeWhile_dropWhile_append hw (by simp; decide)).2
      have hindex : trimStart (w' ++ (index ++ rest)) = index ++ rest :=
        (takeWhile_dropWhile_append hw' (isBlank_of_isIdentifier hx)).2
      simp [htake, hcomma, hindex, hs.takeIdentifier hx, hlist]

/-! ### Spellings -/

/-- A clause as it is written, with its blanks.  Before the name of an index stand a comma and the
blanks around it. -/
structure Spelling where
  item : List Char
  index : Option (List Char × List Char × List Char)
  gap : List Char
  gap' : List Char
  list : List Char

namespace Spelling

def text (p : Spelling) : List Char :=
  let source := p.gap ++ (['i', 'n'] ++ (p.gap' ++ p.list))
  match p.index with
  | none => p.item ++ source
  | some (w, w', index) => p.item ++ (w ++ ',' :: (w' ++ (index ++ source)))

def clause (p : Spelling) : ForClause :=
  ⟨String.ofList p.item, p.index.map fun x => String.ofList x.2.2, String.ofList p.list⟩

structure Valid (p : Spelling) : Prop where
  item : isIdentifier p.item = true
  index : ∀ x ∈ p.index, (∀ c ∈ x.1, isBlank c = true) ∧ (∀ c ∈ x.2.1, isBlank c = true) ∧
    isIdentifier x.2.2 = true
  gap : IsGap p.gap
  gap' : IsGap p.gap'
  list : p.list ≠ [] ∧ Bare p.list

end Spelling

theorem written_iff {clause} :
    Written clause s ↔ ∃ p : Spelling, p.Valid ∧ p.text = s ∧ p.clause = clause := by
  constructor
  · rintro (⟨hi, hl, hb, w, w', hw, hw', rfl⟩ | ⟨hi, hv, hv', hx, hl, hb, w, w', hw, hw', rfl⟩)
    · exact ⟨⟨_, none, w, w', _⟩, ⟨hi, nofun, hw, hw', hl, hb⟩, rfl, rfl⟩
    · exact ⟨⟨_, some (_, _, _), w, w', _⟩,
        ⟨hi, by rintro _ ⟨⟩; exact ⟨hv, hv', hx⟩, hw, hw', hl, hb⟩, rfl, rfl⟩
  · rintro ⟨⟨item, index, w, w', list⟩, h, rfl, rfl⟩
    have hs : Follows list (w ++ (['i', 'n'] ++ (w' ++ list))) :=
      ⟨h.list.1, h.list.2, w, w', h.gap, h.gap', rfl⟩
    cases index with
    | none => exact .item h.item hs
    | some x =>
      obtain ⟨hv, hv', hx⟩ := h.index x rfl
      exact .indexed h.item hv hv' hx hs

/-- Blanks in front of something else can be told from it. -/
theorem eq_of_blanks (hw : ∀ c ∈ w, isBlank c = true) (hv : ∀ c ∈ v, isBlank c = true)
    (hs : ∀ c ∈ s.head?, isBlank c = false) (ht : ∀ c ∈ t.head?, isBlank c = false)
    (h : w ++ s = v ++ t) : w = v ∧ s = t := by
  have hws := takeWhile_dropWhile_append hw hs
  rw [h] at hws
  have hvt := takeWhile_dropWhile_append hv ht
  exact ⟨hws.1.symm.trans hvt.1, hws.2.symm.trans hvt.2⟩

theorem Spelling.eq_of_clause {p q : Spelling} (hp : p.Valid) (hq : q.Valid)
    (ht : p.text = q.text) (hc : p.clause = q.clause) : p = q := by
  obtain ⟨item, index, w, w', list⟩ := p
  obtain ⟨item', index', v, v', list'⟩ := q
  simp only [clause, ForClause.mk.injEq, String.ofList_inj] at hc
  obtain ⟨rfl, hindex, rfl⟩ := hc
  have hsource (h : w ++ (['i', 'n'] ++ (w' ++ list)) = v ++ (['i', 'n'] ++ (v' ++ list))) :
      w = v ∧ w' = v' := by
    obtain ⟨hw, hrest⟩ := eq_of_blanks hp.gap.2 hq.gap.2 (by simp; decide) (by simp; decide) h
    exact ⟨hw, append_cancel_right (append_cancel_left hrest)⟩
  cases index with
  | none =>
    cases index' with
    | some x => simp at hindex
    | none =>
      obtain ⟨rfl, rfl⟩ := hsource (append_cancel_left ht)
      rfl
  | some x =>
    cases index' with
    | none => simp at hindex
    | some y =>
      obtain ⟨a, b, x⟩ := x
      obtain ⟨a', b', y⟩ := y
      obtain rfl : x = y := String.ofList_inj.1 (Option.some.inj hindex)
      obtain ⟨ha, hb, hx⟩ := hp.index _ rfl
      obtain ⟨ha', hb', -⟩ := hq.index _ rfl
      obtain ⟨rfl, ht⟩ := eq_of_blanks ha ha' (by simp; decide) (by simp; decide)
        (append_cancel_left ht)
      obtain ⟨rfl, ht⟩ := eq_of_blanks hb hb' (isBlank_of_isIdentifier hx)
        (isBlank_of_isIdentifier hx) (List.cons.inj ht).2
      obtain ⟨rfl, rfl⟩ := hsource (append_cancel_left ht)
      rfl

/-- **Clauses are read in one way.**  A text without blanks around it is read as a clause if and
only if it is spelled as one; there is one spelling at most, and the clause is the one it spells.
Any other text is reported, and quoted. -/
theorem requireClause_spells {v : String} (h : Text.trimmed v = v) (file tag : String)
    (position : Position) :
    (∀ clause, requireClause v file tag position = .ok clause ↔
      ∃ p : Spelling, p.Valid ∧ p.text = v.toList ∧ p.clause = clause) ∧
    (∀ p q : Spelling, p.Valid → p.text = v.toList → q.Valid → q.text = v.toList → p = q) ∧
    ((¬ ∃ p : Spelling, p.Valid ∧ p.text = v.toList) → ∃ fault,
      requireClause v file tag position = .error fault ∧ fault.problem.code = "TN-DIR-002" ∧
      fault.problem.message = "Invalid tn-for expression on <" ++ tag ++ ">: \"" ++ v ++ "\"" ∧
      fault.context = some v ∧ fault.file = file ∧ fault.position = position) := by
  have hbare : Bare v.toList := by
    rw [← h, trimmed, String.toList_ofList]
    exact bare_trim _
  have hparse (clause : ForClause) : parse? v = some clause ↔
      ∃ p : Spelling, p.Valid ∧ p.text = v.toList ∧ p.clause = clause :=
    (parse?_eq_some_iff hbare).trans written_iff
  have hok (clause : ForClause) :
      requireClause v file tag position = .ok clause ↔ parse? v = some clause := by
    rw [requireClause]
    cases parse? v <;> simp
  refine ⟨fun clause => (hok clause).trans (hparse clause), ?_, ?_⟩
  · intro p q hp ht hq ht'
    have hpc := (hparse p.clause).mpr ⟨p, hp, ht, rfl⟩
    have hqc := (hparse q.clause).mpr ⟨q, hq, ht', rfl⟩
    exact p.eq_of_clause hp hq (ht.trans ht'.symm) (Option.some.inj (hpc.symm.trans hqc))
  · intro hno
    have hnone : parse? v = none := by
      refine Option.eq_none_iff_forall_ne_some.mpr fun clause hc => hno ?_
      obtain ⟨p, hp, ht, -⟩ := (hparse clause).mp hc
      exact ⟨p, hp, ht⟩
    exact ⟨_, by rw [requireClause, hnone], rfl, rfl, rfl, rfl, rfl⟩

theorem requireClause_spells_indexed :
    requireClause "row , i in rows in a, b" "a.tanni" "li" .start =
      .ok ⟨"row", some "i", "rows in a, b"⟩ ∧
    ∃ fault, requireClause "row of rows" "a.tanni" "li" .start = .error fault ∧
      fault.context = some "row of rows" := by
  have hread := requireClause_spells (v := "row , i in rows in a, b") (by decide) "a.tanni" "li"
    .start
  have hfail := requireClause_spells (v := "row of rows") (by decide) "a.tanni" "li" .start
  constructor
  · have hblank : ∀ c ∈ [' '], isBlank c = true := forall_mem_singleton.mpr rfl
    have hgap : IsGap [' '] := ⟨by simp, hblank⟩
    refine (hread.1 _).mpr ⟨⟨"row".toList, some ([' '], [' '], ['i']), [' '], [' '],
      "rows in a, b".toList⟩, ⟨by decide, ?_, hgap, hgap, by decide, ?_⟩, by decide, by decide⟩
    · rintro _ ⟨⟩
      exact ⟨hblank, hblank, by decide⟩
    · exact ⟨by simp; decide, by simp; decide⟩
  · have herror : requireClause "row of rows" "a.tanni" "li" .start =
        .error ⟨.invalidFor "li" "row of rows", "a.tanni", .start, some "row of rows"⟩ := by decide
    obtain ⟨fault, hfault, -, -, hcontext, -⟩ := hfail.2.2 <| by
      rintro ⟨p, hp, ht⟩
      cases herror.symm.trans ((hfail.1 p.clause).mpr ⟨p, hp, ht, rfl⟩)
    exact ⟨fault, hfault, hcontext⟩

end ReactiveMarkup.Template.ForClause
