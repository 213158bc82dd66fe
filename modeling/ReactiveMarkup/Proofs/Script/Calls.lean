/-
The calls in the code of a script are replaced, and nothing else.

A call is a name with a group in round brackets after it, perhaps with types in angle brackets
between them.  It is described by its text alone: a group in brackets ends where as many brackets
are closed as opened, which the two searches find, each with its own way to count.

* `expands_expandProps`: what becomes of a script.
-/
import Mathlib.Data.List.TakeWhile
import ReactiveMarkup.Script.PropsCall

namespace ReactiveMarkup.Script

open Text List Option

/-! ### Groups in brackets -/

/-- How many brackets a character opens, given the one before it. -/
def bracketStep (opening closing _previous c : Char) : Int :=
  if c = opening then 1 else if c = closing then -1 else 0

/-- How many angle brackets a character opens.  The `>` of an arrow closes none. -/
def angleStep (previous c : Char) : Int :=
  if c = '<' then 1 else if c = '>' && previous != '=' then -1 else 0

/-- How many brackets a mark opens: only code does. -/
def turn (step : Char → Char → Int) (previous : Char) (m : Mark) : Int :=
  if m.isCode then step previous m.char else 0

/-- A text closes the brackets that are open before it, and does so with its last character only. -/
def Balances (step : Char → Char → Int) : Char → Int → List Mark → Prop
  | _, depth, [] => depth = 0
  | previous, depth, m :: ms => 0 < depth ∧ Balances step m.char (depth + turn step previous m) ms

/-- A text in brackets: an opening one, and what closes it. -/
def IsGroup (step : Char → Char → Int) : List Mark → Prop
  | [] => False
  | m :: ms => turn step ' ' m = 1 ∧ Balances step m.char 1 ms

variable {step : Char → Char → Int} {previous : Char}

theorem balances_zero {ms} : Balances step previous 0 ms ↔ ms = [] := by
  cases ms <;> simp [Balances]

theorem Balances.exists_last {depth} {ms} (h : Balances step previous depth ms) (hpos : 0 < depth) :
    ∃ m ∈ ms.getLast?, m.isCode = true := by
  induction ms generalizing previous depth with
  | nil => exact absurd hpos (h ▸ Int.lt_irrefl 0)
  | cons m ms ih =>
    have hrest := h.2
    cases ms with
    | nil =>
      refine ⟨m, rfl, by_contra fun hcode => ?_⟩
      rw [Balances, turn, if_neg hcode] at hrest
      omega
    | cons m' ms =>
      exact ih hrest hrest.1

/-- A search that follows the depth of nesting up to the bracket that brings it to zero. -/
structure Search (step : Char → Char → Int)
    (find? : Char → Nat → List Mark → Option (List Mark × List Mark)) : Prop where
  nil (previous : Char) (depth : Nat) : find? previous depth [] = none
  least (previous c : Char) : -1 ≤ step previous c
  cons {previous : Char} {m : Mark} {depth later : Nat}
    (h : depth + turn step previous m = (later : Int)) (hpos : 0 < depth + later) (ms : List Mark) :
    find? previous depth (m :: ms) = if later = 0 then some ([m], ms)
      else (find? m.char later ms).map fun p => (m :: p.1, p.2)

theorem search_brackets (opening closing : Char) :
    Search (bracketStep opening closing) fun _ => balancedFrom? opening closing where
  nil _ _ := rfl
  least _ _ := by
    unfold bracketStep
    split_ifs <;> decide
  cons {_ m depth later} h hpos ms := by
    unfold turn bracketStep at h
    rw [balancedFrom?.eq_def]
    rcases later with _ | later <;> rcases depth with _ | _ | depth <;> grind

theorem search_angles : Search angleStep typeArgumentsFrom? where
  nil _ _ := rfl
  least _ _ := by
    unfold angleStep
    split_ifs <;> decide
  cons {_ m depth later} h hpos ms := by
    unfold turn angleStep at h
    rw [typeArgumentsFrom?.eq_def]
    rcases later with _ | later <;> rcases depth with _ | _ | depth <;> grind

variable {find? : Char → Nat → List Mark → Option (List Mark × List Mark)}

theorem Search.balances_iff (hs : Search step find?) {depth} (hpos : 0 < depth) {ms group rest} :
    find? previous depth ms = some (group, rest) ↔
      ms = group ++ rest ∧ Balances step previous depth group := by
  have hnil {previous : Char} {depth : Nat} (hpos : 0 < depth) :
      ¬ Balances step previous depth [] := by
    rw [Balances]
    omega
  induction ms generalizing previous depth group with
  | nil =>
    rw [hs.nil]
    refine ⟨nofun, fun ⟨hsplit, hb⟩ => ?_⟩
    exact absurd ((append_eq_nil_iff.1 hsplit.symm).1 ▸ hb) (hnil hpos)
  | cons m ms ih =>
    have hleast : -1 ≤ turn step previous m := by
      unfold turn
      split_ifs
      · exact hs.least previous m.char
      · decide
    obtain ⟨later, hlater⟩ := Int.eq_ofNat_of_zero_le (a := depth + turn step previous m) (by omega)
    rw [hs.cons hlater (by omega)]
    cases group with
    | nil => split_ifs <;> simp [hnil hpos]
    | cons m' group =>
      rw [Balances]
      by_cases hm : m = m'
      · subst hm
        rw [hlater]
        split_ifs with hzero
        · have hb : Balances step m.char (0) group ↔ group = [] := balances_zero
          grind
        · simpa [hpos] using ih (Nat.pos_of_ne_zero hzero)
      · split_ifs <;> simp [hm]

theorem Search.eq_some_iff (hs : Search step find?) (hm : turn step ' ' m = 1) {ms group rest} :
    find? ' ' 0 (m :: ms) = some (group, rest) ↔ m :: ms = group ++ rest ∧ IsGroup step group := by
  have hdepth : ((0)) + turn step ' ' m = (1) := by simp [hm]
  rw [hs.cons hdepth (by simp), if_neg (by simp), map_eq_some_iff]
  constructor
  · rintro ⟨p, hp, he⟩
    cases he
    obtain ⟨rfl, hb⟩ := (hs.balances_iff (by simp)).1 hp
    exact ⟨rfl, hm, hb⟩
  · rintro ⟨hsplit, hgroup⟩
    cases group with
    | nil => exact hgroup.elim
    | cons m' group =>
      cases hsplit
      exact ⟨(group, rest), (hs.balances_iff (by simp)).2 ⟨rfl, hgroup.2⟩, rfl⟩

theorem Search.find (hs : Search step find?) {group} (h : IsGroup step group) (rest : List Mark) :
    find? ' ' 0 (group ++ rest) = some (group, rest) :=
  match group, h with
  | _ :: _, h => (hs.eq_some_iff h.1).2 ⟨rfl, h⟩

/-! ### Calls -/

def delimiters : List Char := ['/', '\"', '\'', '\x60']

/-- Code ends before a delimiter only.  `code` says whether it goes up to the text. -/
def Delimited : Bool → List Mark → Prop
  | _, [] => True
  | code, m :: ms =>
    (code = true → m.isCode = false → m.char ∈ delimiters) ∧ Delimited m.isCode ms

theorem mem_delimiters_of_nonCode? {rest} {size} (h : nonCode? (c :: rest) = some size) :
    c ∈ delimiters := by
  rw [nonCode?.eq_def] at h
  split at h <;> simp_all [delimiters]
  exact .inr (or_assoc.1 h.1)

theorem delimited_marksFrom {code} (h : code = true → k = 0) (s : List Char) :
    Delimited code (marksFrom k s) := by
  fun_induction marksFrom k s generalizing code with
  | case1 => trivial
  | case2 skip c cs ih => exact ⟨fun hcode => (nomatch h hcode), ih nofun⟩
  | case3 c cs size hsize ih => exact ⟨fun _ _ => mem_delimiters_of_nonCode? hsize, ih nofun⟩
  | case4 c cs hnone ih => exact ⟨nofun, ih fun _ => rfl⟩

theorem Delimited.isCode {ms} (h : Delimited true (m :: ms)) (hm : m.char ∉ delimiters) :
    m.isCode = true := by
  by_contra hcode
  exact hm (h.1 rfl (by simpa using hcode))

theorem Delimited.skip {front back} (h : Delimited true (front ++ back))
    (hfront : ∀ m ∈ front, m.char ∉ delimiters) : Delimited true back := by
  induction front with
  | nil => exact h
  | cons m front ih =>
    obtain ⟨hm, hmore⟩ := forall_mem_cons.1 hfront
    exact ih (Delimited.isCode h hm ▸ h.2) hmore

theorem Delimited.append {code} (front : List Mark) {back} (h : Delimited code (front ++ back)) :
    Delimited (front.getLast?.elim code Mark.isCode) back := by
  induction front generalizing code with
  | nil => exact h
  | cons m front ih =>
    have hback := ih h.2
    cases front with
    | nil => exact hback
    | cons m' front => rwa [getLast?_cons_cons]

def Spaces (ms : List Mark) : Prop := ∀ m ∈ ms, isSpace m.char = true

/-- Types in angle brackets with spaces after them. -/
def IsTypes (ms : List Mark) : Prop :=
  ∃ angles spaces, ms = angles ++ spaces ∧ IsGroup angleStep angles ∧ Spaces spaces

def callNames : List (List Char) := ["withDefaults".toList, "defineProps".toList]

/-- A call: a name, types after one of the names only, and a group in round brackets. -/
def IsCall (call : List Mark) : Prop :=
  ∃ name spaces types group, call = name ++ (spaces ++ (types ++ group)) ∧ chars name ∈ callNames ∧
    Spaces spaces ∧ (types = [] ∨ chars name = "defineProps".toList ∧ IsTypes types) ∧
      IsGroup (bracketStep '(' ')') group

theorem dropName?_append {name rest} (h : ∀ m ∈ rest.head?, isPlainNameChar m.char = false) :
    dropName? (chars name) (name ++ rest) = some rest := by
  induction name with
  | nil =>
    cases rest with
    | nil => rfl
    | cons m rest => simp [chars, dropName?, h m rfl]
  | cons m name ih => simpa [chars, dropName?] using ih

theorem exists_of_dropName? {name} {ms rest} (h : dropName? name ms = some rest) :
    ∃ front, ms = front ++ rest ∧ chars front = name := by
  induction name generalizing ms with
  | nil =>
    cases ms with
    | nil =>
      cases h
      exact ⟨[], rfl, rfl⟩
    | cons m ms =>
      rw [dropName?] at h
      split_ifs at h
      cases h
      exact ⟨[], rfl, rfl⟩
  | cons c name ih =>
    cases ms with
    | nil => cases h
    | cons m ms =>
      rw [dropName?] at h
      split_ifs at h with hc
      obtain ⟨front, rfl, rfl⟩ := ih h
      exact ⟨m :: front, rfl, by rw [← hc]; rfl⟩

theorem exists_skipSpaces (ms : List Mark) :
    ∃ spaces, ms = spaces ++ skipSpaces ms ∧ Spaces spaces :=
  ⟨_, takeWhile_append_dropWhile.symm,
    fun _ h => mem_takeWhile_imp (p := fun m : Mark => isSpace m.char) h⟩

theorem skipSpaces_append {spaces ms} (h : Spaces spaces)
    (hms : ∀ m ∈ ms.head?, isSpace m.char = false) : skipSpaces (spaces ++ ms) = ms := by
  unfold skipSpaces
  rw [dropWhile_append_of_pos h]
  cases ms with
  | nil => rfl
  | cons m ms => rw [dropWhile_cons_of_neg (by simp [hms m rfl])]

theorem IsGroup.exists_head {group} (h : IsGroup step group) :
    ∃ m ms, group = m :: ms ∧ turn step ' ' m = 1 :=
  match group, h with
  | m :: ms, h => ⟨m, ms, rfl, h.1⟩

theorem turn_bracketStep :
    turn (bracketStep '(' ')') ' ' m = 1 ↔ m.isCode = true ∧ m.char = '(' := by
  unfold turn bracketStep
  split_ifs <;> simp_all

theorem turn_angleStep : turn angleStep ' ' m = 1 ↔ m.isCode = true ∧ m.char = '<' := by
  unfold turn angleStep
  split_ifs <;> simp_all

theorem IsGroup.delimited {code} {group rest} (h : IsGroup step group)
    (hd : Delimited code (group ++ rest)) : Delimited true rest := by
  have hlast : ∃ m ∈ group.getLast?, m.isCode = true := by
    obtain ⟨m, ms, rfl, -⟩ := h.exists_head
    obtain ⟨m', hm', hcode⟩ := h.2.exists_last (by decide)
    exact ⟨m', by rw [getLast?_cons, mem_def.1 hm']; rfl, hcode⟩
  obtain ⟨m, hm, hcode⟩ := hlast
  have hrest := hd.append _
  rwa [mem_def.1 hm, elim_some, hcode] at hrest

theorem Spaces.delimited {spaces rest} (h : Spaces spaces) (hd : Delimited true (spaces ++ rest)) :
    Delimited true rest := by
  have hdelimiters : ∀ c ∈ delimiters, isSpace c = false := by simp [delimiters, isSpace]
  exact hd.skip fun m hm hc => absurd (h m hm) (by simp [hdelimiters m.char hc])

theorem exists_types {ms rest} (hd : Delimited true ms) (h : dropTypeArguments? ms = some rest) :
    Delimited true rest ∧ ∃ types, ms = types ++ rest ∧ (types = [] ∨ IsTypes types) := by
  cases ms with
  | nil =>
    cases h
    exact ⟨hd, [], rfl, .inl rfl⟩
  | cons m ms =>
    rw [dropTypeArguments?] at h
    split_ifs at h with hm
    · obtain ⟨⟨angles, rest'⟩, hfind, rfl⟩ := map_eq_some_iff.1 h
      obtain ⟨hsplit, hgroup⟩ := (search_angles.eq_some_iff
        (turn_angleStep.2 ⟨hd.isCode (by rw [hm]; decide), hm⟩)).1 hfind
      obtain ⟨spaces, hspaces, hs⟩ := exists_skipSpaces rest'
      rw [hsplit] at hd ⊢
      refine ⟨hs.delimited (hspaces ▸ hgroup.delimited hd), angles ++ spaces, ?_,
        .inr ⟨angles, spaces, rfl, hgroup, hs⟩⟩
      rw [append_assoc, ← hspaces]
    · cases h
      exact ⟨hd, [], rfl, .inl rfl⟩

theorem exists_parens {ms inside rest} (hd : Delimited true ms)
    (h : takeParens? ms = some (inside, rest)) :
    ∃ group, ms = group ++ rest ∧ IsGroup (bracketStep '(' ')') group := by
  cases ms with
  | nil => cases h
  | cons m ms =>
    rw [takeParens?] at h
    split_ifs at h with hm
    obtain ⟨⟨group, rest'⟩, hfind, he⟩ := bind_eq_some_iff.1 h
    cases he
    exact ⟨group, ((search_brackets '(' ')').eq_some_iff
      (turn_bracketStep.2 ⟨hd.isCode (by rw [hm]; decide), hm⟩)).1 hfind⟩

theorem exists_name {name} {ms rest} (hd : Delimited true ms) (hname : ∀ c ∈ name, c ∉ delimiters)
    (h : dropName? name ms = some rest) :
    ∃ front spaces, ms = front ++ (spaces ++ skipSpaces rest) ∧ chars front = name ∧
      Spaces spaces ∧ Delimited true (skipSpaces rest) := by
  obtain ⟨front, rfl, hfront⟩ := exists_of_dropName? h
  obtain ⟨spaces, hsplit, hspaces⟩ := exists_skipSpaces rest
  have hrest := hd.skip fun m hm => hname _ (hfront ▸ mem_map_of_mem hm)
  exact ⟨front, spaces, by rw [← hsplit], hfront, hspaces, hspaces.delimited (hsplit ▸ hrest)⟩

def IsReplacement (text : List Char) : Prop :=
  text = propsName ∨ ∃ defaults, text = overlay defaults

theorem exists_call {ms rest} {text} (hd : Delimited true ms)
    (h : propsCall? ms = some (text, rest)) :
    IsReplacement text ∧ ∃ call, ms = call ++ rest ∧ IsCall call := by
  rcases or_eq_some_iff.1 h with h | ⟨-, h⟩
  · simp only [withDefaultsCall?, bind_eq_bind, bind_eq_some_iff] at h
    obtain ⟨rest₁, hname, ⟨inside, rest₂⟩, hparens, htext⟩ := h
    obtain ⟨front, spaces, rfl, hfront, hspaces, hd'⟩ := exists_name hd (by simp [delimiters]) hname
    obtain ⟨group, hgroup, hg⟩ := exists_parens hd' hparens
    have hcall : IsCall (front ++ (spaces ++ ([] ++ group))) :=
      ⟨front, spaces, [], group, rfl, hfront ▸ .head _, hspaces, .inl rfl, hg⟩
    split at htext
    · cases htext
      exact ⟨.inr ⟨_, rfl⟩, _, by rw [hgroup]; simp, hcall⟩
    · cases htext
      exact ⟨.inl rfl, _, by rw [hgroup]; simp, hcall⟩
  · simp only [definePropsCall?, bind_eq_bind, bind_eq_some_iff] at h
    obtain ⟨rest₁, hname, rest₂, htypes, ⟨inside, rest₃⟩, hparens, htext⟩ := h
    obtain ⟨front, spaces, rfl, hfront, hspaces, hd'⟩ := exists_name hd (by simp [delimiters]) hname
    obtain ⟨hd'', types, htypes, ht⟩ := exists_types hd' htypes
    obtain ⟨group, rfl, hg⟩ := exists_parens hd'' hparens
    cases htext
    refine ⟨?_, _, by rw [htypes]; simp, front, spaces, types, group, rfl,
      by simp [callNames, hfront], hspaces, ht.imp_right fun ht => ⟨hfront, ht⟩, hg⟩
    split_ifs
    · exact .inl rfl
    · exact .inr ⟨_, rfl⟩

theorem takeParens?_group {group} (h : IsGroup (bracketStep '(' ')') group) (rest : List Mark) :
    takeParens? (group ++ rest) = some (group.dropLast.drop 1, rest) := by
  have hfind : balancedEnd? '(' ')' (group ++ rest) = some (group, rest) :=
    (search_brackets '(' ')').find h rest
  obtain ⟨m, ms, rfl, hturn⟩ := h.exists_head
  rw [cons_append] at hfind ⊢
  simp [takeParens?, (turn_bracketStep.1 hturn).2, hfind]

theorem dropTypeArguments?_append {types group} (h : types = [] ∨ IsTypes types)
    (hg : IsGroup (bracketStep '(' ')') group) (rest : List Mark) :
    dropTypeArguments? (types ++ (group ++ rest)) = some (group ++ rest) := by
  obtain ⟨m, ms, rfl, hturn⟩ := hg.exists_head
  have hm := (turn_bracketStep.1 hturn).2
  rcases h with rfl | ⟨angles, spaces, rfl, ha, hs⟩
  · simp [dropTypeArguments?, hm]
  · have hfind := search_angles.find ha (spaces ++ (m :: ms ++ rest))
    have hskip : skipSpaces (spaces ++ (m :: ms ++ rest)) = m :: ms ++ rest :=
      skipSpaces_append hs fun m' hm' => by cases hm'; rw [hm]; rfl
    obtain ⟨m', ms', rfl, hturn'⟩ := ha.exists_head
    rw [append_assoc, cons_append, dropTypeArguments?,
      if_pos (turn_angleStep.1 hturn').2, typeArgumentsEnd?, ← cons_append, hfind]
    exact congrArg some hskip

section

variable {spaces types group : List Mark} (hs : Spaces spaces)
  (ht : types = [] ∨ IsTypes types) (hg : IsGroup (bracketStep '(' ')') group) (rest : List Mark)
include hs ht hg

theorem dropName?_call (name : List Mark) :
    (dropName? (chars name) (name ++ (spaces ++ (types ++ (group ++ rest))))).map skipSpaces =
      some (types ++ (group ++ rest)) := by
  have hspaces : ∀ c, isSpace c = true → isPlainNameChar c = false := by
    simp only [isSpace, Bool.or_eq_true, beq_iff_eq]
    rintro c ((((rfl | rfl) | rfl) | rfl) | rfl) <;> decide
  have hhead : ∀ m ∈ (types ++ (group ++ rest)).head?, m.char = '(' ∨ m.char = '<' := by
    rintro m hm
    rcases ht with rfl | ⟨angles, spaces', rfl, ha, -⟩
    · obtain ⟨m', ms, rfl, hturn⟩ := hg.exists_head
      cases hm
      exact .inl (turn_bracketStep.1 hturn).2
    · obtain ⟨m', ms, rfl, hturn⟩ := ha.exists_head
      cases hm
      exact .inr (turn_angleStep.1 hturn).2
  rw [dropName?_append fun m hm => ?_, map_some, skipSpaces_append hs fun m hm => ?_]
  · rcases hhead m hm with h | h <;> rw [h] <;> decide
  · cases spaces with
    | nil => rcases hhead m hm with h | h <;> rw [h] <;> decide
    | cons m' spaces =>
      cases hm
      exact hspaces _ (hs _ (.head _))

theorem definePropsCall?_call {name} (hname : chars name = "defineProps".toList) :
    definePropsCall? (name ++ (spaces ++ (types ++ (group ++ rest)))) =
      some (if (trim (chars (group.dropLast.drop 1))).isEmpty then propsName
        else overlay (trim (chars (group.dropLast.drop 1))), rest) := by
  obtain ⟨_, hdrop, hskip⟩ := map_eq_some_iff.1 (dropName?_call hs ht hg rest name)
  simp only [definePropsCall?, ← hname, hdrop, hskip, dropTypeArguments?_append ht hg,
    takeParens?_group hg, bind_eq_bind, bind_some]
  rfl

end

theorem withDefaultsCall?_call {name spaces group} (hs : Spaces spaces)
    (hg : IsGroup (bracketStep '(' ')') group) (rest : List Mark)
    (hname : chars name = "withDefaults".toList) : ∃ text,
      withDefaultsCall? (name ++ (spaces ++ (group ++ rest))) = some (text, rest) ∧
      ∀ first second more, arguments (group.dropLast.drop 1) = first :: second :: more →
        text = overlay second := by
  obtain ⟨_, hdrop, hskip⟩ := map_eq_some_iff.1
    (dropName?_call hs (.inl rfl) hg rest name)
  simp only [withDefaultsCall?, ← hname, nil_append] at hdrop hskip ⊢
  simp only [hdrop, hskip, takeParens?_group hg, bind_eq_bind, bind_some]
  split
  · rename_i h
    exact ⟨_, rfl, fun _ _ _ h' => by cases h.symm.trans h'; rfl⟩
  · rename_i h
    exact ⟨_, rfl, fun _ _ _ h' => absurd h' (h _ _ _)⟩

theorem withDefaultsCall?_eq_none {name rest} (h : chars name = "defineProps".toList) :
    withDefaultsCall? (name ++ rest) = none := by
  rw [withDefaultsCall?]
  cases hdrop : dropName? "withDefaults".toList (name ++ rest) with
  | none => rfl
  | some rest' =>
    -- the first letters differ
    obtain ⟨front, hsplit, hfront⟩ := exists_of_dropName? hdrop
    have hfirst := congrArg (fun ms => (chars ms).head?) hsplit
    rw [chars] at h hfront
    simp only [chars, map_append, h, hfront] at hfirst
    cases hfirst

theorem IsCall.exists_propsCall? {call} (h : IsCall call) (rest : List Mark) :
    ∃ text, propsCall? (call ++ rest) = some (text, rest) := by
  obtain ⟨name, spaces, types, group, rfl, hname, hs, ht, hg⟩ := h
  simp only [propsCall?, append_assoc]
  rcases (mem_cons.1 hname).imp_right mem_singleton.1 with hname | hname
  · obtain rfl : types = [] := ht.resolve_right fun ht => absurd (hname.symm.trans ht.1) (by decide)
    obtain ⟨text, htext, -⟩ := withDefaultsCall?_call hs hg rest hname
    exact ⟨text, by rw [nil_append, htext]; rfl⟩
  · rw [withDefaultsCall?_eq_none hname,
      definePropsCall?_call hs (ht.imp_right And.right) hg rest hname]
    exact ⟨_, rfl⟩

/-! ### What becomes of a script -/

/-- A call that is replaced begins at the front of a text: it begins with code, and neither a
character of a name nor a dot stands before it. -/
def Begins (previous : Option Char) (call : List Mark) : Prop :=
  IsCall call ∧ (∀ m ∈ call.head?, m.isCode = true) ∧ isCallBoundary previous = true

/-- Calls are replaced from left to right, and a character that is in none is copied. -/
inductive Expands : Option Char → List Mark → List Char → Prop
  | done {previous : Option Char} : Expands previous [] []
  | copy {previous : Option Char} {m : Mark} {ms : List Mark} {out : List Char}
      (hnone : ∀ call, call <+: m :: ms → ¬ Begins previous call)
      (h : Expands (some m.char) ms out) : Expands previous (m :: ms) (m.char :: out)
  | call {previous : Option Char} {call rest : List Mark} {text out : List Char}
      (hcall : Begins previous call) (htext : IsReplacement text)
      (h : Expands (call.getLast?.map Mark.char) rest out) :
      Expands previous (call ++ rest) (text ++ out)

theorem expandFrom_append (previous : Option Char) (front ms : List Mark) :
    expandFrom previous front.length (front ++ ms) =
      expandFrom ((front.getLast?.map Mark.char).or previous) 0 ms := by
  induction front generalizing previous with
  | nil => rfl
  | cons m front ih =>
    rw [length_cons, cons_append, expandFrom]
    cases front with
    | nil => rfl
    | cons m' front => cases h : (m' :: front).getLast? <;> simp_all

theorem expandFrom_call {previous} {call rest} {text} (hcode : m.isCode = true)
    (hboundary : isCallBoundary previous = true)
    (h : propsCall? (m :: (call ++ rest)) = some (text, rest)) :
    expandFrom previous 0 (m :: (call ++ rest)) =
      text ++ expandFrom ((m :: call).getLast?.map Mark.char) 0 rest := by
  have hlength : (call ++ rest).length - rest.length = call.length := by simp
  simp only [expandFrom, hcode, hboundary, Bool.and_self, if_true, h, hlength, expandFrom_append]
  cases call <;> rfl

theorem IsCall.ne_nil {call} (h : IsCall call) : call ≠ [] := by
  obtain ⟨name, spaces, types, group, rfl, -, -, -, hg⟩ := h
  obtain ⟨m, ms, rfl, -⟩ := hg.exists_head
  simp

theorem expands_expandFrom {code} {ms} (hd : Delimited code ms) (previous : Option Char) :
    Expands previous ms (expandFrom previous 0 ms) := by
  induction hn : ms.length using Nat.strong_induction_on generalizing ms code previous with
  | _ n ih =>
    subst hn
    cases ms with
    | nil => exact .done
    | cons m ms =>
      have hrest := ih ms.length (by simp) hd.2 (some m.char) rfl
      by_cases hsite : m.isCode = true ∧ isCallBoundary previous = true
      · cases hcall : propsCall? (m :: ms) with
        | none =>
          have he : expandFrom previous 0 (m :: ms) = m.char :: expandFrom (some m.char) 0 ms := by
            simp [expandFrom, hcall]
          rw [he]
          refine .copy (fun call ⟨rest, hsplit⟩ hb => ?_) hrest
          obtain ⟨text, htext⟩ := hb.1.exists_propsCall? rest
          rw [hsplit, hcall] at htext
          cases htext
        | some p =>
          have hd' : Delimited true (m :: ms) := ⟨fun _ h => by simp [hsite.1] at h, hd.2⟩
          obtain ⟨htext, call, hsplit, hc⟩ := exists_call hd' hcall
          obtain ⟨m', call, rfl⟩ := exists_cons_of_ne_nil hc.ne_nil
          rw [cons_append] at hsplit
          cases hsplit
          rw [expandFrom_call hsite.1 hsite.2 hcall]
          exact .call ⟨hc, fun m' hm' => by cases hm'; exact hsite.1, hsite.2⟩ htext
            (ih p.2.length (by simp only [length_cons, length_append]; omega)
              (hd.append (m :: call)) _ rfl)
      · have he : expandFrom previous 0 (m :: ms) = m.char :: expandFrom (some m.char) 0 ms := by
          simp [expandFrom, hsite]
        rw [he]
        refine .copy (fun call ⟨rest, hp⟩ ⟨hc, hcode, hboundary⟩ => hsite ⟨?_, hboundary⟩) hrest
        obtain ⟨m', call, rfl⟩ := exists_cons_of_ne_nil hc.ne_nil
        exact (List.cons.inj hp).1 ▸ hcode m' rfl

/-- Every place where one of the names stands is in a string or comment or after a dot. -/
def Hidden (previous : Option Char) (ms : List Mark) : Prop :=
  ∀ front m back, ms = front ++ m :: back → (∃ name ∈ callNames, name <+: chars (m :: back)) →
    m.isCode = false ∨ (previous.toList ++ chars front).getLast? = some '.'

theorem Expands.eq_chars {previous} {ms} {out} (h : Expands previous ms out)
    (hidden : Hidden previous ms) : out = chars ms := by
  induction h with
  | done => rfl
  | @copy previous m ms out _ _ ih =>
    rw [ih fun front m' back hsplit hname => ?_]
    · rfl
    · refine (hidden (m :: front) m' back (by rw [hsplit]; rfl) hname).imp_right fun hdot => ?_
      simpa [chars] using hdot
  | @call previous call rest text out hcall _ _ _ =>
    obtain ⟨⟨name, spaces, types, group, rfl, hname, -⟩, hcode, hboundary⟩ := hcall
    cases name with
    | nil => exact absurd hname (by decide)
    | cons m name =>
      rcases hidden [] m _ rfl ⟨_, hname, by simp [chars]⟩ with hcode' | hdot
      · exact absurd (hcode m rfl) (by simp [hcode'])
      · cases previous with
        | none => cases hdot
        | some c =>
          cases hdot
          cases hboundary

theorem chars_marksFrom (k : Nat) (s : List Char) : chars (marksFrom k s) = s := by
  fun_induction marksFrom k s with
  | case1 => rfl
  | case2 _ _ _ ih | case3 _ _ _ _ ih | case4 _ _ _ ih => rw [chars, map_cons, ← chars, ih]

theorem chars_marks (s : List Char) : chars (marks s) = s := chars_marksFrom 0 s

theorem expands_marks (s : List Char) : Expands none (marks s) (expandProps s) :=
  expands_expandFrom (delimited_marksFrom (fun _ : true = true => rfl) s) none

theorem expandProps_of_hidden (h : Hidden none (marks s)) : expandProps s = s :=
  ((expands_marks s).eq_chars h).trans (chars_marks s)

/-- **Calls are replaced, and nothing else.**  From left to right, each call that begins with code,
and with neither a character of a name nor a dot before it, is replaced up to the bracket that
closes it, and all other characters are copied.  A script that has the two names in strings and
comments and after dots only is as it was. -/
theorem expands_expandProps (s : List Char) :
    Expands none (marks s) (expandProps s) ∧ (Hidden none (marks s) → expandProps s = s) :=
  ⟨expands_marks s, expandProps_of_hidden⟩

end ReactiveMarkup.Script
