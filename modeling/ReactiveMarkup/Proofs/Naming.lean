/-
Components have names.

A component is named after its file.  Whatever the name of the file is, a name comes out that can be
bound in a script: it has letters and digits only, and a capital first, or an underscore first where
a digit would be.  A file that has such a name already gives that name.

* `Project.componentName_proper`: names of components.
-/
import Mathlib.Data.List.Basic
import ReactiveMarkup.Project
import ReactiveMarkup.Script.Grammar.Parser

namespace ReactiveMarkup.Project

open Text
open List hiding splitBy

/-- The name of a file without its extension. -/
def stemOf (path : String) : List Char := (stem ((fileName? path).getD "")).toList

/-- The letters and digits of a text.  Each one that does not follow another is made a capital;
whether the first one does is told by `inside`. -/
def capitalizedRuns (inside : Bool) : List Char → List Char
  | [] => []
  | c :: s =>
    if isAlphanumeric c then (if inside then c else toUpper c) :: capitalizedRuns true s
    else capitalizedRuns false s

/-! ### Letters and digits -/

theorem isUpper_or_isDigit_toUpper (h : isAlphanumeric c = true) :
    (isUpper (toUpper c) || isDigit (toUpper c)) = true := by
  rw [toUpper]
  split_ifs with hc
  · have hcodes : ∀ n < 123, 97 ≤ n → isUpper (Char.ofNat (n - 32)) = true := by decide
    simp only [isLower, Bool.and_eq_true, decide_eq_true_eq] at hc
    rw [hcodes c.toNat (Nat.lt_succ_of_le hc.2) hc.1, Bool.true_or]
  · simpa [isAlphanumeric, isLetter, hc] using h

theorem isAlphanumeric_of (h : (isUpper c || isDigit c) = true) : isAlphanumeric c = true := by
  rw [isAlphanumeric, isLetter, Bool.or_assoc, h, Bool.or_true]

theorem isAlphanumeric_of_mem {inside} (h : c ∈ capitalizedRuns inside s) :
    isAlphanumeric c = true := by
  induction s generalizing inside with
  | nil => cases h
  | cons d s ih =>
    rw [capitalizedRuns] at h
    split_ifs at h with hd hinside
    · rcases mem_cons.1 h with rfl | h
      · exact hd
      · exact ih h
    · rcases mem_cons.1 h with rfl | h
      · exact isAlphanumeric_of (isUpper_or_isDigit_toUpper hd)
      · exact ih h
    · exact ih h

theorem joinWords_eq (s : List Char) : joinWords s = capitalizedRuns false s := by
  -- the first word is made a capital only if nothing of it has come before
  have hwords : ∃ word words, splitBy (fun c => !isAlphanumeric c) s = word :: words ∧
      capitalizedRuns true s = word ++ (words.map capitalized).flatten ∧
      capitalizedRuns false s = capitalized word ++ (words.map capitalized).flatten := by
    induction s with
    | nil => exact ⟨[], [], rfl, rfl, rfl⟩
    | cons c s ih =>
      obtain ⟨word, words, hs, hinside, hfirst⟩ := ih
      cases hc : isAlphanumeric c with
      | true => exact ⟨c :: word, words, by simp [splitBy, hc, hs], by simp [capitalizedRuns, hc,
          hinside],
          by simp [capitalizedRuns, hc, hinside, capitalized]⟩
      | false => exact ⟨[], word :: words, by simp [splitBy, hc, hs],
          by simp [capitalizedRuns, hc, hfirst], by simp [capitalizedRuns, hc, hfirst, capitalized]⟩
  obtain ⟨word, words, hs, -, hfirst⟩ := hwords
  rw [joinWords, hs, hfirst, map_cons, flatten_cons]

theorem capitalizedRuns_eq_self (h : ∀ c ∈ s, isAlphanumeric c = true) :
    capitalizedRuns true s = s := by
  induction s with
  | nil => rfl
  | cons c s ih =>
    obtain ⟨hc, hs⟩ := forall_mem_cons.1 h
    rw [capitalizedRuns, if_pos hc, if_pos rfl, ih hs]

theorem capitalizedRuns_cases (s : List Char) :
    capitalizedRuns false s = [] ∧ (∀ c ∈ s, isAlphanumeric c = false) ∨
      ∃ c rest, capitalizedRuns false s = c :: rest ∧ (isUpper c || isDigit c) = true ∧
        ∀ d ∈ rest, isAlphanumeric d = true := by
  induction s with
  | nil => exact .inl ⟨rfl, nofun⟩
  | cons c s ih =>
    rw [capitalizedRuns]
    cases hc : isAlphanumeric c with
    | true => exact .inr ⟨_, _, rfl, isUpper_or_isDigit_toUpper hc, fun d => isAlphanumeric_of_mem⟩
    | false => exact ih.imp (fun h => ⟨h.1, forall_mem_cons.2 ⟨hc, h.2⟩⟩) id

/-! ### Names -/

/-- What a name consists of: a capital and letters and digits, or an underscore, a digit and
letters and digits. -/
def IsProper (name : List Char) : Prop :=
  ∃ c rest, (∀ d ∈ rest, isAlphanumeric d = true) ∧
    (name = c :: rest ∧ isUpper c = true ∨ name = '_' :: c :: rest ∧ isDigit c = true)

theorem isLower_eq_false (h : (isUpper c || isDigit c) = true) : isLower c = false := by
  refine Bool.eq_false_iff.2 fun hc => ?_
  simp only [isLower, isUpper, isDigit, Bool.and_eq_true, Bool.or_eq_true, decide_eq_true_eq,
    Char.le_def, UInt32.le_iff_toNat_le] at h hc
  have hcodes : 'a'.val.toNat = 97 ∧ 'Z'.val.toNat = 90 ∧ '9'.val.toNat = 57 := by decide
  omega

theorem isDigit_eq_false (h : isUpper c = true) : isDigit c = false := by
  refine Bool.eq_false_iff.2 fun hc => ?_
  simp only [isUpper, isDigit, Bool.and_eq_true, decide_eq_true_eq, Char.le_def,
    UInt32.le_iff_toNat_le] at h hc
  have hcodes : 'A'.val.toNat = 65 ∧ '9'.val.toNat = 57 := by decide
  omega

theorem toList_componentName {path} {rest} (h : capitalizedRuns false (stemOf path) = c :: rest) :
    (componentName path).toList = if isDigit c then '_' :: c :: rest else c :: rest := by
  have hwords : joinWords (stem ((fileName? path).getD "")).toList = c :: rest :=
    (joinWords_eq _).trans h
  delta componentName
  rw [hwords]
  cases hdigit : isDigit c <;> simp [hdigit]

theorem componentName_cases (path : String) :
    (∀ c ∈ stemOf path, isAlphanumeric c = false) ∧ componentName path = Output.standardName ∨
    ∃ c rest, capitalizedRuns false (stemOf path) = c :: rest ∧
      (∀ d ∈ rest, isAlphanumeric d = true) ∧
      ((componentName path).toList = c :: rest ∧ isUpper c = true ∨
        (componentName path).toList = '_' :: c :: rest ∧ isDigit c = true) := by
  rcases capitalizedRuns_cases (stemOf path) with ⟨hruns, hnone⟩ | ⟨c, rest, hruns, hc, hrest⟩
  · have hwords : joinWords (stem ((fileName? path).getD "")).toList = [] :=
      (joinWords_eq _).trans hruns
    refine .inl ⟨hnone, ?_⟩
    delta componentName
    rw [hwords]
  · refine .inr ⟨c, rest, hruns, hrest, ?_⟩
    rw [toList_componentName hruns]
    cases hdigit : isDigit c with
    | true => exact .inr ⟨rfl, rfl⟩
    | false => exact .inl ⟨rfl, by simpa [hdigit] using hc⟩

theorem isProper_componentName (path : String) : IsProper (componentName path).toList := by
  rcases componentName_cases path with ⟨-, hname⟩ | ⟨c, rest, -, hrest, hname⟩
  · rw [hname]
    exact ⟨'C', "omponent".toList, all_eq_true.1 (by decide), .inl ⟨rfl, rfl⟩⟩
  · exact ⟨c, rest, hrest, hname⟩

theorem splitBy_eq_singleton (h : ∀ c ∈ s, p c = false) : splitBy p s = [s] := by
  induction s with
  | nil => rfl
  | cons c s ih =>
    obtain ⟨hc, hs⟩ := forall_mem_cons.1 h
    rw [splitBy, ih hs, hc]

theorem IsProper.head?_cases {name} (h : IsProper name) :
    ∃ c, name.head? = some c ∧ (isUpper c = true ∨ c = '_') := by
  obtain ⟨c, rest, -, ⟨rfl, hc⟩ | ⟨rfl, -⟩⟩ := h
  · exact ⟨c, rfl, .inl hc⟩
  · exact ⟨'_', rfl, .inr rfl⟩

theorem IsProper.mem_cases {name} (h : IsProper name) (hd : d ∈ name) :
    isAlphanumeric d = true ∨ d = '_' := by
  obtain ⟨c, rest, hrest, ⟨rfl, hc⟩ | ⟨rfl, hc⟩⟩ := h
  · rcases mem_cons.1 hd with rfl | hd
    · exact .inl (isAlphanumeric_of (by rw [hc, Bool.true_or]))
    · exact .inl (hrest d hd)
  · rcases mem_cons.1 hd with rfl | hd
    · exact .inr rfl
    rcases mem_cons.1 hd with rfl | hd
    · exact .inl (isAlphanumeric_of (by rw [hc, Bool.or_true]))
    · exact .inl (hrest d hd)

/-- A name is the stem of the file that is called after it: neither a slash nor a dot is in it. -/
theorem stemOf_append {name} (h : IsProper name.toList) :
    stemOf (name ++ ".tanni") = name.toList := by
  have hne : ∀ d : Char, isAlphanumeric d = false → d ≠ '_' → d ∉ name.toList := by
    intro d hd hline hmem
    rcases h.mem_cases hmem with hd' | rfl
    · rw [hd] at hd'; cases hd'
    · exact hline rfl
  have htext : (name ++ ".tanni").toList = name.toList ++ ".tanni".toList := String.toList_append
  have hslash : ∀ c ∈ (name ++ ".tanni").toList, (c == '/') = false := by
    intro c hc
    rw [htext, mem_append] at hc
    refine beq_false_of_ne ?_
    rintro rfl
    exact hc.elim (hne '/' rfl (by decide)) (by decide)
  have hdots : (name ++ ".tanni").toList ≠ ['.'] ∧ name ++ ".tanni" ≠ ".." := by
    refine ⟨fun hdot => ?_, fun hdots => ?_⟩
    · simpa [htext] using congrArg List.length hdot
    · simpa [htext] using congrArg (List.length ∘ String.toList) hdots
  have hfile : fileName? (name ++ ".tanni") = some (name ++ ".tanni") := by
    have hsteps : steps (name ++ ".tanni") = [name ++ ".tanni"] := by
      rw [steps, splitBy_eq_singleton hslash]
      refine filterMap_cons_some ?_
      rw [beq_false_of_ne hdots.1]
      simp
    rw [fileName?, hsteps, getLast?_singleton]
    exact if_neg (by rw [beq_false_of_ne hdots.2]; decide)
  have hext : splitExtension? (name ++ ".tanni") = some (name.toList, "tanni".toList) := by
    obtain ⟨c, hc, -⟩ := h.head?_cases
    have hname : name ≠ "" := by
      rintro rfl
      cases hc
    simp [splitExtension?, hname]
  rw [stemOf, hfile, Option.getD_some, stem, hext, String.toList_ofList]

theorem capitalizedRuns_proper {rest} (hc : (isUpper c || isDigit c) = true)
    (h : ∀ d ∈ rest, isAlphanumeric d = true) : capitalizedRuns false (c :: rest) = c :: rest := by
  rw [capitalizedRuns, if_pos (isAlphanumeric_of hc), if_neg Bool.false_ne_true,
    capitalizedRuns_eq_self h, toUpper, isLower_eq_false hc, if_neg Bool.false_ne_true]

theorem componentName_append {name} (h : IsProper name.toList) :
    componentName (name ++ ".tanni") = name := by
  have hstem := stemOf_append h
  refine String.toList_inj.1 ?_
  obtain ⟨c, rest, hrest, ⟨hname, hc⟩ | ⟨hname, hc⟩⟩ := h
  · have hruns : capitalizedRuns false (stemOf (name ++ ".tanni")) = c :: rest := by
      rw [hstem, hname, capitalizedRuns_proper (by rw [hc, Bool.true_or]) hrest]
    rw [toList_componentName hruns, isDigit_eq_false hc, hname, if_neg Bool.false_ne_true]
  · -- the underscore is dropped with the other marks and stands before the digit again
    have hruns : capitalizedRuns false (stemOf (name ++ ".tanni")) = c :: rest := by
      rw [hstem, hname]
      exact capitalizedRuns_proper (by rw [hc, Bool.or_true]) hrest
    rw [toList_componentName hruns, hc, if_pos rfl, hname]

/-- **Components have names.**  Whatever the path of its file is, the name of a component is a
capital or an underscore and a digit, with letters and digits after it.  So it is a name in a
script, and it stands for a component in a template unless an underscore is first.  If there are
letters or digits in the name of the file, they are those of the name, in order, and the first one
of each run is made a capital.  The file that is called after the name has that name too. -/
theorem componentName_proper (path : String) :
    IsProper (componentName path).toList ∧
    ((∃ c ∈ (componentName path).toList.head?, beginsName c = true) ∧
      (∀ c ∈ (componentName path).toList, continuesName c = true) ∧
      componentName path ∉ Script.Grammar.reservedWords) ∧
    ((componentName path).toList.head? ≠ some '_' →
      Markup.isComponent (componentName path) = true) ∧
    ((∃ c ∈ stemOf path, isAlphanumeric c = true) →
      (componentName path).toList = capitalizedRuns false (stemOf path) ∨
      (componentName path).toList = '_' :: capitalizedRuns false (stemOf path)) ∧
    componentName (componentName path ++ ".tanni") = componentName path := by
  have hname := isProper_componentName path
  obtain ⟨first, hfirst, hcapital⟩ := hname.head?_cases
  refine ⟨hname, ⟨⟨first, hfirst, ?_⟩, ?_, ?_⟩, ?_, ?_, componentName_append hname⟩
  · rcases hcapital with hupper | rfl
    · simp [beginsName, isLetter, hupper]
    · rfl
  · intro c hc
    rcases hname.mem_cases hc with hc | rfl
    · simp only [isAlphanumeric, Bool.or_eq_true] at hc
      rcases hc with hc | hc <;> simp [continuesName, beginsName, hc]
    · rfl
  · -- every reserved word has a small letter first
    intro hreserved
    have hsmall : ∀ word ∈ Script.Grammar.reservedWords, word.toList.head?.all isLower = true := by
      decide
    have hlower : isLower first = true := by
      simpa [hfirst] using hsmall _ hreserved
    rcases hcapital with hupper | rfl
    · rw [isLower_eq_false (by rw [hupper, Bool.true_or])] at hlower
      cases hlower
    · cases hlower
  · intro hline
    rcases hcapital with hupper | rfl
    · obtain ⟨rest, hrest⟩ := head?_eq_some_iff.mp hfirst
      simp [Markup.isComponent, hrest, isCapital, hupper]
    · exact absurd hfirst hline
  · rintro ⟨c, hc, halpha⟩
    rcases componentName_cases path with ⟨hnone, -⟩ | ⟨d, rest, hruns, -, ⟨hname, -⟩ | ⟨hname, -⟩⟩
    · rw [hnone c hc] at halpha
      cases halpha
    · exact .inl (hname.trans hruns.symm)
    · exact .inr (hname.trans (congrArg _ hruns.symm))

end ReactiveMarkup.Project
