/-
The events that a module asks to have delegated.

Handlers of elements are only heard if their events are delegated, so the call at the end of a
module has to name each event for which a statement sets a handler, wherever the element stands.
Components take handlers as properties, and their events are no concern of the document.

* `generate_delegates`: what this says about a module.
-/
import Mathlib.Data.String.Basic
import ReactiveMarkup.Proofs.Output.Hygiene
import ReactiveMarkup.Proofs.Text.Quoting

namespace ReactiveMarkup.Text

open List

/-! ### The order of bytes -/

theorem utf8EncodeChar_append_lt (h : c < d) (s t : List UInt8) :
    String.utf8EncodeChar c ++ s < String.utf8EncodeChar d ++ t := by
  have hlt : c.val.toNat < d.val.toNat := h
  have hmax : d.val.toNat < 1114112 := by
    rcases d.valid with hd | hd
    · exact Nat.lt_trans hd (by decide)
    · exact hd.2
  have hbyte {m n : Nat} (hm : m < 256) (hn : n < 256) :
      (UInt8.ofNat m < UInt8.ofNat n ↔ m < n) ∧ (UInt8.ofNat m = UInt8.ofNat n ↔ m = n) := by
    rw [UInt8.lt_iff_toNat_lt, ← UInt8.toNat_inj, UInt8.toNat_ofNat', UInt8.toNat_ofNat',
      Nat.mod_eq_of_lt hm, Nat.mod_eq_of_lt hn]
    exact ⟨Iff.rfl, Iff.rfl⟩
  -- bytes after the first one hold six bits each
  have hdigit {m n : Nat} (h : m < n) : m / 64 < n / 64 ∨ m / 64 = n / 64 ∧ m % 64 < n % 64 := by
    omega
  rw [String.utf8EncodeChar, String.utf8EncodeChar]
  split_ifs <;>
    simp (disch := omega) only [cons_append, cons_lt_cons_iff,
      (hbyte _ _).1, (hbyte _ _).2] <;> try omega
  -- four bytes each: `omega` needs to be told which digit differs
  rcases hdigit hlt with h | h
  · rcases hdigit h with h | h
    · omega
    · omega
  · omega

theorem utf8_lt_of_lt (h : s < t) : utf8 s < utf8 t := by
  have hlt : s.toList < t.toList := String.lt_iff_toList_lt.1 h
  rw [utf8_eq, utf8_eq]
  generalize s.toList = l, t.toList = l' at hlt
  induction hlt with
  | @nil c cs =>
    obtain ⟨x, l, hc⟩ := exists_cons_of_ne_nil String.utf8EncodeChar_ne_nil
    rw [flatMap_cons, hc]
    exact nil_lt_cons x _
  | cons _ ih =>
    exact append_left_lt ih
  | rel h => exact utf8EncodeChar_append_lt h _ _

end ReactiveMarkup.Text

namespace ReactiveMarkup.Output

open Template List
open Text (lowered quote utf8)

/-! ### The events that are named -/

theorem mem_insertSorted : t ∈ insertSorted s l ↔ t = s ∨ t ∈ l := by
  induction l with
  | nil => simp [insertSorted]
  | cons a rest ih =>
    rw [insertSorted]
    split_ifs with hlt heq
    · simp
    · simp [heq]
    · simp [ih, or_left_comm]

theorem pairwise_insertSorted (h : l.Pairwise (· < ·)) : (insertSorted s l).Pairwise (· < ·) := by
  fun_induction insertSorted s l <;> grind [mem_insertSorted, pairwise_cons]

def ownHandlers (head : Head) : List Binding := if head.isComponent then [] else head.events

mutual

theorem eventsOf_eq : ∀ node : Node,
    eventsOf node = ((headsOf node).flatMap ownHandlers).map fun b => lowered b.name
  | .text _ => rfl
  | .element head children => by
    rw [eventsOf, headsOf, flatMap_cons, map_append, eventsIn_eq, ownHandlers]
    cases head.isComponent <;> rfl

theorem eventsIn_eq : ∀ nodes : List Node,
    eventsIn nodes = ((headsIn nodes).flatMap ownHandlers).map fun b => lowered b.name
  | [] => rfl
  | node :: rest => by
    rw [eventsIn, headsIn, flatMap_append, map_append, eventsOf_eq, eventsIn_eq]

end

theorem mem_delegatedEvents {nodes} : e ∈ delegatedEvents nodes ↔
    ∃ b ∈ (headsIn nodes).flatMap ownHandlers, e = lowered b.name := by
  have hfold : ∀ (events sorted : List String),
      e ∈ events.foldl (fun sorted e => insertSorted e sorted) sorted ↔ e ∈ sorted ∨
        e ∈ events := by
    intro events
    induction events with
    | nil => simp
    | cons a rest ih =>
      intro sorted
      rw [foldl_cons, ih, mem_insertSorted, mem_cons, or_left_comm, or_assoc]
  rw [delegatedEvents, hfold, eventsIn_eq]
  simp [eq_comm]

theorem pairwise_delegatedEvents (nodes : List Node) :
    (delegatedEvents nodes).Pairwise (· < ·) := by
  have hfold : ∀ events sorted : List String, sorted.Pairwise (· < ·) →
      (events.foldl (fun sorted e => insertSorted e sorted) sorted).Pairwise (· < ·) := by
    intro events
    induction events with
    | nil => exact fun _ h => h
    | cons a rest ih => exact fun _ h => ih _ (pairwise_insertSorted h)
  exact hfold _ _ .nil

theorem events_outline (head : Head) (later : List (Option String)) :
    (head.outline later).filterMap Sign.event? = ownHandlers head := by
  rw [Head.outline, Head.signs, ownHandlers]
  cases head.directives.condition <;> cases head.continues <;> cases head.directives.each <;>
    cases head.isComponent <;> simp [chainSigns, eachSigns, filterMap_cons, Sign.event?,
      Function.comp_def]

/-! ### Lines that are no calls -/

/-- Whether a piece does not come from the template. -/
def Piece.isOwn : Piece → Bool
  | .given _ | .chosen _ => false
  | .wording _ | .runner | .bound _ | .used _ => true

theorem toList_delegateName :
    delegateName.toList = '_' :: '$' :: 'd' :: "elegateEvents".toList := by
  decide

theorem toList_effectName : effectName.toList = '_' :: '$' :: 'c' :: "reateEffect".toList := by
  decide

theorem Piece.not_infix {p : Piece} (hown : p.isOwn = true) (hplain : p.isPlain = true) :
    ¬ delegateName.toList <:+: p.text.toList := by
  -- names begin with the sign that the call begins with, and hold it once
  have hname {s : List Char} {c d : Char} (hsign : '_' ∉ c :: d :: s) (hne : c ≠ '$' ∨ d ≠ 'd') :
      ¬ delegateName.toList <:+: '_' :: c :: d :: s := by
    rw [toList_delegateName, infix_cons_iff]
    rintro (⟨after, h⟩ | h)
    · simp only [cons_append, cons.injEq] at h
      exact hne.elim (· h.2.1.symm) (· h.2.2.1.symm)
    · exact hsign (h.subset (.head _))
  cases p with
  | given | chosen => cases hown
  | wording text =>
    rw [Piece.isPlain, all_eq_true] at hplain
    intro h
    simpa using hplain '$' (h.subset (by decide))
  | runner =>
    rw [Piece.text, toList_effectName]
    exact hname (by decide) (by decide)
  | bound x | used x =>
    obtain ⟨c, d, rest, hx, hc, hsign⟩ := x.exists_name
    rw [Piece.text, hx]
    exact hname hsign (.inl hc)

/-- A line begins with a piece of its own, and so with no call. -/
theorem Draft.not_prefix {d : Draft} (h : d.isFrank = true) :
    ¬ delegateName.toList <+: d.text.toList := by
  have hplain := fun p => Draft.isPlain_of_mem (p := p) h
  rw [Draft.isFrank] at h
  split at h
  case h_2 => cases h
  case h_1 a b ha hb =>
    obtain ⟨first, hfirst, ha⟩ := Option.bind_eq_some_iff.1 ha
    obtain ⟨rest, hrest⟩ := head?_eq_some_iff.1 hfirst
    replace hplain := hplain first (by simp [hrest])
    rw [d.toList_text, hrest, flatMap_cons, toList_delegateName]
    rintro ⟨after, hcall⟩
    cases first with
    | given | chosen => cases ha
    | wording text =>
      -- its first sign is that of the call, which no wording holds
      obtain ⟨more, htext⟩ := head?_eq_some_iff.1 ha
      rw [Piece.isPlain, htext, all_cons] at hplain
      rw [Piece.text, htext] at hcall
      simp [← (cons.inj hcall).1] at hplain
    | runner =>
      rw [Piece.text, toList_effectName] at hcall
      cases (cons.inj (cons.inj (cons.inj hcall).2).2).1
    | bound x | used x =>
      obtain ⟨c, d, more, hname, hc, -⟩ := x.exists_name
      rw [Piece.text, hname] at hcall
      exact hc (cons.inj (cons.inj hcall).2).1.symm

theorem delegateLines_eq (events : List String) : delegateLines events = if events = [] then []
    else ["", "_$delegateEvents([" ++ ", ".intercalate (events.map quote) ++ "]);"] := by
  have hname : delegateName ++ "([" = "_$delegateEvents([" := by decide
  rw [delegateLines, hname]
  simp only [List.isEmpty_iff]

/-- **Delegated events.**  A module ends with a call that names the events for which elements
anywhere in the template have handlers, each once and in increasing order, and has no such call
if there are none.  They are those for which its statements set handlers.  No line of its function
begins like the call, and no piece of one that does not come from the template names the function
that is called. -/
theorem generate_delegates {nodes : List Node} {sections : Component.Sections} {options : Options}
    {compiled : Compiled} (h : generate nodes sections options = .ok compiled) :
    ∃ items events, plan options.file nodes = .ok items ∧
      compiled.code = "\n".intercalate
        (prologue options (Script.prepare sections.script sections.language) ++
          write 1 (moduleDrafts items) ++ "\x7d" ::
          if events = [] then []
          else ["", "_$delegateEvents([" ++ ", ".intercalate (events.map quote) ++ "]);"]) ++ "\n" ∧
      (∀ d ∈ moduleDrafts items, ¬ "_$delegateEvents".toList <+: d.text.toList ∧
        ∀ p ∈ d.pieces, p.isOwn → ¬ "_$delegateEvents".toList <:+: p.text.toList) ∧
      events.Pairwise (fun a b => utf8 a < utf8 b) ∧
      (∀ e, e ∈ events ↔ ∃ head ∈ headsIn nodes, head.isComponent = false ∧
        ∃ b ∈ head.events, e = lowered b.name) ∧
      ∀ e, e ∈ events ↔ ∃ b, .handler b ∈ signs (buildRoot items) ∧ e = lowered b.name := by
  obtain ⟨items, hplan, hcode⟩ := exists_plan_of_generate h
  refine ⟨items, delegatedEvents nodes, hplan, ?_, fun d hd => ?_,
    (pairwise_delegatedEvents nodes).imp Text.utf8_lt_of_lt, fun e => ?_, fun e => ?_⟩
  · rw [hcode, ← delegateLines_eq]
    rfl
  · have hfrank := Draft.isFrank_of_mem hd
    exact ⟨Draft.not_prefix hfrank,
      fun p hp hown => Piece.not_infix hown (Draft.isPlain_of_mem hfrank hp)⟩
  · simp only [mem_delegatedEvents, mem_flatMap, ownHandlers]
    constructor
    · rintro ⟨b, ⟨head, hhead, hb⟩, he⟩
      split at hb
      · cases hb
      · rename_i hc
        exact ⟨head, hhead, by simpa using hc, b, hb, he⟩
    · rintro ⟨head, hhead, hc, b, hb, he⟩
      exact ⟨b, ⟨head, hhead, by simpa [hc] using hb⟩, he⟩
  · rw [mem_delegatedEvents, ← filterMap_outlineIn events_outline, ← signs_buildRoot hplan]
    simp only [mem_filterMap]
    constructor
    · rintro ⟨b, ⟨sign, hsign, hb⟩, he⟩
      cases sign <;> cases hb
      exact ⟨b, hsign, he⟩
    · rintro ⟨b, hsign, he⟩
      exact ⟨b, ⟨_, hsign, rfl⟩, he⟩

theorem generate_delegates_branching :
    (∃ compiled, generate branching ⟨"", "", "js", [], ⟨1, 1⟩⟩ {} = .ok compiled) ∧
    ∃ items, ∃ events : List String, plan "<anonymous>" branching = .ok items ∧
      events.Pairwise (fun a b => utf8 a < utf8 b) ∧ "click" ∈ events ∧ "input" ∈ events ∧
      "close" ∉ events := by
  obtain ⟨compiled, hgenerate⟩ := generate_branching
  obtain ⟨items, events, hplan, -, -, hsorted, hmem, -⟩ := generate_delegates hgenerate
  refine ⟨⟨_, hgenerate⟩, items, events, hplan, hsorted, ?_⟩
  simp only [hmem]
  decide +kernel

end ReactiveMarkup.Output
