/-
What calls do to the entries of a cache.

All that a call can change is the entry of its own file: it takes away an entry that cannot be read,
or writes a new one.  What is written can be read back, so a result that is kept is found again by
the same call, and by no call whose digest is another.

* `Cache.look_keep`: what is kept is found again;
* `Cache.calls_confined`: which entries calls change.
-/
import ReactiveMarkup.Cache
import ReactiveMarkup.Proofs.Text.Quoting

namespace ReactiveMarkup

open List

open Output (Options Compiled)
open Text (Json quote escape)

/-! ### Directories -/

namespace Directory

theorem get?_cons (f : String × Option String) (rest : Directory) (name : String) :
    get? (f :: rest) name = if f.1 = name then f.2 else get? rest name := by
  by_cases h : f.1 = name
  · simp [get?, h]
  · simp [get?, h]

theorem get?_put (d : Directory) (name text other : String) :
    get? (put name text d) other = if name = other then some text else get? d other := by
  fun_induction put name text d <;> simp_all only [get?_cons] <;> grind

theorem remove_put (d : Directory) (name text : String) :
    remove (put name text d) name = d.remove name := by
  fun_induction put name text d with
  | case1 => simp [remove]
  | case2 f rest hlt => simp [remove]
  | case3 f rest hlt heq => simp [remove, heq]
  | case4 f rest hlt hne ih =>
    simp only [remove, filter_cons] at ih ⊢
    rw [ih]

end Directory

/-! ### Entries -/

theorem toList_quote (s : String) : (quote s).toList = '\"' :: (escape s.toList ++ ['\"']) := by
  rw [quote, String.toList_ofList, cons_append]

theorem Entry.toList_encode (e : Entry) :
    e.encode.toList =
      '\x7b' :: '\"' :: (escape "hash".toList ++ '\"' :: ':' ::
        '\"' :: (escape e.hash.toList ++ '\"' :: ',' ::
        '\"' :: (escape "result".toList ++ '\"' :: ':' ::
        '\x7b' :: '\"' :: (escape "code".toList ++ '\"' :: ':' ::
        '\"' :: (escape e.result.code.toList ++ '\"' :: ',' ::
        '\"' :: (escape "css".toList ++ '\"' :: ':' ::
        '\"' :: (escape e.result.css.toList ++ ['\"', '\x7d', '\x7d']))))))) := by
  have hhash : ("\x7b\"hash\":").toList = '\x7b' :: '\"' ::
    (escape "hash".toList ++ ['\"', ':']) := by
    decide +kernel
  have hresult : (",\"result\":\x7b\"code\":").toList = ',' :: '\"' :: (escape "result".toList ++
      '\"' :: ':' :: '\x7b' :: '\"' :: (escape "code".toList ++ ['\"', ':'])) := by
    decide +kernel
  have hcss : (",\"css\":").toList = ',' :: '\"' :: (escape "css".toList ++ ['\"', ':']) := by
    decide +kernel
  have hend : ("\x7d\x7d").toList = ['\x7d', '\x7d'] := by decide +kernel
  delta Entry.encode
  simp only [String.toList_append, toList_quote, hhash, hresult, hcss, hend, cons_append,
    append_assoc, nil_append]

theorem Entry.parse?_encode (e : Entry) :
    Json.parse? e.encode.toList = some (.object [
      (escape "hash".toList, .string (escape e.hash.toList)),
      (escape "result".toList, .object [
        (escape "code".toList, .string (escape e.result.code.toList)),
        (escape "css".toList, .string (escape e.result.css.toList))])]) := by
  obtain ⟨k, hk⟩ : ∃ k, 2 * e.encode.toList.length + 2 = k + 8 := by
    refine Nat.exists_eq_add_of_le' ?_
    rw [Entry.toList_encode]
    simp only [length_cons, length_append]
    omega
  have hinner := Json.value?_object (Json.fields?_cons "code".toList
    (Json.value?_quoted (k + 2) e.result.code.toList _)
    (Json.fields?_last "css".toList
      (Json.value?_quoted (k + 1) e.result.css.toList ['\x7d', '\x7d'])))
  have houter := Json.value?_object (Json.fields?_cons "hash".toList
    (Json.value?_quoted (k + 5) e.hash.toList _) (Json.fields?_last "result".toList hinner))
  rw [Json.parse?, hk, Entry.toList_encode]
  rw [houter]
  rfl

theorem Entry.decode?_encode (e : Entry) : Entry.decode? e.encode = some e := by
  have htext : ∀ s : String, Json.text? (.string (escape s.toList)) = some s := by
    intro s
    rw [Json.text?, Text.unescape?_escape, Option.map_some, String.ofList_toList]
  have hrecord : ∀ (m n : String) (v w : Json), (m == n) = false →
      Json.record? [m, n] (.object [(escape m.toList, v), (escape n.toList, w)]) = some [v, w] := by
    intro m n v w hmn
    have hmn : m ≠ n := by simpa using hmn
    simp [Json.record?, Text.unescape?_escape, String.toList_inj, hmn, hmn.symm]
  rw [Entry.decode?, Entry.parse?_encode]
  simp only [Option.bind_eq_bind, Option.bind_some]
  rw [hrecord _ _ _ _ (by decide)]
  simp only [Option.bind_some, htext]
  rw [hrecord _ _ _ _ (by decide)]
  simp only [Option.bind_some, htext, Option.pure_def]

theorem slash_notMem_entryName (file : String) : '/' ∉ (entryName file).toList := by
  rw [entryName, String.toList_append, String.toList_ofList, mem_append, mem_map]
  rintro (⟨c, -, hc⟩ | hend)
  · split_ifs at hc with hmarks
    · cases hc
    · simp [hc] at hmarks
  · simp at hend

/-! ### Calls -/

namespace Cache

structure Call where
  file : String
  source : String
  options : Options

def Call.bytes (c : Call) : List UInt8 :=
  fingerprintBytes c.source c.options.runtime c.options.name

def Call.compiled (c : Call) : Except Report Compiled := ReactiveMarkup.compile c.source c.options

section Operations

variable (digest : Digest)

/-- What a cache gives for a call, and the cache after it. -/
def answer (cache : Cache) (c : Call) : Except Report Compiled × Cache :=
  cache.compile digest c.file c.source c.options

/-- What a cache has for a call, and the cache after looking for it. -/
def look (cache : Cache) (c : Call) : Option Compiled × Cache :=
  cache.get digest c.file c.source c.options

def keep (cache : Cache) (c : Call) (r : Compiled) : Cache :=
  cache.set digest c.file c.source c.options r

def Call.entry (c : Call) (r : Compiled) : Entry :=
  ⟨fingerprint digest c.source c.options.runtime c.options.name, r⟩

/-- The entry for a call can be read: it has the fingerprint of the call, and a result. -/
def Holds (cache : Cache) (c : Call) (r : Compiled) : Prop :=
  ∃ text, cache.entries.get? (entryName c.file) = some text ∧
    Entry.decode? text = some (c.entry digest r)

end Operations

variable {digest : Digest} {cache : Cache} {c : Call} {r : Compiled}

theorem holds_keep (d : Directory) : Holds digest ((ready d).keep digest c r) c r := by
  refine ⟨(c.entry digest r).encode, ?_, Entry.decode?_encode _⟩
  exact (Directory.get?_put d _ _ _).trans (if_pos rfl)

theorem Holds.look_eq (h : Holds digest cache c r) (c' : Call)
    (hname : entryName c'.file = entryName c.file) :
    cache.look digest c' = (if digest c.bytes = digest c'.bytes then some r else none, cache) := by
  obtain ⟨text, htext, hentry⟩ := h
  have hhash : (c.entry digest r).hash =
      fingerprint digest c'.source c'.options.runtime c'.options.name ↔
        digest c.bytes = digest c'.bytes :=
    ⟨Text.hexText_injective, congrArg Text.hexText⟩
  rw [look, get, hname, htext]
  simp only [hentry, hhash]
  split_ifs <;> rfl

theorem Holds.answer_eq (h : Holds digest cache c r) : cache.answer digest c = (.ok r, cache) := by
  have hlook := h.look_eq c rfl
  rw [if_pos rfl, look] at hlook
  rw [answer, compile, hlook]

variable (digest cache c)

/-- Looking for a result changes nothing, unless the entry cannot be read. -/
theorem look_cases :
    (∃ r, cache.look digest c = (some r, cache) ∧ Holds digest cache c r) ∨
    cache.look digest c = (none, cache) ∨
    ∃ d text, cache = .ready d ∧ d.get? (entryName c.file) = some text ∧
      Entry.decode? text = none ∧
      cache.look digest c = (none, .ready (d.remove (entryName c.file))) := by
  cases htext : cache.entries.get? (entryName c.file) with
  | none => exact .inr (.inl (by simp only [look, get, htext]))
  | some text =>
    cases hentry : Entry.decode? text with
    | none =>
      have hlook : cache.look digest c = (none, cache.remove (entryName c.file)) := by
        simp only [look, get, htext, hentry]
      cases cache with
      | blocked | fixed d => exact .inr (.inl hlook)
      | ready d => exact .inr (.inr ⟨d, text, rfl, htext, hentry, hlook⟩)
    | some e =>
      by_cases hhash : e.hash = fingerprint digest c.source c.options.runtime c.options.name
      · refine .inl ⟨e.result, ?_, text, htext, ?_⟩
        · simp only [look, get, htext, hentry, if_pos hhash]
        · rw [hentry, Call.entry, ← hhash]
      · exact .inr (.inl (by simp only [look, get, htext, hentry, if_neg hhash]))

/-- A call finds a result, or compiles and keeps what that gives. -/
theorem answer_cases :
    (∃ r, cache.answer digest c = (.ok r, cache) ∧ Holds digest cache c r) ∨
    (∃ r, c.compiled = .ok r ∧
      cache.answer digest c = (.ok r, (cache.look digest c).2.keep digest c r)) ∨
    ∃ report, c.compiled = .error report ∧
      cache.answer digest c = (.error report, (cache.look digest c).2) := by
  have hmiss : ∀ after, cache.look digest c = (none, after) →
      (∃ r, c.compiled = .ok r ∧ cache.answer digest c = (.ok r, after.keep digest c r)) ∨
      ∃ report, c.compiled = .error report ∧ cache.answer digest c = (.error report, after) := by
    intro after hlook
    rw [look] at hlook
    rw [answer, compile, hlook, Call.compiled]
    cases ReactiveMarkup.compile c.source c.options with
    | ok r => exact .inl ⟨r, rfl, rfl⟩
    | error report => exact .inr ⟨report, rfl, rfl⟩
  rcases look_cases digest cache c with ⟨r, -, h⟩ | hlook | ⟨d, text, -, -, -, hlook⟩
  · exact .inl ⟨r, h.answer_eq, h⟩
  all_goals
    rw [hlook]
    exact .inr (hmiss _ hlook)

theorem remove_keep : (cache.keep digest c r).entries.remove (entryName c.file) =
    cache.entries.remove (entryName c.file) := by
  cases cache with
  | blocked | fixed d => rfl
  | ready d => exact Directory.remove_put d _ _

theorem remove_look : (cache.look digest c).2.entries.remove (entryName c.file) =
    cache.entries.remove (entryName c.file) := by
  rcases look_cases digest cache c with ⟨r, hlook, -⟩ | hlook | ⟨d, text, rfl, -, -, hlook⟩
  · rw [hlook]
  · rw [hlook]
  · rw [hlook]
    simp [entries, Directory.remove]

theorem holds_answer (d : Directory) (hr : ((ready d).answer digest c).1 = .ok r) :
    Holds digest ((ready d).answer digest c).2 c r := by
  rcases answer_cases digest (ready d) c with ⟨r', ha, h⟩ | ⟨r', -, ha⟩ | ⟨report, -, ha⟩
  · obtain rfl : r' = r := by simpa [ha] using hr
    rwa [ha]
  · obtain rfl : r' = r := by simpa [ha] using hr
    rw [ha]
    rcases look_cases digest (ready d) c with ⟨r, h, -⟩ | h | ⟨d', text, -, -, -, h⟩
    all_goals
      rw [h]
      exact holds_keep _
  · simp [ha] at hr

theorem answer_of_not_ready (h : ∀ d, cache ≠ .ready d) : (cache.answer digest c).2 = cache := by
  have hlook : (cache.look digest c).2 = cache := by
    rcases look_cases digest cache c with ⟨r, hlook, -⟩ | hlook | ⟨d, text, hd, -⟩
    · rw [hlook]
    · rw [hlook]
    · exact absurd hd (h d)
  have hkeep (r : Compiled) : cache.keep digest c r = cache := by
    cases cache with
    | blocked | fixed d => rfl
    | ready d => exact absurd rfl (h d)
  rcases answer_cases digest cache c with ⟨r, ha, -⟩ | ⟨r, -, ha⟩ | ⟨report, -, ha⟩
  · rw [ha]
  · rw [ha, hlook, hkeep]
  · rw [ha, hlook]

/-- **What is kept is found again.**  If a result is kept in a directory, looking for it with the
same file, source and options gives it, with any source and options of another digest gives nothing,
and the text of the entry is read as the fingerprint and the result. -/
theorem look_keep (d : Directory) (r : Compiled) :
    ((ready d).keep digest c r).look digest c = (some r, (ready d).keep digest c r) ∧
    (∀ source options, digest (fingerprintBytes source options.runtime options.name) ≠
        digest c.bytes →
      ((ready d).keep digest c r).look digest ⟨c.file, source, options⟩ =
        (none, (ready d).keep digest c r)) ∧
    ∃ text, (ready d).keep digest c r = .ready (d.put (entryName c.file) text) ∧
      Entry.decode? text = some ⟨Text.hexText (digest c.bytes), r⟩ := by
  have h : Holds digest ((ready d).keep digest c r) c r := holds_keep d
  refine ⟨?_, fun source options hne => ?_, _, rfl, Entry.decode?_encode (c.entry digest r)⟩
  · rw [h.look_eq _ rfl, if_pos rfl]
  · rw [h.look_eq ⟨c.file, source, options⟩ rfl]
    exact congrArg (·, _) (if_neg hne.symm)

/-- **Calls change the entry of their file only.**  Its name has no slash in it.  Looking for a
result changes it only by taking it away, if it cannot be read.  A call with an error changes
nothing beyond that, and no call does where nothing can be written.  After a call with a result
elsewhere, the entry holds the result, and the same call once more gives it and changes nothing. -/
theorem calls_confined :
    '/' ∉ (entryName c.file).toList ∧
    (∀ after, after = (cache.look digest c).2 ∨ (∃ r, after = cache.keep digest c r) ∨
        after = (cache.answer digest c).2 →
      after.entries.remove (entryName c.file) = cache.entries.remove (entryName c.file)) ∧
    ((cache.look digest c).2 ≠ cache → ∃ d text, cache = .ready d ∧
      d.get? (entryName c.file) = some text ∧ Entry.decode? text = none ∧
      (cache.look digest c).2 = .ready (d.remove (entryName c.file))) ∧
    (∀ report, (cache.answer digest c).1 = .error report →
      (cache.answer digest c).2 = (cache.look digest c).2) ∧
    ((∀ d, cache ≠ .ready d) → (cache.answer digest c).2 = cache) ∧
    ∀ r d, (cache.answer digest c).1 = .ok r → cache = .ready d →
      Holds digest (cache.answer digest c).2 c r ∧
      (cache.answer digest c).2.answer digest c = (.ok r, (cache.answer digest c).2) := by
  refine ⟨slash_notMem_entryName c.file, ?_, fun hne => ?_, fun report he => ?_,
    answer_of_not_ready digest cache c, ?_⟩
  · rintro after (rfl | ⟨r, rfl⟩ | rfl)
    · exact remove_look digest cache c
    · exact remove_keep digest cache c
    · rcases answer_cases digest cache c with ⟨r, ha, -⟩ | ⟨r, -, ha⟩ | ⟨report, -, ha⟩
      · rw [ha]
      · rw [ha, remove_keep, remove_look]
      · rw [ha, remove_look]
  · rcases look_cases digest cache c with ⟨r, hlook, -⟩ | hlook | ⟨d, text, hd, ht, he, hlook⟩
    · exact absurd (congrArg Prod.snd hlook) hne
    · exact absurd (congrArg Prod.snd hlook) hne
    · exact ⟨d, text, hd, ht, he, congrArg Prod.snd hlook⟩
  · rcases answer_cases digest cache c with ⟨r, ha, -⟩ | ⟨r, -, ha⟩ | ⟨report, -, ha⟩
    · simp [ha] at he
    · simp [ha] at he
    · rw [ha]
  · rintro r d hr rfl
    have hholds := holds_answer digest c d hr
    exact ⟨hholds, hholds.answer_eq⟩

end Cache

end ReactiveMarkup
