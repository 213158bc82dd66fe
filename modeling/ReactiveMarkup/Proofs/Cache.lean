/-
A cache gives what compiling gives.

Files with different names may share an entry, and an entry may be old: it is used
only if its fingerprint is that of the source and the options at hand. So each entry
holds what compiling gave for some earlier call, and what a call is given from it is
what compiling would give, if the digest tells the bytes of the two calls apart and
the bytes tell the calls apart.

The bytes are those of the source, the runtime and the name, with zeros in between.
They tell calls apart if runtime and name have no zero in them; with one in the
runtime, a call can get the result of another.

The name of a source is not among them, and need not be: only the reports of faults
say it.

* `compile_id_only_in_file`: what two users with different names are told;
* `Cache.answer_after`: what a call is given;
* `Cache.stale_answer`: two calls that the bytes do not tell apart.
-/
import ReactiveMarkup.Proofs.Entries
import ReactiveMarkup.Proofs.Renaming

namespace ReactiveMarkup

open List

open Output (Options Compiled)
open Text (utf8)

section Names

variable (source : String) (options : Options) (id : Option String)

/-! ### Answers -/

/-- Two answers to users who call the source `i` and `j`: the same result, or reports that differ
in the file. -/
def AlikeButFile (i j : Option String) (a b : Except Report Compiled) : Prop :=
  (∃ out, a = .ok out ∧ b = .ok out) ∨
    ∃ r s : Report, a = .error r ∧ b = .error s ∧
      r.file = i.getD "<anonymous>" ∧ s.file = j.getD "<anonymous>" ∧
      s.code = r.code ∧ s.message = r.message ∧ s.position = r.position ∧
      s.context = r.context ∧ s.hints = r.hints

theorem alikeButFile_ok (i j : Option String) (out : Compiled) :
    AlikeButFile i j (.ok out) (.ok out) :=
  .inl ⟨out, rfl, rfl⟩

theorem alikeButFile_compile (i j : Option String) :
    AlikeButFile i j (compile source { options with id := i })
      (compile source { options with id := j }) := by
  rw [compile, compile]
  obtain ⟨out, hi, hj⟩ | ⟨fault, hi, hj⟩ := alike_compileSource source options i j
  · rw [hi, hj]
    exact alikeButFile_ok i j out
  · rw [hi, hj]
    exact .inr ⟨_, _, rfl, rfl, rfl, rfl, rfl, rfl, rfl, rfl, rfl⟩

/-! ### Through a cache -/

theorem Cache.get_id (digest : Digest) (cache : Cache) (file : String) :
    cache.get digest file source { options with id } = cache.get digest file source options :=
  rfl

theorem Cache.compile_id (digest : Digest) (cache : Cache) (file : String) (i j : Option String) :
    AlikeButFile i j (cache.compile digest file source { options with id := i }).1
        (cache.compile digest file source { options with id := j }).1 ∧
      (cache.compile digest file source { options with id := i }).2 =
        (cache.compile digest file source { options with id := j }).2 := by
  rw [Cache.compile, Cache.compile, Cache.get_id source options i, Cache.get_id source options j]
  obtain ⟨kept, cache'⟩ := cache.get digest file source options
  cases kept with
  | some out => exact ⟨alikeButFile_ok i j out, rfl⟩
  | none =>
    rcases alikeButFile_compile source options i j with ⟨out, hi, hj⟩ | ⟨r, s, hi, hj, hfields⟩
    · rw [hi, hj]
      exact ⟨alikeButFile_ok i j out, rfl⟩
    · rw [hi, hj]
      exact ⟨.inr ⟨r, s, rfl, rfl, hfields⟩, rfl⟩

/-- **Only the file of a report depends on the name of the source.**  Options that differ
in the name give the same module and styles, or reports that are the same but for the file,
which is the name that was given.  This holds for a new result and for one through a cache, and
the cache is then left in the same state. -/
theorem compile_id_only_in_file (i j : Option String) :
    AlikeButFile i j (compile source { options with id := i })
        (compile source { options with id := j }) ∧
      ∀ (digest : Digest) (cache : Cache) (file : String),
        AlikeButFile i j (cache.compile digest file source { options with id := i }).1
            (cache.compile digest file source { options with id := j }).1 ∧
          (cache.compile digest file source { options with id := i }).2 =
            (cache.compile digest file source { options with id := j }).2 :=
  ⟨alikeButFile_compile source options i j,
    fun digest cache file => Cache.compile_id source options digest cache file i j⟩

end Names

/-! ### Fingerprints -/

theorem append_cons_inj_of_not_mem {α : Type} {x : α} {a b a' b'} (h : a ++ x :: b = a' ++ x :: b')
    (hb : x ∉ b) (hb' : x ∉ b') : a = a' ∧ b = b' := by
  rcases append_eq_append_iff.1 h with ⟨c, rfl, hc⟩ | ⟨c, rfl, hc⟩
  · cases c with
    | nil => simpa using hc
    | cons y c =>
      cases hc
      exact absurd (by simp) hb
  · cases c with
    | nil => simpa [eq_comm] using hc
    | cons y c =>
      cases hc
      exact absurd (by simp) hb'

/-- Whether there is a zero neither in the runtime nor in the name. -/
def Output.Options.Plain (options : Options) : Prop :=
  '\x00' ∉ options.runtime.toList ∧ '\x00' ∉ options.name.toList

theorem fingerprintBytes_inj {source source'} {options options' : Options}
    (h : fingerprintBytes source options.runtime options.name =
      fingerprintBytes source' options'.runtime options'.name) (hp : options.Plain)
    (hp' : options'.Plain) :
    source = source' ∧ options.runtime = options'.runtime ∧ options.name = options'.name := by
  obtain ⟨h, hname⟩ :=
    append_cons_inj_of_not_mem h (Text.not_mem_utf8 hp.2) (Text.not_mem_utf8 hp'.2)
  obtain ⟨hsource, hruntime⟩ :=
    append_cons_inj_of_not_mem h (Text.not_mem_utf8 hp.1) (Text.not_mem_utf8 hp'.1)
  exact ⟨Text.utf8_injective hsource, Text.utf8_injective hruntime, Text.utf8_injective hname⟩

theorem compile_eq_ok {source} {options options'} (h : compile source options = .ok r)
    (hr : options.runtime = options'.runtime) (hn : options.name = options'.name) :
    compile source options' = .ok r := by
  obtain ⟨id, runtime, name⟩ := options
  obtain ⟨id', runtime', name'⟩ := options'
  obtain rfl : runtime = runtime' := hr
  obtain rfl : name = name' := hn
  rcases alikeButFile_compile source ⟨id, runtime, name⟩ id id' with ⟨out, hi, hj⟩ | ⟨_, _, hi, -⟩
  · exact hj.trans (hi.symm.trans h)
  · cases hi.symm.trans h

/-! ### Calls -/

namespace Cache

variable (digest : Digest)

def after (calls : List Call) : Cache :=
  calls.foldl (fun cache c => (cache.answer digest c).2) (.ready [])

/-- Whether each entry of a cache holds what compiling gave for one of some calls, under the name
that the file of the call has. -/
def Kept (calls : List Call) (cache : Cache) : Prop :=
  ∃ d, cache = .ready d ∧ ∀ name text, d.get? name = some text →
    ∃ c ∈ calls, entryName c.file = name ∧ ∃ r, c.compiled = .ok r ∧
      text = (c.entry digest r).encode

section Kept

variable {digest} {calls : List Call} {cache : Cache}

/-- A call is given what an earlier call with the same name and fingerprint was given, or what
compiling gives, which is kept. -/
theorem Kept.answer_cases (h : Kept digest calls cache) (c : Call) :
    (∃ a ∈ calls, entryName a.file = entryName c.file ∧ ∃ r, a.compiled = .ok r ∧
        (a.entry digest r).hash = (c.entry digest r).hash ∧
          cache.answer digest c = (.ok r, cache)) ∨
      (∃ r, c.compiled = .ok r ∧
        cache.answer digest c = (.ok r, cache.write (entryName c.file) (c.entry digest r).encode)) ∨
      ∃ report, c.compiled = .error report ∧ cache.answer digest c = (.error report, cache) := by
  obtain ⟨d, rfl, hd⟩ := h
  -- What can be read there stays.
  have hlook : ((Cache.ready d).look digest c).2 = .ready d := by
    rcases look_cases digest (.ready d) c with ⟨r, hlook, -⟩ | hlook | ⟨_, text, ⟨⟩, ht, he, -⟩
    · rw [hlook]
    · rw [hlook]
    · obtain ⟨a, -, -, r, -, rfl⟩ := hd _ _ ht
      cases (Entry.decode?_encode _).symm.trans he
  rcases answer_cases digest (.ready d) c with ⟨r, ha, text, ht, he⟩ | hnew
  · obtain ⟨a, hmem, hname, r', hr, rfl⟩ := hd _ _ ht
    have hentry := Option.some_inj.1 ((Entry.decode?_encode _).symm.trans he)
    obtain rfl : r' = r := congrArg Entry.result hentry
    exact .inl ⟨a, hmem, hname, r', hr, congrArg Entry.hash hentry, ha⟩
  · rw [hlook] at hnew
    exact .inr hnew

theorem Kept.answer (h : Kept digest calls cache) (c : Call) :
    Kept digest (calls ++ [c]) (cache.answer digest c).2 := by
  have earlier : Kept digest (calls ++ [c]) cache := by
    obtain ⟨d, hd, hkept⟩ := h
    refine ⟨d, hd, fun name text hget => ?_⟩
    obtain ⟨a, ha, rest⟩ := hkept name text hget
    exact ⟨a, mem_append_left _ ha, rest⟩
  rcases h.answer_cases c with ⟨a, -, -, r, -, -, he⟩ | ⟨r, hr, he⟩ | ⟨report, -, he⟩
  · rw [he]
    exact earlier
  · rw [he]
    obtain ⟨d, rfl, hkept⟩ := earlier
    refine ⟨_, rfl, fun name text hget => ?_⟩
    rw [Directory.get?_put] at hget
    split at hget
    · rename_i hname
      exact ⟨c, by simp, hname, r, hr, (Option.some_inj.1 hget).symm⟩
    · exact hkept name text hget
  · rw [he]
    exact earlier

end Kept

theorem kept_after (calls : List Call) : Kept digest calls (after digest calls) := by
  have more : ∀ (calls before : List Call) (cache : Cache), Kept digest before cache →
      Kept digest (before ++ calls)
        (calls.foldl (fun cache c => (cache.answer digest c).2) cache) := by
    intro calls
    induction calls with
    | nil => exact fun before cache h => by rwa [append_nil]
    | cons c rest ih =>
      intro before cache h
      rw [append_cons]
      exact ih _ _ (h.answer c)
  exact more calls [] (.ready []) ⟨[], rfl, fun name text h => absurd h (by simp [Directory.get?])⟩

/-- From an empty cache on, each call is given what compiling gives for a call, the same or an
earlier one, whose file has the same entry and whose source, runtime and name, with zeros in
between, are the same text.  If there is no zero in the runtime or the name of a call that shares
the entry, it is given what compiling gives for the call itself.  The digest need only tell apart
the bytes of the call and of the calls before it. -/
theorem answer_after (digest : Digest) (calls : List Call) (c : Call)
    (hd : ∀ a ∈ calls, digest a.bytes = digest c.bytes → a.bytes = c.bytes) :
    (∃ a ∈ c :: calls, entryName a.file = entryName c.file ∧ a.bytes = c.bytes ∧
        ((after digest calls).answer digest c).1 = a.compiled) ∧
      ((∀ a ∈ c :: calls, entryName a.file = entryName c.file → a.options.Plain) →
        ((after digest calls).answer digest c).1 = c.compiled) := by
  rcases (kept_after digest calls).answer_cases c with
    ⟨a, ha, hname, r, hr, hhash, he⟩ | ⟨r, hr, he⟩ | ⟨report, hr, he⟩
  · have hbytes : a.bytes = c.bytes := hd a ha (Text.hexText_injective hhash)
    refine ⟨⟨a, mem_cons_of_mem c ha, hname, hbytes, by rw [he, hr]⟩, fun hplain => ?_⟩
    obtain ⟨hsource, hruntime, hn⟩ := fingerprintBytes_inj hbytes
      (hplain a (mem_cons_of_mem c ha) hname) (hplain c mem_cons_self rfl)
    have hc : c.compiled = .ok r := by
      rw [Call.compiled, ← hsource]
      exact compile_eq_ok hr hruntime hn
    rw [he, hc]
  · have hc : ((after digest calls).answer digest c).1 = c.compiled := by rw [he, hr]
    exact ⟨⟨c, mem_cons_self, rfl, rfl, hc⟩, fun _ => hc⟩
  · have hc : ((after digest calls).answer digest c).1 = c.compiled := by rw [he, hr]
    exact ⟨⟨c, mem_cons_self, rfl, rfl, hc⟩, fun _ => hc⟩

/-- Calls for two files that share an entry, with changes to the source and to the options. -/
def sharedEntry : List Call := [
  ⟨"ui/Page", "<template><p>hi</p></template>", {}⟩,
  ⟨"ui/Page", "<template><p>\x00</p></template>", { id := some "ui/Page" }⟩,
  ⟨"ui/Page", "<template><p></template>", {}⟩,
  ⟨"ui:Page", "<template><p>hi</p></template>", { runtime := "own/runtime" }⟩]

/-- A call for one of them that finds the entry of the other. -/
def again : Call :=
  ⟨"ui/Page", "<template><p>hi</p></template>", { id := some "ui/Page", runtime := "own/runtime" }⟩

theorem answer_after_sharedEntry :
    (∀ a ∈ sharedEntry, Text.sha256 a.bytes = Text.sha256 again.bytes → a.bytes = again.bytes) ∧
      (∀ a ∈ again :: sharedEntry, entryName a.file = entryName again.file → a.options.Plain) ∧
      ((after Text.sha256 sharedEntry).answer Text.sha256 again).1 = again.compiled := by
  have hd : ∀ a ∈ sharedEntry, Text.sha256 a.bytes = Text.sha256 again.bytes →
    a.bytes = again.bytes := by
    decide +kernel
  have hplain : ∀ a ∈ again :: sharedEntry, a.options.Plain := by
    unfold Options.Plain
    decide +kernel
  exact ⟨hd, fun a ha _ => hplain a ha,
    (answer_after Text.sha256 sharedEntry again hd).2 fun a ha _ => hplain a ha⟩

/-! ### Calls that are not told apart -/

theorem answer_of_bytes_eq (hr : a.compiled = .ok r) (hname : entryName a.file = entryName c.file)
    (hbytes : a.bytes = c.bytes) : ((after digest [a]).answer digest c).1 = .ok r := by
  have hafter : after digest [a] = .ready [(entryName a.file, some (a.entry digest r).encode)] := by
    rw [Call.compiled] at hr
    simp only [after, foldl_cons, answer, compile, hr]
    rfl
  have hhash : (a.entry digest r).hash = (c.entry digest r).hash :=
    congrArg (fun bytes => Text.hexText (digest bytes)) hbytes
  have hget : (after digest [a]).get digest c.file c.source c.options =
      (some r, after digest [a]) := by
    rw [hafter]
    simp only [get, entries, Directory.get?_cons, if_pos hname, Entry.decode?_encode]
    exact if_pos hhash
  rw [answer, compile, hget]

def zeroInRuntime : Call := ⟨"Page", "<template><p>hi</p></template>", { runtime := "x\x00y" }⟩

/-- A call with the same bytes, cut at other places. -/
def zeroInSource : Call := ⟨"Page", "<template><p>hi</p></template>\x00x", { runtime := "y" }⟩

/-- A call is given the module of another one, which imports another runtime. -/
theorem stale_answer :
    ((after Text.sha256 [zeroInRuntime]).answer Text.sha256 zeroInSource).1 =
        zeroInRuntime.compiled ∧
      ((after Text.sha256 [zeroInRuntime]).answer Text.sha256 zeroInSource).1 ≠
        zeroInSource.compiled := by
  have hbytes : zeroInRuntime.bytes = zeroInSource.bytes := by decide +kernel
  have hne : zeroInRuntime.compiled.toOption ≠ zeroInSource.compiled.toOption := by decide +kernel
  have hsome : zeroInRuntime.compiled.toOption.isSome = true := by decide +kernel
  cases hr : zeroInRuntime.compiled with
  | error report => exact absurd hsome (by simp [hr, Except.toOption])
  | ok r =>
    have hname : entryName zeroInRuntime.file = entryName zeroInSource.file := rfl
    rw [answer_of_bytes_eq Text.sha256 hr hname hbytes]
    exact ⟨rfl, fun h => hne (by rw [hr, h])⟩

end Cache

end ReactiveMarkup
