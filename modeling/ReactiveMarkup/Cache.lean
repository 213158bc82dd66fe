/-
Compiled results kept for later.

A cache is a directory with an entry for each file: the result, and a fingerprint
of all that it depends on, the source and the options that shape the output. A
result is used only while the fingerprint is the same. The digest is a parameter;
`Text.sha256` is the usual one.
-/
import ReactiveMarkup.Compile
import ReactiveMarkup.Text.Digest
import ReactiveMarkup.Text.Json

namespace ReactiveMarkup

open Output (Options Compiled)
open Text (Json quote hexText utf8)

/-! ### Directories -/

/-- What is stored by name, in increasing order of the names.  Bytes that are not a text are
`none`. -/
abbrev Directory := List (String × Option String)

namespace Directory

def get? (d : Directory) (name : String) : Option String :=
  (d.find? fun f => f.1 == name).bind Prod.snd

/-- Stores a text by a name, in place of what is stored there. -/
def put (name text : String) : Directory → Directory
  | [] => [(name, some text)]
  | f :: rest =>
    if name < f.1 then (name, some text) :: f :: rest
    else if name = f.1 then (name, some text) :: rest
    else f :: put name text rest

def remove (d : Directory) (name : String) : Directory := d.filter fun f => f.1 != name

end Directory

/-! ### Entries -/

structure Entry where
  hash : String
  result : Compiled
  deriving DecidableEq, Repr

namespace Entry

def encode (e : Entry) : String :=
  "\x7b\"hash\":" ++ quote e.hash ++ ",\"result\":\x7b\"code\":" ++ quote e.result.code ++
    ",\"css\":" ++ quote e.result.css ++ "\x7d\x7d"

def decode? (text : String) : Option Entry := do
  let json ← Json.parse? text.toList
  match ← json.record? ["hash", "result"] with
  | [hash, result] => do
    let hash ← hash.text?
    match ← result.record? ["code", "css"] with
    | [code, css] => return ⟨hash, ⟨← code.text?, ← css.text?⟩⟩
    | _ => none
  | _ => none

end Entry

abbrev Digest := List UInt8 → List UInt8

/-- All that a result depends on, as bytes. -/
def fingerprintBytes (source runtime name : String) : List UInt8 :=
  utf8 source ++ 0 :: utf8 runtime ++ 0 :: utf8 name

def fingerprint (digest : Digest) (source runtime name : String) : String :=
  hexText (digest (fingerprintBytes source runtime name))

def entryName (file : String) : String :=
  String.ofList (file.toList.map fun c =>
    if c = '/' || c = '\\' || c = ':' then '_' else c) ++ ".json"

/-! ### The cache -/

/-- A cache: a directory, perhaps one that cannot be changed, or a place that cannot be read. -/
inductive Cache where
  | blocked
  | fixed (directory : Directory)
  | ready (directory : Directory)
  deriving DecidableEq, Repr

namespace Cache

def entries : Cache → Directory
  | blocked => []
  | fixed d | ready d => d

def write (cache : Cache) (name text : String) : Cache :=
  match cache with
  | ready d => ready (d.put name text)
  | cache => cache

def remove (cache : Cache) (name : String) : Cache :=
  match cache with
  | ready d => ready (d.remove name)
  | cache => cache

/-- The result kept for a file, if it still fits. An entry without sense is taken away. -/
def get (digest : Digest) (cache : Cache) (file source : String) (options : Options) :
    Option Compiled × Cache :=
  match cache.entries.get? (entryName file) with
  | none => (none, cache)
  | some text =>
    match Entry.decode? text with
    | none => (none, cache.remove (entryName file))
    | some e =>
      if e.hash = fingerprint digest source options.runtime options.name then
        (some e.result, cache)
      else (none, cache)

def set (digest : Digest) (cache : Cache) (file source : String) (options : Options)
    (result : Compiled) : Cache :=
  cache.write (entryName file)
    (Entry.encode ⟨fingerprint digest source options.runtime options.name, result⟩)

/-- The result kept for a file, or else a new one, which is kept. -/
def compile (digest : Digest) (cache : Cache) (file source : String) (options : Options) :
    Except Report Compiled × Cache :=
  match cache.get digest file source options with
  | (some result, cache) => (.ok result, cache)
  | (none, cache) =>
    match ReactiveMarkup.compile source options with
    | .ok result => (.ok result, cache.set digest file source options result)
    | .error report => (.error report, cache)

end Cache

end ReactiveMarkup
