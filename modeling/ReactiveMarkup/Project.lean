/-
All components of a directory.

Component files are those below a directory whose names end in `.tanni`. They are
compiled one by one in the order of their paths, and an error in one does not
stop the others. A component is named after its file.
-/
import ReactiveMarkup.Compile

namespace ReactiveMarkup.Project

open Text
open Output (Options Compiled)

/-! ### Paths -/

/-- The steps of a path, without empty ones and those that stay in place. -/
def steps (path : String) : List String :=
  (splitBy (· == '/') path.toList).filterMap fun part =>
    if part.isEmpty || part == ['.'] then none else some (String.ofList part)

def fileName? (path : String) : Option String :=
  match (steps path).getLast? with
  | some name => if name == ".." then none else some name
  | none => none

/-- A file name before and after its last dot, if one stands inside of it. -/
def splitExtension? (name : String) : Option (List Char × List Char) :=
  let reversed := name.toList.reverse
  match reversed.dropWhile (· != '.') with
  | _ :: front =>
    if front.isEmpty then none
    else some (front.reverse, (reversed.takeWhile (· != '.')).reverse)
  | [] => none

def stem (name : String) : String :=
  match splitExtension? name with
  | some (front, _) => String.ofList front
  | none => name

def hasExtension (extension name : String) : Bool :=
  match splitExtension? name with
  | some (_, back) => String.ofList back == extension
  | none => false

def componentExtension : String := "tanni"

/-! ### Names of components -/

def capitalized : List Char → List Char
  | [] => []
  | c :: rest => toUpper c :: rest

def joinWords (s : List Char) : List Char :=
  ((splitBy (fun c => !isAlphanumeric c) s).map capitalized).flatten

/-- The name for the component of a file.  A name may not start with a digit. -/
def componentName (path : String) : String :=
  match joinWords (stem ((fileName? path).getD "")).toList with
  | [] => Output.standardName
  | c :: rest => if isDigit c then String.ofList ('_' :: c :: rest) else String.ofList (c :: rest)

/-! ### Files -/

structure File where
  steps : List String
  content : Option ByteArray

def latest : List File → List File
  | [] => []
  | f :: rest => if rest.any fun g => g.steps == f.steps then latest rest else f :: latest rest

/-- The steps that are left after following a path, where two dots lead back. -/
def resolve (path : List String) : List String :=
  path.foldl (fun done part => if part == ".." then done.dropLast else done ++ [part]) []

def after? : List String → List String → Option (List String)
  | [], rest => some rest
  | _ :: _, [] => none
  | a :: as, b :: bs => if a == b then after? as bs else none

/-- Whether a list of steps comes before another: step by step, shorter ones first. -/
def stepsBefore : List String → List String → Bool
  | [], _ => true
  | _ :: _, [] => false
  | a :: as, b :: bs => if a < b then true else if b < a then false else stepsBefore as bs

def joinPath (directory : String) (rest : List String) : String :=
  match rest with
  | [] => directory
  | rest =>
    let below := "/".intercalate rest
    if directory.toList.getLast? == some '/' then directory ++ below
    else directory ++ "/" ++ below

structure Found where
  path : String
  content : ByteArray

/-- The component files below a directory, in the order of their paths; none below an empty path. -/
def discover (files : List File) (directory : String) : List Found :=
  if directory.isEmpty then []
  else
    let base := resolve (steps directory)
    let below := (latest files).filterMap fun f =>
      match f.content, after? base f.steps with
      | some content, some rest => some (rest, f.steps, content)
      | _, _ => none
    let components := below.filter fun f =>
      (f.2.1.getLast?).any fun name => hasExtension componentExtension name
    let sorted := components.mergeSort fun f g => stepsBefore f.1 g.1
    sorted.map fun f => ⟨joinPath directory f.1, f.2.2⟩

/-! ### Compiling -/

structure Entry where
  path : String
  name : String
  result : Except Report Compiled

def notText (file : String) : Fault where
  problem := .unreadable "stream did not contain valid UTF-8"
  file := file
  position := .start

def compileFound (runtime : String) (f : Found) : Entry :=
  let name := componentName f.path
  let options : Options := { id := some f.path, runtime, name }
  { path := f.path
    name
    result := match String.fromUTF8? f.content with
      | some source => compile source options
      | none => .error (notText options.file).report }

def compileProject (files : List File) (directory runtime : String) : List Entry :=
  (discover files directory).map (compileFound runtime)

end ReactiveMarkup.Project
