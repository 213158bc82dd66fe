/-
Places in a text, as line and column.

Lines and columns count from one, a column counts characters, and both are
32-bit numbers.  Main statement: reading a text in two pieces leads to the same
place as reading it at once (`Position.after_append`), so places computed in a
section from the place where the section starts are places in the whole file.
-/

namespace ReactiveMarkup.Text

structure Position where
  line : UInt32
  column : UInt32
  deriving DecidableEq, Repr

namespace Position

def start : Position := ⟨1, 1⟩

def next (p : Position) (c : Char) : Position :=
  if c = '\n' then ⟨p.line + 1, 1⟩ else ⟨p.line, p.column + 1⟩

def after (p : Position) (s : List Char) : Position := s.foldl next p

@[simp] theorem after_nil (p : Position) : p.after [] = p := rfl

@[simp] theorem after_cons (p : Position) (c : Char) (s : List Char) :
    p.after (c :: s) = (p.next c).after s := rfl

/-- Reading two texts one after the other is reading their concatenation. -/
theorem after_append (p : Position) (s t : List Char) :
    p.after (s ++ t) = (p.after s).after t := by
  simp [after]

end Position

end ReactiveMarkup.Text
