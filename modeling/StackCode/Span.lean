/-
Places in a source text.

A `Span` is where a token or a tree stands: the line and column of its first
character and how many bytes it takes.  A `Position` is a span pinned to a named
file, which is what a diagnostic reports.

Spans are also the keys under which the uses and declarations of names are
recorded, so they carry a lexicographic order: first the line, then the column,
then the length.

The numbers of a span are natural numbers that stand for numbers of 32 bits.  A text is
taken to be short enough that none of them overflows, the sums of `Span.merge` included.
-/

namespace StackCode

/-- A stretch of source text: where it starts and how many bytes it takes. -/
structure Span where
  /-- The line of the first character, counted from 1. -/
  line : Nat
  /-- The column of the first character, counted from 1, tabs expanded. -/
  col : Nat
  /-- The length in bytes. -/
  len : Nat
deriving DecidableEq, Repr, Inhabited

namespace Span

/-- The empty span at a place. -/
def point (line col : Nat) : Span := ⟨line, col, 0⟩

/-- The column just past the span. -/
def stop (s : Span) : Nat := s.col + s.len

def isEmpty (s : Span) : Bool := s.len == 0

/--
The span of a construct that runs from `a` to `b`.  On one line it covers both;
over several lines it keeps the start of `a` and adds the two lengths.
-/
def merge (a b : Span) : Span :=
  if a.line = b.line then
    let col := min a.col b.col
    ⟨a.line, col, max b.stop a.stop - col⟩
  else
    ⟨a.line, a.col, a.len + b.len⟩

/-- `line:column`, the way a span is written in a message. -/
def text (s : Span) : String := toString s.line ++ ":" ++ toString s.col

/-! ### The order of spans -/

/-- Spans are ordered by line, then column, then length. -/
instance : Ord Span where
  compare := compareLex (compareOn line) (compareLex (compareOn col) (compareOn len))

theorem compare_def (a b : Span) :
    compare a b =
      compareLex (compareOn line) (compareLex (compareOn col) (compareOn len)) a b := rfl

instance : Std.TransOrd Span :=
  inferInstanceAs (Std.TransCmp
    (compareLex (compareOn line) (compareLex (compareOn col) (compareOn len))))

instance : Std.LawfulEqOrd Span where
  eq_of_compare {a b} h := by
    obtain ⟨l, c, n⟩ := a
    obtain ⟨l', c', n'⟩ := b
    simp only [compare_def, compareLex_eq_eq, compareOn, Std.LawfulEqOrd.compare_eq_iff_eq] at h
    obtain ⟨rfl, rfl, rfl⟩ := h
    rfl

end Span

/-- A span in a named file. -/
structure Position where
  file : String
  span : Span
deriving DecidableEq, Repr, Inhabited

namespace Position

/-- A place in a file, with no text to underline. -/
def point (file : String) (line col : Nat) : Position := ⟨file, .point line col⟩

/-- `file:line:column`. -/
def text (p : Position) : String := p.file ++ ":" ++ p.span.text

end Position

end StackCode
