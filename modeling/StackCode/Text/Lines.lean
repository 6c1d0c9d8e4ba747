/-
A text as its lines.

A line ends at a line feed, and a carriage return just before the line feed
belongs to the ending.  What follows the last line feed is a line only if it is
not empty, and then it is kept as it stands.
-/

namespace StackCode.Text

/-- A line that was read backwards, put right, without the carriage return that ended it. -/
def endLine : List Char → List Char
  | '\r' :: line => line.reverse
  | line => line.reverse

/--
The lines of `cs` after those in `done`, when `line` has been read of the next one.
Both are kept last first, so that a long text needs no deep recursion.
-/
def linesFrom (done : List (List Char)) (line : List Char) : List Char → List (List Char)
  | [] => (if line.isEmpty then done else line.reverse :: done).reverse
  | c :: cs =>
    if c = '\n' then linesFrom (endLine line :: done) [] cs else linesFrom done (c :: line) cs

/-- The lines of a text, without their endings. -/
def lines (cs : List Char) : List (List Char) := linesFrom [] [] cs

end StackCode.Text
