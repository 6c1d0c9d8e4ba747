/-
A cursor in a source text: what is left to read, and the place of its first
character.

Columns count bytes, except that a tab goes to the next tab stop and a line feed
starts the next line.  A byte-order mark at the very start takes no column.

Lines and columns are natural numbers that stand for counters of 32 bits.  No counter is
taken to overflow: a text is taken to have fewer than `2 ^ 32` lines, and columns on a line.
-/

namespace StackCode

/-- A line and a column, both counted from 1. -/
structure Place where
  line : Nat
  col : Nat
deriving DecidableEq, Repr

namespace Place

/-- Where a text starts. -/
def start : Place := ⟨1, 1⟩

/-- The place after a character, with tab stops every `tabWidth` columns. -/
def next (tabWidth : Nat) (p : Place) (c : Char) : Place :=
  if c = '\n' then ⟨p.line + 1, 1⟩
  else if c = '\t' then ⟨p.line, ((p.col - 1) / tabWidth + 1) * tabWidth + 1⟩
  else ⟨p.line, p.col + c.utf8Size⟩

/-- The place after a text. -/
def after (tabWidth : Nat) (p : Place) (cs : List Char) : Place := cs.foldl (next tabWidth) p

@[simp] theorem after_nil (w : Nat) (p : Place) : p.after w [] = p := rfl

@[simp] theorem after_cons (w : Nat) (p : Place) (c : Char) (cs : List Char) :
    p.after w (c :: cs) = (p.next w c).after w cs := rfl

theorem after_append (w : Nat) (p : Place) (cs ds : List Char) :
    p.after w (cs ++ ds) = (p.after w cs).after w ds := by
  simp [after, List.foldl_append]

end Place

/-- What is left of a text, and where it starts. -/
structure Cursor where
  rest : List Char
  place : Place
  tabWidth : Nat
deriving DecidableEq, Repr

namespace Cursor

/-- The byte-order mark. -/
def byteOrderMark : Char := '\uFEFF'

/-- A text without a byte-order mark at its start. -/
def dropMark : List Char → List Char
  | [] => []
  | c :: cs => if c = byteOrderMark then cs else c :: cs

/-- The start of a text.  A tab width of zero acts as one. -/
def ofText (text : List Char) (tabWidth : Nat) : Cursor :=
  ⟨dropMark text, .start, max tabWidth 1⟩

/-- The cursor after `taken`, when `rest` is left. -/
def advance (c : Cursor) (taken rest : List Char) : Cursor :=
  { c with rest, place := c.place.after c.tabWidth taken }

/-- The cursor at the end of its text. -/
def toEnd (c : Cursor) : Cursor := c.advance c.rest []

/-! ### Trivia

Blanks and comments stand between tokens.  A comment runs from `//` up to the end
of its line.
-/

/-- Spaces, tabs, carriage returns and line feeds. -/
def isBlank (c : Char) : Bool := c = ' ' || c = '\t' || c = '\r' || c = '\n'

/-- Skip blanks and comments; `inComment` says that a comment is under way. -/
def skipTriviaFrom (tabWidth : Nat) : (inComment : Bool) → Place → List Char → Place × List Char
  | _, p, [] => (p, [])
  | true, p, c :: cs => skipTriviaFrom tabWidth (c != '\n') (p.next tabWidth c) cs
  | false, p, c :: cs =>
    if isBlank c then skipTriviaFrom tabWidth false (p.next tabWidth c) cs
    else if c = '/' ∧ cs.head? = some '/' then skipTriviaFrom tabWidth true (p.next tabWidth c) cs
    else (p, c :: cs)

/-- The cursor at the next character that is not part of a blank or a comment. -/
def skipTrivia (c : Cursor) : Cursor :=
  let (place, rest) := skipTriviaFrom c.tabWidth false c.place c.rest
  { c with rest, place }

end Cursor

end StackCode
