/-
A token stream with lookahead.

The lexer keeps the tokens that were looked at and not yet taken, or taken and put
back, in front of the cursor.  Every operation leaves a lexer behind also when it
fails, and what was read before the failure stays readable.
-/
import StackCode.Token.Scan

namespace StackCode

/-- A token stream: tokens waiting to be taken, then the text from the cursor on. -/
structure Lexer where
  ahead : List Token
  cursor : Cursor
deriving DecidableEq, Repr

/-- A step on a token stream, which may fail on a bad character. -/
abbrev Lexing := EStateM LexError Lexer

namespace Lexer

/-- The tab width where none is given. -/
def defaultTabWidth : Nat := 4

/-- The token stream of a text. -/
def ofText (text : List Char) (tabWidth : Nat) : Lexer := ⟨[], .ofText text tabWidth⟩

/-- The token stream of a string. -/
def ofString (source : String) (tabWidth : Nat) : Lexer := ofText source.toList tabWidth

/-- Read a token at the cursor. -/
def scan : Lexing Token := fun l =>
  match l.cursor.scan with
  | (.ok t, c) => .ok t { l with cursor := c }
  | (.error e, c) => .error e { l with cursor := c }

/-- Take the next token. -/
def next : Lexing Token := fun l =>
  match l.ahead with
  | t :: rest => .ok t { l with ahead := rest }
  | [] => scan l

/-- Read one more token ahead of those waiting. -/
def readAhead : Lexing Token := do
  let t ← scan
  modify fun l => { l with ahead := l.ahead ++ [t] }
  return t

/-- Read `n + 1` more tokens ahead; the answer is the last of them. -/
def readAheadMany : Nat → Lexing Token
  | 0 => readAhead
  | n + 1 => do
    let _ ← readAhead
    readAheadMany n

/-- Look at the token `n` places ahead; the next one is at 0. -/
def peekNth (n : Nat) : Lexing Token := fun l =>
  match l.ahead[n]? with
  | some t => .ok t l
  | none => readAheadMany (n - l.ahead.length) l

/-- Look at the next token. -/
def peek : Lexing Token := peekNth 0

/-- Put a token back in front. -/
def pushBack (t : Token) : Lexing Unit := modify fun l => { l with ahead := t :: l.ahead }

/--
One step of reading a whole text: a token, or the error that ends the reading, or
`none` at the end.  After an error the cursor stands at the end of the text.
-/
def step (l : Lexer) : Option (Except LexError Token) × Lexer :=
  match next l with
  | .ok t l => if t.kind = .eof then (none, l) else (some (.ok t), l)
  | .error e l => (some (.error e), { l with cursor := l.cursor.toEnd })

/-- How many tokens the stream can still give before its end, at most. -/
def bound (l : Lexer) : Nat := l.ahead.length + l.cursor.rest.length

/-- Read tokens until the end or the first error, at most `fuel` of them. -/
def drainFrom (done : List Token) : Nat → Lexer → List Token × Option LexError × Lexer
  | 0, l => (done.reverse, none, l)
  | fuel + 1, l =>
    match step l with
    | (none, l) => (done.reverse, none, l)
    | (some (.ok t), l) => drainFrom (t :: done) fuel l
    | (some (.error e), l) => (done.reverse, some e, l)

/-- All tokens up to the end or the first error, the error, and the stream after them. -/
def drain (l : Lexer) : List Token × Option LexError × Lexer := drainFrom [] (l.bound + 1) l

end Lexer

end StackCode
