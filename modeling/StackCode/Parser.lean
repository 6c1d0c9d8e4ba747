/-
What every part of the parser uses: a token stream, and the names declared so far
in the block that is being read.

A step that fails leaves the parser where it was when it failed, with the tokens
that it took gone and the names that it declared kept.
-/
import StackCode.Lexer
import StackCode.Program

namespace StackCode

/-- Why a text is not a program: its characters, or its tokens. -/
inductive SourceError where
  | lex (e : LexError)
  | parse (e : ParseError)
deriving DecidableEq, Repr

/-- The state of a parser. -/
structure Parser where
  lexer : Lexer
  /-- The names declared in the block being read, the latest first. -/
  declared : List Decl
deriving DecidableEq, Repr

/-- A parsing step. -/
abbrev Parsing := EStateM SourceError Parser

namespace Parser

/-- A parser at the start of a source text. -/
def ofSource (source : String) (tabWidth : Nat) : Parser := ⟨.ofString source tabWidth, []⟩

/-! ### Tokens -/

/-- Take a step on the token stream. -/
def onLexer {α : Type} (step : Lexing α) : Parsing α := fun p =>
  match step p.lexer with
  | .ok a l => .ok a { p with lexer := l }
  | .error e l => .error (.lex e) { p with lexer := l }

/-- Look at the next token. -/
def peek : Parsing Token := onLexer Lexer.peek

/-- Look at the token `n` places ahead. -/
def peekNth (n : Nat) : Parsing Token := onLexer (Lexer.peekNth n)

/-- Take the next token. -/
def advance : Parsing Token := onLexer Lexer.next

/-- Put a token back in front. -/
def pushBack (t : Token) : Parsing Unit := onLexer (Lexer.pushBack t)

/-- Is the next token of this kind? -/
def check (kind : TokenKind) : Parsing Bool := do
  let t ← peek
  return t.kind == kind

/-- Is the text at its end? -/
def isEof : Parsing Bool := check .eof

/-- Take the next token if it is of this kind. -/
def eat (kind : TokenKind) : Parsing (Option Token) := do
  if ← check kind then
    let t ← advance
    return some t
  else
    return none

/-! ### Failures -/

/-- Stop with a parse error. -/
def fail {α : Type} (e : ParseError) : Parsing α := throw (.parse e)

/-- Stop where some construct had to stand. -/
def expected {α : Type} (t : Token) (what : String) : Parsing α := fail (.expected t.span what)

/-- Stop at a token that starts nothing. -/
def unexpected {α : Type} (t : Token) : Parsing α := fail (.unexpected t.span t.describe)

/-- Stop at a token that cannot follow. -/
def unexpectedToken {α : Type} (t : Token) : Parsing α :=
  fail (.unexpectedToken t.span t.describe)

/-- Take a token of this kind, or stop. -/
def expect (kind : TokenKind) : Parsing Token := do
  let t ← peek
  if t.kind = kind then advance
  else fail (.expectedToken t.span kind.description t.describe)

/-- Take a mark, or stop. -/
def expectMark (m : Mark) : Parsing Token := expect (.mark m)

/-- Take an identifier, or stop. -/
def ident : Parsing Ident := do
  let t ← peek
  if t.kind = .identifier then
    let _ ← advance
    return ⟨t.lexeme, t.span⟩
  else
    expected t "identifier"

/-! ### Declarations -/

/-- Record a name in the block that is being read. -/
def declare (d : Decl) : Parsing Unit := modify fun p => { p with declared := d :: p.declared }

/-- Read something with a list of declared names of its own, and give the names with it. -/
def inBlock {α : Type} (body : Parsing α) : Parsing (α × List Decl) := fun p =>
  match body { p with declared := [] } with
  | .ok a q => .ok (a, q.declared.reverse) { q with declared := p.declared }
  | .error e q => .error e { q with declared := p.declared }

/-! ### Fuel

Constructs nest, so the parser is recursive, and every nested construct takes a
token of its own first.  The recursion is bounded by a number of steps that starts
above the number of tokens that are left, so it never runs out.
-/

/-- Enough steps for what is left of the text. -/
def fuel : Parsing Nat := do
  let p ← get
  return p.lexer.bound + 1

/-- The answer of a parser that is out of steps. -/
def outOfFuel {α : Type} : Parsing α := fail (.expected (.point 0 0) "less nesting")

end Parser

end StackCode
