/-
Tokens: the words and marks that a source text is made of.

The kinds of a token follow what it is for: a keyword, the name of an intrinsic,
a punctuation or operator mark, or one of the open classes (integers, identifiers,
registers).  The spellings live in three tables.  Messages read all of them, and the
scanner those of the words; marks it takes apart by itself.
-/
import StackCode.Operator
import StackCode.Register
import StackCode.Span

namespace StackCode

/-! ### Keywords and intrinsics -/

/-- A reserved word. -/
inductive Keyword where
  | ifWord | elseWord | whileWord | funcWord | returnWord | varWord | aliasWord
  | trueWord | falseWord
deriving DecidableEq, Repr

namespace Keyword

/-- The keyword as it is written. -/
def text : Keyword → String
  | ifWord => "if"
  | elseWord => "else"
  | whileWord => "while"
  | funcWord => "func"
  | returnWord => "return"
  | varWord => "var"
  | aliasWord => "alias"
  | trueWord => "true"
  | falseWord => "false"

def all : List Keyword :=
  [ifWord, elseWord, whileWord, funcWord, returnWord, varWord, aliasWord, trueWord, falseWord]

end Keyword

/-- A built-in operation that is written like a call. -/
inductive Intrinsic where
  /-- Compare and swap. -/
  | cas
  /-- Copy a block of memory. -/
  | cpy
  /-- Show a value. -/
  | dbg
  /-- Raise an interrupt. -/
  | int
  /-- Exchange two registers. -/
  | xchg
deriving DecidableEq, Repr

namespace Intrinsic

/-- The name of the intrinsic. -/
def name : Intrinsic → String
  | cas => "cas"
  | cpy => "cpy"
  | dbg => "dbg"
  | int => "int"
  | xchg => "xchg"

/-- How many arguments the intrinsic takes. -/
def arity : Intrinsic → Nat
  | cas => 3
  | cpy => 3
  | dbg => 1
  | int => 1
  | xchg => 2

def all : List Intrinsic := [cas, cpy, dbg, int, xchg]

end Intrinsic

/-! ### Marks -/

/-- A punctuation or operator mark. -/
inductive Mark where
  | leftParen | rightParen | leftBrace | rightBrace | comma | semicolon
  | plus | minus | star | slash | percent | caret
  | amp | ampAmp | pipe | pipePipe | caretCaret | tilde
  | lessLess | greaterGreater | lessLessLess | greaterGreaterGreater
  | equalEqual | bangEqual | less | lessEqual | greater | greaterEqual
  | equal
  | plusEqual | minusEqual | starEqual | slashEqual | percentEqual | caretEqual
  | ampEqual | pipeEqual | caretCaretEqual
  | lessLessEqual | greaterGreaterEqual | lessLessLessEqual | greaterGreaterGreaterEqual
deriving DecidableEq, Repr

namespace Mark

/-- The characters of the mark. -/
def spelling : Mark → List Char
  | leftParen => ['(']
  | rightParen => [')']
  | leftBrace => ['{']
  | rightBrace => ['}']
  | comma => [',']
  | semicolon => [';']
  | plus => ['+']
  | minus => ['-']
  | star => ['*']
  | slash => ['/']
  | percent => ['%']
  | caret => ['^']
  | amp => ['&']
  | ampAmp => ['&', '&']
  | pipe => ['|']
  | pipePipe => ['|', '|']
  | caretCaret => ['^', '^']
  | tilde => ['~']
  | lessLess => ['<', '<']
  | greaterGreater => ['>', '>']
  | lessLessLess => ['<', '<', '<']
  | greaterGreaterGreater => ['>', '>', '>']
  | equalEqual => ['=', '=']
  | bangEqual => ['!', '=']
  | less => ['<']
  | lessEqual => ['<', '=']
  | greater => ['>']
  | greaterEqual => ['>', '=']
  | equal => ['=']
  | plusEqual => ['+', '=']
  | minusEqual => ['-', '=']
  | starEqual => ['*', '=']
  | slashEqual => ['/', '=']
  | percentEqual => ['%', '=']
  | caretEqual => ['^', '=']
  | ampEqual => ['&', '=']
  | pipeEqual => ['|', '=']
  | caretCaretEqual => ['^', '^', '=']
  | lessLessEqual => ['<', '<', '=']
  | greaterGreaterEqual => ['>', '>', '=']
  | lessLessLessEqual => ['<', '<', '<', '=']
  | greaterGreaterGreaterEqual => ['>', '>', '>', '=']

/-- The mark as it is written. -/
def text (m : Mark) : String := String.ofList m.spelling

/-- Every mark. -/
def all : List Mark :=
  [leftParen, rightParen, leftBrace, rightBrace, comma, semicolon,
   plus, minus, star, slash, percent, caret,
   amp, ampAmp, pipe, pipePipe, caretCaret, tilde,
   lessLess, greaterGreater, lessLessLess, greaterGreaterGreater,
   equalEqual, bangEqual, less, lessEqual, greater, greaterEqual,
   equal,
   plusEqual, minusEqual, starEqual, slashEqual, percentEqual, caretEqual,
   ampEqual, pipeEqual, caretCaretEqual,
   lessLessEqual, greaterGreaterEqual, lessLessLessEqual, greaterGreaterGreaterEqual]

theorem mem_all (m : Mark) : m ∈ all := by cases m <;> decide

/-- `=` or a compound assignment. -/
def isAssignment : Mark → Bool
  | equal | plusEqual | minusEqual | starEqual | slashEqual | percentEqual | caretEqual
  | ampEqual | pipeEqual | caretCaretEqual | lessLessEqual | greaterGreaterEqual
  | lessLessLessEqual | greaterGreaterGreaterEqual => true
  | _ => false

/-- The operator that the mark stands for between two operands. -/
def binary? : Mark → Option Operator
  | pipe => some .bitOr
  | pipePipe => some .logicalOr
  | caretCaret => some .xor
  | amp => some .bitAnd
  | ampAmp => some .logicalAnd
  | equalEqual => some .equal
  | bangEqual => some .notEqual
  | less => some .less
  | lessEqual => some .lessEqual
  | greater => some .greater
  | greaterEqual => some .greaterEqual
  | lessLess => some .shiftLeft
  | greaterGreater => some .shiftRight
  | lessLessLess => some .rotateLeft
  | greaterGreaterGreater => some .rotateRight
  | plus => some .add
  | minus => some .sub
  | star => some .mul
  | slash => some .div
  | percent => some .mod
  | caret => some .pow
  | _ => none

/-- The operator that the mark stands for before an operand. -/
def unary? : Mark → Option Operator
  | minus => some .negate
  | tilde => some .not
  | _ => none

/-- The operator that a compound assignment applies. -/
def compound? : Mark → Option Operator
  | plusEqual => some .add
  | minusEqual => some .sub
  | starEqual => some .mul
  | slashEqual => some .div
  | percentEqual => some .mod
  | caretEqual => some .pow
  | ampEqual => some .bitAnd
  | pipeEqual => some .bitOr
  | caretCaretEqual => some .xor
  | lessLessEqual => some .shiftLeft
  | greaterGreaterEqual => some .shiftRight
  | lessLessLessEqual => some .rotateLeft
  | greaterGreaterGreaterEqual => some .rotateRight
  | _ => none

end Mark

/-! ### Tokens -/

/-- What a token is. -/
inductive TokenKind where
  | integer
  | identifier
  | register
  | keyword (k : Keyword)
  | intrinsic (i : Intrinsic)
  | mark (m : Mark)
  /-- The end of the text. -/
  | eof
deriving DecidableEq, Repr

namespace TokenKind

def isIntrinsic : TokenKind → Bool
  | intrinsic _ => true
  | _ => false

/-- `=` or a compound assignment. -/
def isAssignment : TokenKind → Bool
  | mark m => m.isAssignment
  | _ => false

def intrinsic? : TokenKind → Option Intrinsic
  | intrinsic i => some i
  | _ => none

/-- The operator that a token of this kind stands for between two operands. -/
def binary? : TokenKind → Option Operator
  | mark m => m.binary?
  | _ => none

/-- The operator that a token of this kind stands for before an operand. -/
def unary? : TokenKind → Option Operator
  | mark m => m.unary?
  | _ => none

/-- The operator that a compound assignment of this kind applies. -/
def compound? : TokenKind → Option Operator
  | mark m => m.compound?
  | _ => none

/-- How a message names the kind when it asks for one. -/
def description : TokenKind → String
  | integer => "integer literal"
  | identifier => "identifier"
  | register => "register"
  | keyword k => "'" ++ k.text ++ "'"
  | intrinsic i => "'" ++ i.name ++ "'"
  | mark m => "'" ++ m.text ++ "'"
  | eof => "end of file"

/-- The kind of a reserved word: a keyword, an intrinsic or a register. -/
def ofReserved? (word : String) : Option TokenKind :=
  match Keyword.all.find? (·.text == word) with
  | some k => some (keyword k)
  | none =>
    match Intrinsic.all.find? (·.name == word) with
    | some i => some (intrinsic i)
    | none => (Register.ofName? word).map fun _ => register

/-- The kind of a word: reserved, or an identifier. -/
def ofWord (word : String) : TokenKind := (ofReserved? word).getD identifier

end TokenKind

/-- A piece of the source text that stands for something. -/
structure Token where
  kind : TokenKind
  /-- The text of the token; empty at the end of the input. -/
  lexeme : String
  span : Span
deriving DecidableEq, Repr

namespace Token

/-- How a message names the token that it found. -/
def describe (t : Token) : String :=
  match t.kind with
  | .eof => TokenKind.eof.description
  | _ => "'" ++ t.lexeme ++ "'"

/-- The register that a register token names. -/
def register? (t : Token) : Option Register :=
  match t.kind with
  | .register => Register.ofName? t.lexeme
  | _ => none

end Token

end StackCode
