/-
What can go wrong, by phase.

Each phase has its own type of errors, and each error carries the span it is
about; the file is attached only when it is reported, by `Diagnostic`.  The words
of every message are in this file and nowhere else.
-/
import StackCode.Span

namespace StackCode

/-- A text that does not split into tokens. -/
inductive LexError where
  /-- No token begins with this character. -/
  | unexpectedCharacter (span : Span) (ch : Char)
  /-- A token was started but not completed. -/
  | expectedCharacter (span : Span) (expected : String)
deriving DecidableEq, Repr

/-- A token sequence that is not a program. -/
inductive ParseError where
  /-- Some construct had to stand here. -/
  | expected (span : Span) (expected : String)
  /-- One kind of token had to stand here and another did. -/
  | expectedToken (span : Span) (expected found : String)
  /-- No construct starts like this. -/
  | unexpected (span : Span) (found : String)
  /-- A complete construct is followed by a token that cannot continue. -/
  | unexpectedToken (span : Span) (token : String)
deriving DecidableEq, Repr

/-- A program whose names or types do not fit. -/
inductive SemanticError where
  /-- A name was declared twice in one scope. -/
  | alreadyDefined (span : Span) (identifier : String) (previous : Span)
  | identifierNotFound (span : Span) (identifier : String)
  /-- The target of an assignment cannot be written to. -/
  | expectedLValue (span : Span)
  | wrongType (span : Span) (message : String)
  | wrongNumberOfArguments (span : Span) (name : String) (expected found : Nat)
deriving DecidableEq, Repr

/-- A program that cannot be put into code. -/
inductive CodegenError where
  /-- The program is too large for the encoding. -/
  | limitExceeded (span : Span) (what : String) (limit : Nat)
  /-- The tree has a shape that analysis refuses. -/
  | internal (span : Span) (message : String)
deriving DecidableEq, Repr

/-- Bytes that are not a program, or a program that failed when run. -/
inductive FormatError where
  | invalidProgram (reason : String)
  | unhandledException (message : String)
deriving DecidableEq, Repr

/-! ### Where an error is and what it says -/

namespace LexError

def span : LexError → Span
  | unexpectedCharacter s _ => s
  | expectedCharacter s _ => s

/-- What is wrong, without the place. -/
def reason : LexError → String
  | unexpectedCharacter _ ch => "unexpected character '" ++ ch.toString ++ "'"
  | expectedCharacter _ expected => "expected " ++ expected

end LexError

namespace ParseError

def span : ParseError → Span
  | expected s _ => s
  | expectedToken s _ _ => s
  | unexpected s _ => s
  | unexpectedToken s _ => s

/-- What is wrong, without the place. -/
def reason : ParseError → String
  | expected _ what => "expected " ++ what
  | expectedToken _ what found => "expected " ++ what ++ ", found " ++ found
  | unexpected _ found => "unexpected " ++ found
  | unexpectedToken _ token => "unexpected token " ++ token

end ParseError

namespace SemanticError

def span : SemanticError → Span
  | alreadyDefined s _ _ => s
  | identifierNotFound s _ => s
  | expectedLValue s => s
  | wrongType s _ => s
  | wrongNumberOfArguments s _ _ _ => s

/-- What is wrong, without the place; an earlier definition is placed in `file`. -/
def reason (file : String) : SemanticError → String
  | alreadyDefined _ identifier previous =>
    "'" ++ identifier ++ "' is already defined at " ++ (Position.mk file previous).text
  | identifierNotFound _ identifier => "identifier '" ++ identifier ++ "' not found"
  | expectedLValue _ => "expected an lvalue"
  | wrongType _ message => message
  | wrongNumberOfArguments _ name expected found =>
    "'" ++ name ++ "' expects " ++ toString expected ++ " argument(s), found " ++ toString found

end SemanticError

namespace CodegenError

def span : CodegenError → Span
  | limitExceeded s _ _ => s
  | internal s _ => s

/-- What is wrong, without the place. -/
def reason : CodegenError → String
  | limitExceeded _ what limit => "too many " ++ what ++ " (limit is " ++ toString limit ++ ")"
  | internal _ message => "internal error: " ++ message

end CodegenError

namespace FormatError

def message : FormatError → String
  | invalidProgram reason => "invalid program format: " ++ reason
  | unhandledException message => "unhandled program exception: " ++ message

end FormatError

end StackCode
