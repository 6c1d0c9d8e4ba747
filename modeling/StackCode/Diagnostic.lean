/-
Diagnostics: an error of any phase, ready to be shown.

A diagnostic says what is wrong and, unless the fault lies in a binary image,
where.  Against the source text it is rendered with the offending line quoted and
a caret under the first offending column.
-/
import StackCode.Error
import StackCode.Text.Lines

namespace StackCode

/-- An error of some phase. -/
inductive Error where
  | lex (e : LexError)
  | parse (e : ParseError)
  | semantic (e : SemanticError)
  | codegen (e : CodegenError)
  | format (e : FormatError)
deriving DecidableEq, Repr

namespace Error

/-- Where the error is, if it is in a text. -/
def span? : Error → Option Span
  | lex e => some e.span
  | parse e => some e.span
  | semantic e => some e.span
  | codegen e => some e.span
  | format _ => none

end Error

/-- An error in a named file. -/
structure Diagnostic where
  file : String
  error : Error
deriving DecidableEq, Repr

namespace Diagnostic

/-- Where the error is, if it is in a text. -/
def position? (d : Diagnostic) : Option Position := d.error.span?.map (Position.mk d.file)

/-- A reason with the place it holds at. -/
def located (file : String) (span : Span) (reason : String) : String :=
  "at " ++ (Position.mk file span).text ++ ": " ++ reason

/-- The error in one line. -/
def message (d : Diagnostic) : String :=
  match d.error with
  | .lex e => located d.file e.span e.reason
  | .parse e => located d.file e.span e.reason
  | .semantic e => located d.file e.span (e.reason d.file)
  | .codegen e => located d.file e.span e.reason
  | .format e => e.message

/-! ### Showing the place -/

/-- The caret under the first column of a span, with tildes under the rest of it. -/
def pointer (span : Span) : String :=
  "".pushn ' ' (span.col - 1) ++ "^" ++ "".pushn '~' (span.len - 1)

/-- A number right-aligned in three places. -/
def lineNumber (n : Nat) : String :=
  let digits := toString n
  "".pushn ' ' (3 - digits.length) ++ digits

/-- A source line under its number, and the pointer below it. -/
def excerpt (span : Span) (line : String) : String :=
  "  |\n" ++ lineNumber span.line ++ " | " ++ line ++ "\n" ++ "  | " ++ pointer span ++ "\n"

/-- The error with the line it is on, if the source has that line. -/
def render (d : Diagnostic) (source : String) : String :=
  let head := "error: " ++ d.message ++ "\n"
  match d.error.span? with
  | none => head
  | some span =>
    match (Text.lines source.toList)[span.line - 1]? with
    | none => head
    | some line => head ++ excerpt span (String.ofList line)

end Diagnostic

end StackCode
