/-
Tokens as they show in a log.

`Token.debug` writes the kind of a token by its name, then its text in quotes and the place
where it starts.  What would not show in the text is written as an escape (`Text.quoted`).
-/
import StackCode.Text.Quoted
import StackCode.Token

namespace StackCode

/-- The name of the keyword's kind. -/
def Keyword.label : Keyword → String
  | ifWord => "If"
  | elseWord => "Else"
  | whileWord => "While"
  | funcWord => "Func"
  | returnWord => "Return"
  | varWord => "Var"
  | aliasWord => "Alias"
  | trueWord => "True"
  | falseWord => "False"

/-- The name of the intrinsic's kind. -/
def Intrinsic.label : Intrinsic → String
  | cas => "Cas"
  | cpy => "Cpy"
  | dbg => "Dbg"
  | int => "Int"
  | xchg => "Xchg"

/-- The name of the mark's kind. -/
def Mark.label : Mark → String
  | leftParen => "LeftParen"
  | rightParen => "RightParen"
  | leftBrace => "LeftBrace"
  | rightBrace => "RightBrace"
  | comma => "Comma"
  | semicolon => "Semicolon"
  | plus => "Plus"
  | minus => "Minus"
  | star => "Star"
  | slash => "Slash"
  | percent => "Percent"
  | caret => "Caret"
  | amp => "Amp"
  | ampAmp => "AmpAmp"
  | pipe => "Pipe"
  | pipePipe => "PipePipe"
  | caretCaret => "CaretCaret"
  | tilde => "Tilde"
  | lessLess => "LessLess"
  | greaterGreater => "GreaterGreater"
  | lessLessLess => "LessLessLess"
  | greaterGreaterGreater => "GreaterGreaterGreater"
  | equalEqual => "EqualEqual"
  | bangEqual => "BangEqual"
  | less => "Less"
  | lessEqual => "LessEqual"
  | greater => "Greater"
  | greaterEqual => "GreaterEqual"
  | equal => "Equal"
  | plusEqual => "PlusEqual"
  | minusEqual => "MinusEqual"
  | starEqual => "StarEqual"
  | slashEqual => "SlashEqual"
  | percentEqual => "PercentEqual"
  | caretEqual => "CaretEqual"
  | ampEqual => "AmpEqual"
  | pipeEqual => "PipeEqual"
  | caretCaretEqual => "CaretCaretEqual"
  | lessLessEqual => "LessLessEqual"
  | greaterGreaterEqual => "GreaterGreaterEqual"
  | lessLessLessEqual => "LessLessLessEqual"
  | greaterGreaterGreaterEqual => "GreaterGreaterGreaterEqual"

/-- The name of the kind. -/
def TokenKind.label : TokenKind → String
  | integer => "IntLiteral"
  | identifier => "Identifier"
  | register => "Register"
  | keyword k => k.label
  | intrinsic i => i.label
  | mark m => m.label
  | eof => "Eof"

/-- The token in a log. -/
def Token.debug (t : Token) : String :=
  t.kind.label ++ "(" ++ Text.quoted t.lexeme ++ " @ " ++ t.span.text ++ ")"

end StackCode
