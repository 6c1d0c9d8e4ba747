/-
A text in double quotes, with everything that would not show written as an escape.
-/
import StackCode.Text.Printable

namespace StackCode.Text

/-- A number in lower-case hexadecimal. -/
def hexadecimal (n : Nat) : String := String.ofList (Nat.toDigits 16 n)

/-- A character inside double quotes. -/
def quoteChar (c : Char) : String :=
  if c = '\x00' then "\\0"
  else if c = '\t' then "\\t"
  else if c = '\r' then "\\r"
  else if c = '\n' then "\\n"
  else if c = '"' then "\\\""
  else if c = '\\' then "\\\\"
  else if isPrintable c then c.toString
  else "\\u\x7b" ++ hexadecimal c.toNat ++ "\x7d"

/-- A text in double quotes. -/
def quoted (s : String) : String :=
  "\"" ++ s.toList.foldl (fun out c => out ++ quoteChar c) "" ++ "\""

end StackCode.Text
