/-
Reading one token off a text.

`Lexeme.read` looks only at characters: it says which token a text starts with,
or why it starts with none.  `Cursor.scan` adds the places.  After an error the
cursor stands behind what was wrong, so that reading can go on from there.
-/
import StackCode.Cursor
import StackCode.Error
import StackCode.Token

namespace StackCode

/-- What a text without blanks at its start begins with. -/
inductive Lexeme where
  /-- Nothing: the text is empty. -/
  | nothing
  /-- A token, and what follows it. -/
  | token (kind : TokenKind) (text rest : List Char)
  /-- The start of a token, and what had to follow it. -/
  | incomplete (expected : String) (text rest : List Char)
  /-- A character that starts no token. -/
  | stray (ch : Char) (rest : List Char)
deriving DecidableEq, Repr

namespace Lexeme

/-! ### Numerals and words -/

/-- An ASCII letter or an underscore. -/
def isWordStart (c : Char) : Bool := c.isAlpha || c = '_'

/-- An ASCII letter or digit, or an underscore. -/
def isWordChar (c : Char) : Bool := c.isAlphanum || c = '_'

/-- A digit of the radix, or an underscore between digits. -/
def isNumeralChar (radix : Nat) (c : Char) : Bool := Numeral.isDigit radix c || c = '_'

/-- The radix that the first two characters of a numeral announce. -/
def radixAt : List Char → Nat
  | '0' :: 'x' :: _ | '0' :: 'X' :: _ => 16
  | '0' :: 'b' :: _ | '0' :: 'B' :: _ => 2
  | '0' :: 'o' :: _ | '0' :: 'O' :: _ => 8
  | _ => 10

/-- What a message calls a digit of the radix. -/
def digitName (radix : Nat) : String :=
  if radix = 16 then "hexadecimal digit" else if radix = 8 then "octal digit" else "binary digit"

/-- The integer literal that a text starts with, `lead` being its radix mark. -/
def readDigits (radix : Nat) (lead digits : List Char) : Lexeme :=
  .token .integer (lead ++ digits.takeWhile (isNumeralChar radix))
    (digits.dropWhile (isNumeralChar radix))

/-- The integer literal that a text with a digit at its start begins with. -/
def readNumeral (cs : List Char) : Lexeme :=
  let radix := radixAt cs
  if radix = 10 then readDigits 10 [] cs
  else
    let digits := cs.drop 2
    if digits.head?.any (Numeral.isDigit radix) then readDigits radix (cs.take 2) digits
    else .incomplete (digitName radix) (cs.take 2) digits

/-- The word that a text with a letter at its start begins with. -/
def readWord (cs : List Char) : Lexeme :=
  let text := cs.takeWhile isWordChar
  .token (.ofWord (String.ofList text)) text (cs.dropWhile isWordChar)

/-! ### Marks

Some marks go on as others do, so their characters are taken one by one, with no more than
the next one looked at.
-/

/-- Take a character off a text if the text starts with it: what was taken, and what is left. -/
def eat (ch : Char) : List Char → List Char × List Char
  | [] => ([], [])
  | c :: cs => if c = ch then ([c], cs) else ([], c :: cs)

/--
The mark after two of `ch`.  A third one makes a rotation of the shift, and an equals sign
makes an assignment of either.
-/
def readShift (ch : Char) (shift shiftEqual rotate rotateEqual : Mark) (cs : List Char) : Lexeme :=
  let (third, cs) := eat ch cs
  let (assign, cs) := eat '=' cs
  let m := match third, assign with
    | [], [] => shift
    | [], _ => shiftEqual
    | _, [] => rotate
    | _, _ => rotateEqual
  .token (.mark m) (ch :: ch :: (third ++ assign)) cs

/-- The mark that a text starts with.  An exclamation mark is only part of one. -/
def readMark (c : Char) (cs : List Char) : Lexeme :=
  let mark (m : Mark) (more rest : List Char) : Lexeme := .token (.mark m) (c :: more) rest
  match c, cs with
  | '(', _ => mark .leftParen [] cs
  | ')', _ => mark .rightParen [] cs
  | '{', _ => mark .leftBrace [] cs
  | '}', _ => mark .rightBrace [] cs
  | ';', _ => mark .semicolon [] cs
  | ',', _ => mark .comma [] cs
  | '~', _ => mark .tilde [] cs
  | '+', '=' :: rest => mark .plusEqual ['='] rest
  | '+', _ => mark .plus [] cs
  | '-', '=' :: rest => mark .minusEqual ['='] rest
  | '-', _ => mark .minus [] cs
  | '*', '=' :: rest => mark .starEqual ['='] rest
  | '*', _ => mark .star [] cs
  | '/', '=' :: rest => mark .slashEqual ['='] rest
  | '/', _ => mark .slash [] cs
  | '%', '=' :: rest => mark .percentEqual ['='] rest
  | '%', _ => mark .percent [] cs
  | '=', '=' :: rest => mark .equalEqual ['='] rest
  | '=', _ => mark .equal [] cs
  | '!', '=' :: rest => mark .bangEqual ['='] rest
  | '!', _ => .incomplete "'='" [c] cs
  | '&', '=' :: rest => mark .ampEqual ['='] rest
  | '&', '&' :: rest => mark .ampAmp ['&'] rest
  | '&', _ => mark .amp [] cs
  | '|', '=' :: rest => mark .pipeEqual ['='] rest
  | '|', '|' :: rest => mark .pipePipe ['|'] rest
  | '|', _ => mark .pipe [] cs
  | '^', '^' :: rest =>
    let (assign, rest) := eat '=' rest
    mark (if assign.isEmpty then .caretCaret else .caretCaretEqual) ('^' :: assign) rest
  | '^', '=' :: rest => mark .caretEqual ['='] rest
  | '^', _ => mark .caret [] cs
  | '<', '=' :: rest => mark .lessEqual ['='] rest
  | '<', '<' :: rest =>
    readShift '<' .lessLess .lessLessEqual .lessLessLess .lessLessLessEqual rest
  | '<', _ => mark .less [] cs
  | '>', '=' :: rest => mark .greaterEqual ['='] rest
  | '>', '>' :: rest =>
    readShift '>' .greaterGreater .greaterGreaterEqual .greaterGreaterGreater
      .greaterGreaterGreaterEqual rest
  | '>', _ => mark .greater [] cs
  | _, _ => .stray c cs

/-- What a text without blanks at its start begins with. -/
def read : List Char → Lexeme
  | [] => .nothing
  | c :: cs =>
    if c.isDigit then readNumeral (c :: cs)
    else if isWordStart c then readWord (c :: cs)
    else readMark c cs

end Lexeme

namespace Cursor

/-- The span of a text that starts at the cursor. -/
def spanOf (c : Cursor) (text : String) : Span := ⟨c.place.line, c.place.col, text.utf8ByteSize⟩

/-- The empty span at the cursor. -/
def point (c : Cursor) : Span := .point c.place.line c.place.col

/-- The token at a cursor that stands on no blank, and the cursor after it. -/
def scanHere (c : Cursor) : Except LexError Token × Cursor :=
  match Lexeme.read c.rest with
  | .nothing => (.ok ⟨.eof, "", c.point⟩, c)
  | .token kind text rest =>
    let lexeme := String.ofList text
    (.ok ⟨kind, lexeme, c.spanOf lexeme⟩, c.advance text rest)
  | .incomplete expected text rest =>
    let c := c.advance text rest
    (.error (.expectedCharacter c.point expected), c)
  | .stray ch rest =>
    (.error (.unexpectedCharacter (c.spanOf ch.toString) ch), c.advance [ch] rest)

/-- The next token, and the cursor after it.  At the end of the text it is the end, for ever. -/
def scan (c : Cursor) : Except LexError Token × Cursor := c.skipTrivia.scanHere

end Cursor

end StackCode
