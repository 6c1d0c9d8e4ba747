/-
Digits and the numbers they spell.

A numeral is read in a radix and under a limit: the value is refused as soon as
it reaches the limit, so a long run of digits never builds a large number.  Register
numbers are read below 256 and integer literals below 2^64.
-/

namespace StackCode.Numeral

/-- The value of a character as a digit: `0` to `9`, then letters of either case from ten on. -/
def digitValue? (c : Char) : Option Nat :=
  if '0' ≤ c ∧ c ≤ '9' then some (c.toNat - '0'.toNat)
  else if 'a' ≤ c ∧ c ≤ 'z' then some (c.toNat - 'a'.toNat + 10)
  else if 'A' ≤ c ∧ c ≤ 'Z' then some (c.toNat - 'A'.toNat + 10)
  else none

/-- The value of a character as a digit of `radix`. -/
def digit? (radix : Nat) (c : Char) : Option Nat :=
  (digitValue? c).filter (· < radix)

/-- Is `c` a digit of `radix`? -/
def isDigit (radix : Nat) (c : Char) : Bool := (digit? radix c).isSome

/-- Read further digits after a number `n`, as long as the value stays below `limit`. -/
def extend? (radix limit : Nat) : Nat → List Char → Option Nat
  | n, [] => some n
  | n, c :: cs =>
    match digit? radix c with
    | none => none
    | some d => if n * radix + d < limit then extend? radix limit (n * radix + d) cs else none

/-- The number that a non-empty string of digits spells, if it is below `limit`. -/
def value? (radix limit : Nat) : List Char → Option Nat
  | [] => none
  | c :: cs => extend? radix limit 0 (c :: cs)

/-- Radix and digits of an integer literal: `0x`, `0o` and `0b`, in either case, or decimal. -/
def splitRadix : List Char → Nat × List Char
  | '0' :: 'x' :: ds => (16, ds)
  | '0' :: 'X' :: ds => (16, ds)
  | '0' :: 'b' :: ds => (2, ds)
  | '0' :: 'B' :: ds => (2, ds)
  | '0' :: 'o' :: ds => (8, ds)
  | '0' :: 'O' :: ds => (8, ds)
  | ds => (10, ds)

/-- The value of an integer literal, underscores left out, if it fits in 64 bits. -/
def literal? (text : List Char) : Option UInt64 :=
  let (radix, digits) := splitRadix text
  (value? radix UInt64.size (digits.filter (· != '_'))).map UInt64.ofNat

end StackCode.Numeral
