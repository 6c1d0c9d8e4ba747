/-
What operators accept and what they become in code.

A value is an integer or a boolean.  An operator that accepts its operands gives a
result type and the instruction that computes it; the two are resolved together so
that code never meets an operator that typing refused.
-/
import StackCode.Opcode
import StackCode.Operator

namespace StackCode

/-- The type of a value. -/
inductive ValueType where
  /-- An unsigned 64-bit number. -/
  | integer
  | boolean
deriving DecidableEq, Repr

/-- The name of the type in a message. -/
def ValueType.name : ValueType → String
  | integer => "integer"
  | boolean => "boolean"

namespace Operator

/-- The instruction that applies the operator to two operands. -/
def binaryOpcode? : Operator → Option Opcode
  | add => some .add
  | sub => some .sub
  | mul => some .mul
  | div => some .div
  | mod => some .mod
  | pow => some .pow
  | bitAnd => some .bitAnd
  | bitOr => some .bitOr
  | xor => some .bitXor
  | logicalAnd => some .logicalAnd
  | logicalOr => some .logicalOr
  | shiftLeft => some .shl
  | shiftRight => some .shr
  | rotateLeft => some .rol
  | rotateRight => some .ror
  | equal => some .eq
  | notEqual => some .ne
  | less => some .lt
  | lessEqual => some .le
  | greater => some .gt
  | greaterEqual => some .ge
  | openParen | closeParen | negate | not => none

/-- The instruction that applies the operator to one operand. -/
def unaryOpcode? : Operator → Option Opcode
  | negate => some .neg
  | not => some .not
  | _ => none

/--
The type of the operator's result on two operands.  Arithmetic and shifts take
integers; the bitwise operators take two values of one type and give that type;
the logical ones take booleans; equality compares values of one type and order
compares integers.
-/
def binaryType? (op : Operator) (left right : ValueType) : Option ValueType :=
  match op with
  | add | sub | mul | div | mod | pow | shiftLeft | shiftRight | rotateLeft | rotateRight =>
    if left = .integer ∧ right = .integer then some .integer else none
  | bitAnd | bitOr | xor => if left = right then some left else none
  | logicalAnd | logicalOr =>
    if left = .boolean ∧ right = .boolean then some .boolean else none
  | equal | notEqual => if left = right then some .boolean else none
  | less | lessEqual | greater | greaterEqual =>
    if left = .integer ∧ right = .integer then some .boolean else none
  | openParen | closeParen | negate | not => none

/-- The type of the operator's result on one operand: `-` takes an integer, `~` any value. -/
def unaryType? (op : Operator) (operand : ValueType) : Option ValueType :=
  match op with
  | negate => if operand = .integer then some .integer else none
  | not => some operand
  | _ => none

/-- An operator that has a type on two operands has an instruction for them. -/
theorem binaryOpcode?_isSome_of_binaryType? {op : Operator} {left right result : ValueType}
    (h : op.binaryType? left right = some result) : op.binaryOpcode?.isSome = true := by
  cases op <;> simp_all [binaryType?, binaryOpcode?]

/-- An operator that has a type on one operand has an instruction for it. -/
theorem unaryOpcode?_isSome_of_unaryType? {op : Operator} {operand result : ValueType}
    (h : op.unaryType? operand = some result) : op.unaryOpcode?.isSome = true := by
  cases op <;> simp_all [unaryType?, unaryOpcode?]

end Operator

end StackCode
