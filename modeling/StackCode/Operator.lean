/-
The operator table.

One type covers everything that can stand between or before operands, grouping
included, because trees are built over it and every phase reads the same table:
the parser its precedences, the messages its texts, the typing rules its classes.
-/

namespace StackCode

/-- An operator, from the loosest to the tightest. -/
inductive Operator where
  | openParen | closeParen
  | bitOr | logicalOr
  | xor
  | bitAnd | logicalAnd
  | equal | notEqual
  | less | lessEqual | greater | greaterEqual
  | shiftLeft | shiftRight | rotateLeft | rotateRight
  | add | sub
  | mul | div | mod
  | pow
  | negate | not
deriving DecidableEq, Repr

/-- How an operator combines operands. -/
inductive OperatorClass where
  | unary | binary | grouping
deriving DecidableEq, Repr

namespace Operator

/-- How tightly the operator binds. -/
def precedence : Operator → Nat
  | openParen | closeParen => 0
  | bitOr | logicalOr => 10
  | xor => 20
  | bitAnd | logicalAnd => 30
  | equal | notEqual => 40
  | less | lessEqual | greater | greaterEqual => 50
  | shiftLeft | shiftRight | rotateLeft | rotateRight => 60
  | add | sub => 70
  | mul | div | mod => 80
  | pow => 90
  | negate | not => 100

/-- Exponentiation and the prefix operators group to the right, all others to the left. -/
def isLeftAssociative : Operator → Bool
  | pow | negate | not => false
  | _ => true

def operatorClass : Operator → OperatorClass
  | openParen | closeParen => .grouping
  | negate | not => .unary
  | _ => .binary

/-- The least precedence that the right operand of the operator may have. -/
def nextMin (op : Operator) : Nat :=
  if op.isLeftAssociative then op.precedence + 1 else op.precedence

/-- The operator as it is written. -/
def text : Operator → String
  | openParen => "("
  | closeParen => ")"
  | bitOr => "|"
  | logicalOr => "||"
  | xor => "^^"
  | bitAnd => "&"
  | logicalAnd => "&&"
  | equal => "=="
  | notEqual => "!="
  | less => "<"
  | lessEqual => "<="
  | greater => ">"
  | greaterEqual => ">="
  | shiftLeft => "<<"
  | shiftRight => ">>"
  | rotateLeft => "<<<"
  | rotateRight => ">>>"
  | add => "+"
  | sub => "-"
  | mul => "*"
  | div => "/"
  | mod => "%"
  | pow => "^"
  | negate => "-"
  | not => "~"

end Operator

end StackCode
