/-
Reading expressions by precedence climbing.

Operators are taken as long as they bind at least as tightly as asked for.  The
right operand of an operator is read with the operator's own demand, one level
tighter for those that group to the left, so a chain of them leans to the left.
-/
import StackCode.Parser

namespace StackCode.Parser

/-- The level at which a whole expression is read: above grouping. -/
def lowest : Nat := Operator.openParen.precedence + 1

/-- Read an expression without operators around it; `expr` reads one inside it. -/
def primary (expr : Nat → Parsing Expr) : Parsing Expr := do
  let t ← peek
  match t.kind with
  | .integer =>
    let _ ← advance
    match Numeral.literal? t.lexeme.toList with
    | some value => return .integer value t.span
    | none => fail (.unexpected t.span (t.describe ++ " (integer literal out of range)"))
  | .keyword .trueWord =>
    let _ ← advance
    return .boolean true t.span
  | .keyword .falseWord =>
    let _ ← advance
    return .boolean false t.span
  | .register =>
    let _ ← advance
    match t.register? with
    | some r => return .register r t.span
    | none => unexpected t
  | .identifier =>
    let _ ← advance
    return .ident ⟨t.lexeme, t.span⟩
  | .mark .leftParen =>
    let _ ← advance
    let inner ← expr lowest
    let _ ← expectMark .rightParen
    return inner
  | .eof => expected t "expression"
  | _ => unexpected t

/-- Read an operand: prefix operators, then an expression without operators. -/
def operand (expr : Nat → Parsing Expr) : Parsing Expr := do
  let t ← peek
  match t.kind.unary? with
  | some op =>
    let _ ← advance
    let e ← expr op.precedence
    return .unary op e (t.span.merge e.span)
  | none => primary expr

/-- Take operators of at least the level `min`, with their right operands, onto `left`. -/
def climb (expr : Nat → Parsing Expr) (min : Nat) : Nat → Expr → Parsing Expr
  | 0, _ => outOfFuel
  | n + 1, left => do
    let t ← peek
    match t.kind.binary? with
    | none => return left
    | some op =>
      if op.precedence < min then return left
      else
        let _ ← advance
        let right ← expr op.nextMin
        climb expr min n (.binary op left right (left.span.merge right.span))

/-- Read an expression whose operators all have at least the level `min`. -/
def exprAt : Nat → Nat → Parsing Expr
  | 0, _ => outOfFuel
  | n + 1, min => do
    let left ← operand (exprAt n)
    climb (exprAt n) min n left

/-- Read further arguments after those in `done`, which are kept last first. -/
def argumentsFrom (expr : Parsing Expr) (done : List Expr) : Nat → Parsing (List Expr)
  | 0 => outOfFuel
  | n + 1 => do
    let e ← expr
    match ← eat (.mark .comma) with
    | some _ => argumentsFrom expr (e :: done) n
    | none => return (e :: done).reverse

/-- Read arguments in parentheses. -/
def argumentList (expr : Parsing Expr) (n : Nat) : Parsing Arguments := do
  let opening ← expectMark .leftParen
  let args ← if ← check (.mark .rightParen) then pure [] else argumentsFrom expr [] n
  let closing ← expectMark .rightParen
  return ⟨args, opening.span.merge closing.span⟩

/-- Read an expression whose operators all have at least the level `min`. -/
def exprAbove (min : Nat) : Parsing Expr := do exprAt (← fuel) min

/-- Read an expression. -/
def expression : Parsing Expr := exprAbove lowest

/-- Read arguments in parentheses. -/
def arguments : Parsing Arguments := do
  let n ← fuel
  argumentList (exprAt n lowest) n

end StackCode.Parser
