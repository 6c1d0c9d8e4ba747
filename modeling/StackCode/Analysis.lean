/-
Analysis: what every name stands for, and whether every value has the type it must
have.

A program is walked once, in the order of its text.  On entering a block all names
that it declares are entered before any of its statements is looked at.  A plain
assignment to a name that is visible nowhere introduces a variable in the
innermost block.  The first thing done with a variable fixes its type: an
assignment gives it the type of the value, a read makes it an integer.

Analysis stops at the first error and leaves behind what it had found by then.
-/
import StackCode.Error
import StackCode.Scopes
import StackCode.Symbol

namespace StackCode

/-- How far the analysis of a program has come. -/
structure Analysis where
  scopes : Scopes
  resolutions : Resolutions

/-- A step of the analysis. -/
abbrev Analyzing := EStateM SemanticError Analysis

namespace Analysis

/-- Before the first block. -/
def start : Analysis := ⟨.empty, .empty⟩

/-! ### Names -/

/-- Change what is known of the names. -/
def update (f : Resolutions → Resolutions) : Analyzing Unit :=
  modify fun a => { a with resolutions := f a.resolutions }

/-- Enter a number for a name in the innermost scope. -/
def enter (id : Ident) (decl : Nat) : Analyzing Unit := fun a =>
  match Scopes.declare id.name decl a.scopes with
  | .ok _ scopes => .ok () { a with scopes }
  | .error previous scopes =>
    .error (.alreadyDefined id.span id.name (a.resolutions.symbol previous).span) { a with scopes }

/--
Declare a name in the innermost scope; the answer is the number of its symbol.  The scope
has the number before there is a symbol with it.
-/
def declare (id : Ident) (kind : DeclKind) (implicit : Bool) : Analyzing Nat := do
  let decl := (← get).resolutions.symbols.size
  enter id decl
  update (·.addSymbol id kind implicit)
  update (·.bindDeclaration id.span decl)
  return decl

/-- The symbol with a number. -/
def symbol (decl : Nat) : Analyzing Symbol := return (← get).resolutions.symbol decl

/-- Find what a name stands for here, and record the use. -/
def lookup (id : Ident) : Analyzing Nat := do
  match (← get).scopes.lookup? id.name with
  | none => throw (.identifierNotFound id.span id.name)
  | some decl =>
    update (·.bindReference id.span decl)
    return decl

/-- Analyse something in a scope of its own, which is closed again also after an error. -/
def inScope (body : Analyzing Unit) : Analyzing Unit := fun a =>
  match body { a with scopes := a.scopes.push } with
  | .ok _ b => .ok () { b with scopes := b.scopes.pop }
  | .error e b => .error e { b with scopes := b.scopes.pop }

/-! ### Types -/

/-- Stop with a message about types. -/
def wrongType {α : Type} (span : Span) (message : String) : Analyzing α :=
  throw (.wrongType span message)

/-- Stop unless a type is the one that `what` calls for. -/
def expectType (expected found : ValueType) (span : Span) (what : String) : Analyzing Unit :=
  if expected = found then pure ()
  else wrongType span (what ++ ": expected " ++ expected.name ++ ", found " ++ found.name)

/-- The type that a variable is read with, which is written down if there was none: integer. -/
def readType (decl : Nat) : Analyzing ValueType := do
  match (← symbol decl).type? with
  | some type => return type
  | none =>
    update (·.setType decl .integer)
    return .integer

/-- The type of a name's value. -/
def identType (id : Ident) : Analyzing ValueType := do
  let decl ← lookup id
  match (← symbol decl).kind with
  | .var => readType decl
  | .registerAlias _ => return .integer
  | .func => wrongType id.span ("function '" ++ id.name ++ "' cannot be used as a value")

/-- The type of an operator's result on two operands. -/
def binaryResult (op : Operator) (left right : ValueType) (span : Span) : Analyzing ValueType :=
  match op.binaryType? left right with
  | some type => return type
  | none =>
    wrongType span ("operator '" ++ op.text ++ "' cannot be applied to " ++ left.name ++ " and " ++
      right.name)

/-- The type of an operator's result on one operand. -/
def unaryResult (op : Operator) (operand : ValueType) (span : Span) : Analyzing ValueType :=
  match op.unaryType? operand with
  | some type => return type
  | none => wrongType span ("operator '" ++ op.text ++ "' cannot be applied to " ++ operand.name)

/-- The type of an expression. -/
def exprType : Expr → Analyzing ValueType
  | .integer .. | .register .. => return .integer
  | .boolean .. => return .boolean
  | .ident id => identType id
  | .unary op operand span => do
    let type ← exprType operand
    unaryResult op type span
  | .binary op left right span => do
    let l ← exprType left
    let r ← exprType right
    binaryResult op l r span

/-- Check an expression against the type that `what` calls for. -/
def checkExpr (expected : ValueType) (e : Expr) (what : String) : Analyzing Unit := do
  let found ← exprType e
  expectType expected found e.span what

end Analysis

/-! ### Assignments -/

/-- What can be written to. -/
inductive Target where
  | register (r : Register)
  | ident (id : Ident)
deriving DecidableEq, Repr

/-- The target that an expression is. -/
def Expr.target? : Expr → Option Target
  | register r _ => some (.register r)
  | ident id => some (.ident id)
  | binary .. | unary .. | integer .. | boolean .. => none

namespace Analysis

/-- The target on the left of an assignment. -/
def target (e : Expr) : Analyzing Target :=
  match e.target? with
  | some t => return t
  | none => throw (.expectedLValue e.span)

/--
Write a value of some type to a name, and introduce the name if it is new.  The type of a
variable is written only where it has none.
-/
def assignIdent (id : Ident) (type : ValueType) (valueSpan : Span) : Analyzing Unit := do
  match (← get).scopes.lookup? id.name with
  | none =>
    let decl ← declare id .var true
    update (·.bindReference id.span decl)
    update (·.setType decl type)
  | some decl =>
    update (·.bindReference id.span decl)
    match (← symbol decl).kind with
    | .func => throw (.expectedLValue id.span)
    | .registerAlias _ =>
      expectType .integer type valueSpan ("assignment to register alias '" ++ id.name ++ "'")
    | .var =>
      match (← symbol decl).type? with
      | none => update (·.setType decl type)
      | some fixed => expectType fixed type valueSpan ("assignment to '" ++ id.name ++ "'")

/-- Analyse `left = value`. -/
def assign (left value : Expr) : Analyzing Unit := do
  let t ← target left
  let type ← exprType value
  match t with
  | .register r =>
    expectType .integer type value.span ("assignment to register '" ++ r.name ++ "'")
  | .ident id => assignIdent id type value.span

/-- The type that the target of a compound assignment is read with. -/
def compoundTargetType : Target → Analyzing ValueType
  | .register _ => return .integer
  | .ident id => do
    let decl ← lookup id
    match (← symbol decl).kind with
    | .func => throw (.expectedLValue id.span)
    | .registerAlias _ => return .integer
    | .var => readType decl

/-- Analyse `left op= value`; the target has to exist. -/
def compound (op : Operator) (left value : Expr) (span : Span) : Analyzing Unit := do
  let t ← target left
  let targetType ← compoundTargetType t
  let valueType ← exprType value
  let result ← binaryResult op targetType valueType span
  expectType targetType result span ("result of '" ++ op.text ++ "='")

/-! ### Intrinsics and calls -/

end Analysis

/-- What an intrinsic takes as an argument. -/
inductive Operand where
  /-- A register or an alias of one. -/
  | register
  | integer
  /-- A value of either type. -/
  | any
deriving DecidableEq, Repr

/-- What an intrinsic takes, argument by argument. -/
def Intrinsic.operands : Intrinsic → List Operand
  | cas => [.register, .integer, .integer]
  | cpy => [.integer, .integer, .integer]
  | dbg => [.any]
  | int => [.integer]
  | xchg => [.register, .register]

namespace Analysis

/-- Is an argument a register or an alias of one? -/
def isRegister : Expr → Analyzing Bool
  | .register .. => return true
  | .ident id => do
    let decl ← lookup id
    return (← symbol decl).register?.isSome
  | .binary .. | .unary .. | .integer .. | .boolean .. => return false

/-- Check the argument at `index`, counted from 1. -/
def checkOperand (i : Intrinsic) (index : Nat) (arg : Expr) : Operand → Analyzing Unit
  | .register => do
    if ← isRegister arg then
      return
    else
      wrongType arg.span
        ("'" ++ i.name ++ "' expects a register as argument " ++ toString index)
  | .integer =>
    checkExpr .integer arg ("argument " ++ toString index ++ " of '" ++ i.name ++ "'")
  | .any => do
    let _ ← exprType arg

/-- Check arguments against what the intrinsic takes, from `index` on. -/
def checkOperands (i : Intrinsic) : Nat → List (Expr × Operand) → Analyzing Unit
  | _, [] => pure ()
  | index, (arg, operand) :: rest => do
    checkOperand i index arg operand
    checkOperands i (index + 1) rest

/-- Analyse the use of an intrinsic. -/
def intrinsic (i : Intrinsic) (args : List Expr) (span : Span) : Analyzing Unit :=
  if args.length = i.arity then checkOperands i 1 (args.zip i.operands)
  else throw (.wrongNumberOfArguments span i.name i.arity args.length)

/-- Analyse a call.  Functions take no arguments. -/
def call (name : Ident) (args : List Expr) (span : Span) : Analyzing Unit := do
  let decl ← lookup name
  let s ← symbol decl
  if s.kind = .func then
    if args.isEmpty then return
    else throw (.wrongNumberOfArguments span name.name 0 args.length)
  else
    wrongType name.span ("'" ++ name.name ++ "' is a " ++ s.kind.describe ++ ", not a function")

/-! ### Statements -/

/-- Enter the names that a block declares. -/
def declareAll : List Decl → Analyzing Unit
  | [] => pure ()
  | d :: rest => do
    let _ ← declare d.name d.kind false
    declareAll rest

mutual

/-- Analyse a statement. -/
def stmt : Stmt → Analyzing Unit
  | .assign left value _ => assign left value
  | .compound op left value span => compound op left value span
  | .ifThen cond body _ => do
    checkExpr .boolean cond "condition"
    block body
  | .ifElse cond body _ elseBody _ => do
    checkExpr .boolean cond "condition"
    block body
    block elseBody
  | .whileLoop cond body _ => do
    checkExpr .boolean cond "condition"
    block body
  | .func _ body _ => block body
  | .ret none _ => pure ()
  | .ret (some value) _ => checkExpr .integer value "return value"
  | .intrinsic i args span => intrinsic i args.args span
  | .call name args span => call name args.args span

/-- Analyse a block in a scope of its own. -/
def block : Block → Analyzing Unit
  | ⟨decls, body, _⟩ => inScope do
    declareAll decls
    stmts body

/-- Analyse statements in order. -/
def stmts : List Stmt → Analyzing Unit
  | [] => pure ()
  | s :: rest => do
    stmt s
    stmts rest

end

end Analysis

/-- What the names of a program stand for, or the first thing wrong with it. -/
def Program.analyze (p : Program) : Except SemanticError Resolutions :=
  match Analysis.block p.block .start with
  | .ok _ a => .ok a.resolutions
  | .error e _ => .error e

end StackCode
