/-
Programs as trees.

Expressions have no effects; parentheses only steer how they are read and leave no
node.  A block keeps the names it declares apart from its statements, because a
name is visible in the whole block that declares it.  Every node carries the span
of the tokens it was read from.
-/
import StackCode.Operator
import StackCode.Register
import StackCode.Span
import StackCode.Token

namespace StackCode

/-- A name as it is written at one place. -/
structure Ident where
  name : String
  span : Span
deriving DecidableEq, Repr

/-- An expression. -/
inductive Expr where
  | binary (op : Operator) (left right : Expr) (span : Span)
  | unary (op : Operator) (operand : Expr) (span : Span)
  | integer (value : UInt64) (span : Span)
  | boolean (value : Bool) (span : Span)
  | register (r : Register) (span : Span)
  | ident (id : Ident)
deriving DecidableEq, Repr

def Expr.span : Expr → Span
  | binary _ _ _ s => s
  | unary _ _ s => s
  | integer _ s => s
  | boolean _ s => s
  | register _ s => s
  | ident id => id.span

/-- The arguments of a call; the span covers the parentheses. -/
structure Arguments where
  args : List Expr
  span : Span
deriving DecidableEq, Repr

/-- The first `n` arguments, if there are so many. -/
def Arguments.first? (a : Arguments) (n : Nat) : Option (List Expr) :=
  if n ≤ a.args.length then some (a.args.take n) else none

/-- What a declaration introduces. -/
inductive DeclKind where
  | var
  | func
  /-- A name for a register. -/
  | registerAlias (r : Register)
deriving DecidableEq, Repr

/-- The kind in words. -/
def DeclKind.describe : DeclKind → String
  | var => "variable"
  | func => "function"
  | registerAlias _ => "register alias"

/-- A name that a block declares. -/
structure Decl where
  kind : DeclKind
  name : Ident
deriving DecidableEq, Repr

mutual

/-- A statement. -/
inductive Stmt where
  | assign (target value : Expr) (span : Span)
  /-- `target op= value`. -/
  | compound (op : Operator) (target value : Expr) (span : Span)
  | ifThen (cond : Expr) (body : Block) (span : Span)
  /-- An `if` with its own span, and what to do otherwise. -/
  | ifElse (cond : Expr) (body : Block) (ifSpan : Span) (elseBody : Block) (span : Span)
  | whileLoop (cond : Expr) (body : Block) (span : Span)
  | func (name : Ident) (body : Block) (span : Span)
  | ret (value : Option Expr) (span : Span)
  | intrinsic (i : Intrinsic) (args : Arguments) (span : Span)
  | call (name : Ident) (args : Arguments) (span : Span)

/-- Statements with the names declared among them. -/
structure Block where
  decls : List Decl
  stmts : List Stmt
  span : Span

end

def Stmt.span : Stmt → Span
  | assign _ _ s => s
  | compound _ _ _ s => s
  | ifThen _ _ s => s
  | ifElse _ _ _ _ s => s
  | whileLoop _ _ s => s
  | func _ _ s => s
  | ret _ s => s
  | intrinsic _ _ s => s
  | call _ _ s => s

/-- A whole source file. -/
structure Program where
  block : Block
  span : Span

/-! ### Functions

Functions may be declared in any block.  They are listed in the order of their
headers, an outer function before those inside it.
-/

/-- A function definition. -/
structure Func where
  name : Ident
  body : Block
  span : Span

mutual

/-- The functions of a statement, put in front of `done`, the last one first. -/
def Stmt.functionsOnto (done : List Func) : Stmt → List Func
  | .func name body span => body.functionsOnto (⟨name, body, span⟩ :: done)
  | .ifThen _ body _ => body.functionsOnto done
  | .ifElse _ body _ elseBody _ => elseBody.functionsOnto (body.functionsOnto done)
  | .whileLoop _ body _ => body.functionsOnto done
  | .assign .. | .compound .. | .ret .. | .intrinsic .. | .call .. => done

def Block.functionsOnto (done : List Func) : Block → List Func
  | ⟨_, stmts, _⟩ => stmtsFunctionsOnto done stmts

def stmtsFunctionsOnto (done : List Func) : List Stmt → List Func
  | [] => done
  | s :: rest => stmtsFunctionsOnto (s.functionsOnto done) rest

end

/-- The functions of a program, outer ones first, in the order of the text. -/
def Program.functions (p : Program) : List Func := (p.block.functionsOnto []).reverse

/-! ### Names

The names of a program in the order in which a reader of the tree meets them: of a
block first those it declares, of an assignment first the target, of a loop first
the condition, of a function or a call first its name.
-/

/-- The names in an expression, put in front of `done`, the last one first. -/
def Expr.identsOnto (done : List Ident) : Expr → List Ident
  | binary _ left right _ => right.identsOnto (left.identsOnto done)
  | unary _ operand _ => operand.identsOnto done
  | ident id => id :: done
  | integer .. | boolean .. | register .. => done

/-- The names in a list of arguments, put in front of `done`, the last one first. -/
def Arguments.identsOnto (done : List Ident) (a : Arguments) : List Ident :=
  a.args.foldl Expr.identsOnto done

mutual

/-- The names in a statement, put in front of `done`, the last one first. -/
def Stmt.identsOnto (done : List Ident) : Stmt → List Ident
  | .assign target value _ => value.identsOnto (target.identsOnto done)
  | .compound _ target value _ => value.identsOnto (target.identsOnto done)
  | .ifThen cond body _ => body.identsOnto (cond.identsOnto done)
  | .ifElse cond body _ elseBody _ => elseBody.identsOnto (body.identsOnto (cond.identsOnto done))
  | .whileLoop cond body _ => body.identsOnto (cond.identsOnto done)
  | .func name body _ => body.identsOnto (name :: done)
  | .ret (some value) _ => value.identsOnto done
  | .ret none _ => done
  | .intrinsic _ args _ => args.identsOnto done
  | .call name args _ => args.identsOnto (name :: done)

def Block.identsOnto (done : List Ident) : Block → List Ident
  | ⟨decls, stmts, _⟩ => stmtsIdentsOnto (decls.foldl (fun ids d => d.name :: ids) done) stmts

def stmtsIdentsOnto (done : List Ident) : List Stmt → List Ident
  | [] => done
  | s :: rest => stmtsIdentsOnto (s.identsOnto done) rest

end

/-- Every name in a program, as often as it is written. -/
def Program.idents (p : Program) : List Ident := (p.block.identsOnto []).reverse

end StackCode
