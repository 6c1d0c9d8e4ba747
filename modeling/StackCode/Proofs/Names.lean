/-
The names in a tree, by what they are there for.

A name is written to refer to something, to give a function its name, or to
declare something in a block.  `refs`, `functions` and `declared` list the three
kinds for every part of a tree, in the order of the text.  A variable that is
declared with an initial value has its name in two of the lists, because the one
token both declares it and is the target of an assignment; no other name has.

`WellNamed` collects what later phases rely on when they record names by their
spans alone.
-/
import StackCode.Program

namespace StackCode

/-! ### References

What a name refers to is recorded under its span, so these are the names whose spans must be
told apart.  The name of a function is not among them where the function is defined; there
it is in `functions`.
-/

/-- The names that an expression refers to. -/
def Expr.refs : Expr → List Ident
  | binary _ left right _ => left.refs ++ right.refs
  | unary _ operand _ => operand.refs
  | ident id => [id]
  | integer .. | boolean .. | register .. => []

/-- The names that arguments refer to. -/
def exprsRefs (args : List Expr) : List Ident := args.flatMap Expr.refs

mutual

/-- The names that a statement refers to. -/
def Stmt.refs : Stmt → List Ident
  | .assign target value _ => target.refs ++ value.refs
  | .compound _ target value _ => target.refs ++ value.refs
  | .ifThen cond body _ => cond.refs ++ body.refs
  | .ifElse cond body _ elseBody _ => cond.refs ++ (body.refs ++ elseBody.refs)
  | .whileLoop cond body _ => cond.refs ++ body.refs
  | .func _ body _ => body.refs
  | .ret none _ => []
  | .ret (some value) _ => value.refs
  | .intrinsic _ args _ => exprsRefs args.args
  | .call name args _ => name :: exprsRefs args.args

def Block.refs : Block → List Ident
  | ⟨_, body, _⟩ => stmtsRefs body

def stmtsRefs : List Stmt → List Ident
  | [] => []
  | s :: rest => s.refs ++ stmtsRefs rest

end

/-! ### Functions

`Program.functions` collects functions onto a list while it walks over the tree.
`Block.functions` is the list itself, by structural recursion, and `functions_eq` says that
it is the same.
-/

mutual

/-- The functions of a statement, outer ones first. -/
def Stmt.functions : Stmt → List Func
  | .func name body span => ⟨name, body, span⟩ :: body.functions
  | .ifThen _ body _ => body.functions
  | .ifElse _ body _ elseBody _ => body.functions ++ elseBody.functions
  | .whileLoop _ body _ => body.functions
  | .assign .. | .compound .. | .ret .. | .intrinsic .. | .call .. => []

def Block.functions : Block → List Func
  | ⟨_, body, _⟩ => stmtsFunctions body

def stmtsFunctions : List Stmt → List Func
  | [] => []
  | s :: rest => s.functions ++ stmtsFunctions rest

end

mutual

theorem Stmt.functionsOnto_eq (done : List Func) :
    ∀ s : Stmt, s.functionsOnto done = s.functions.reverse ++ done
  | .func name body span => by
      rw [Stmt.functionsOnto, Stmt.functions, Block.functionsOnto_eq]
      simp
  | .ifThen _ body _ => by
      rw [Stmt.functionsOnto, Stmt.functions, Block.functionsOnto_eq]
  | .ifElse _ body _ elseBody _ => by
      rw [Stmt.functionsOnto, Stmt.functions, Block.functionsOnto_eq, Block.functionsOnto_eq]
      simp
  | .whileLoop _ body _ => by
      rw [Stmt.functionsOnto, Stmt.functions, Block.functionsOnto_eq]
  | .assign .. | .compound .. | .ret .. | .intrinsic .. | .call .. => by
      simp [Stmt.functionsOnto, Stmt.functions]

theorem Block.functionsOnto_eq (done : List Func) :
    ∀ b : Block, b.functionsOnto done = b.functions.reverse ++ done
  | ⟨_, body, _⟩ => by
      rw [Block.functionsOnto, Block.functions, stmtsFunctionsOnto_eq]

theorem stmtsFunctionsOnto_eq (done : List Func) :
    ∀ body : List Stmt, stmtsFunctionsOnto done body = (stmtsFunctions body).reverse ++ done
  | [] => by simp [stmtsFunctionsOnto, stmtsFunctions]
  | s :: rest => by
      rw [stmtsFunctionsOnto, stmtsFunctions, stmtsFunctionsOnto_eq, Stmt.functionsOnto_eq]
      simp

end

/-- The functions of a program are the `Block.functions` of its block. -/
theorem Program.functions_eq (p : Program) : p.functions = p.block.functions := by
  simp [Program.functions, Block.functionsOnto_eq]

/-! ### Declarations

`declared` has what the blocks inside a statement declare, and not what the statement
declares on the block around it.  That is on record there, in the list of the block.
-/

mutual

/-- What the blocks inside a statement declare. -/
def Stmt.declared : Stmt → List Decl
  | .ifThen _ body _ => body.declared
  | .ifElse _ body _ elseBody _ => body.declared ++ elseBody.declared
  | .whileLoop _ body _ => body.declared
  | .func _ body _ => body.declared
  | .assign .. | .compound .. | .ret .. | .intrinsic .. | .call .. => []

/-- What a block and the blocks inside it declare. -/
def Block.declared : Block → List Decl
  | ⟨decls, body, _⟩ => decls ++ stmtsDeclared body

def stmtsDeclared : List Stmt → List Decl
  | [] => []
  | s :: rest => s.declared ++ stmtsDeclared rest

end

/-! ### Names that come to stand for something

A name comes to stand for something where a block declares it, and also where a plain
assignment writes to it, unless the block of the assignment declares it.
-/

/-- The name that a plain assignment writes to, unless it is among those that are declared. -/
def Expr.undeclared (own : List Decl) : Expr → List Ident
  | ident id => if own.any (·.name.name == id.name) then [] else [id]
  | binary .. | unary .. | integer .. | boolean .. | register .. => []

mutual

/-- The names in a statement that may come to stand for something, where `own` is declared. -/
def Stmt.binders (own : List Decl) : Stmt → List Ident
  | .assign target _ _ => target.undeclared own
  | .ifThen _ body _ => body.binders
  | .ifElse _ body _ elseBody _ => body.binders ++ elseBody.binders
  | .whileLoop _ body _ => body.binders
  | .func _ body _ => body.binders
  | .compound .. | .ret .. | .intrinsic .. | .call .. => []

/-- The names in a block that may come to stand for something. -/
def Block.binders : Block → List Ident
  | ⟨decls, body, _⟩ => decls.map (·.name) ++ stmtsBinders decls body

def stmtsBinders (own : List Decl) : List Stmt → List Ident
  | [] => []
  | s :: rest => s.binders own ++ stmtsBinders own rest

end

mutual

theorem Stmt.declared_sublist_binders (own : List Decl) :
    ∀ s : Stmt, (s.declared.map (·.name)).Sublist (s.binders own)
  | .ifThen _ body _ => by
      rw [Stmt.declared, Stmt.binders]
      exact body.declared_sublist_binders
  | .ifElse _ body _ elseBody _ => by
      rw [Stmt.declared, Stmt.binders, List.map_append]
      exact body.declared_sublist_binders.append elseBody.declared_sublist_binders
  | .whileLoop _ body _ => by
      rw [Stmt.declared, Stmt.binders]
      exact body.declared_sublist_binders
  | .func _ body _ => by
      rw [Stmt.declared, Stmt.binders]
      exact body.declared_sublist_binders
  | .assign .. | .compound .. | .ret .. | .intrinsic .. | .call .. => by
      rw [Stmt.declared]
      exact List.nil_sublist _

/-- What a block declares is among its `binders`, in the same order. -/
theorem Block.declared_sublist_binders :
    ∀ b : Block, (b.declared.map (·.name)).Sublist b.binders
  | ⟨decls, body, _⟩ => by
      rw [Block.declared, Block.binders, List.map_append]
      exact (List.Sublist.refl _).append (stmtsDeclared_sublist_binders decls body)

theorem stmtsDeclared_sublist_binders (own : List Decl) :
    ∀ body : List Stmt, ((stmtsDeclared body).map (·.name)).Sublist (stmtsBinders own body)
  | [] => by
      rw [stmtsDeclared]
      exact List.nil_sublist _
  | s :: rest => by
      rw [stmtsDeclared, stmtsBinders, List.map_append]
      exact (s.declared_sublist_binders own).append (stmtsDeclared_sublist_binders own rest)

end

/-- The name of a declared function. -/
def Decl.func? (d : Decl) : Option Ident :=
  match d.kind with
  | .func => some d.name
  | .var | .registerAlias _ => none

/-- The name of a function statement. -/
def Stmt.func? : Stmt → Option Ident
  | .func name _ _ => some name
  | _ => none

mutual

/-- Every block inside a statement declares just the functions among its own statements. -/
def Stmt.FuncsDeclared : Stmt → Prop
  | .ifThen _ body _ => body.FuncsDeclared
  | .ifElse _ body _ elseBody _ => body.FuncsDeclared ∧ elseBody.FuncsDeclared
  | .whileLoop _ body _ => body.FuncsDeclared
  | .func _ body _ => body.FuncsDeclared
  | .assign .. | .compound .. | .ret .. | .intrinsic .. | .call .. => True

/-- A block and every block inside it declares just the functions among its own statements. -/
def Block.FuncsDeclared : Block → Prop
  | ⟨decls, body, _⟩ =>
    decls.filterMap Decl.func? = body.filterMap Stmt.func? ∧ stmtsFuncsDeclared body

def stmtsFuncsDeclared : List Stmt → Prop
  | [] => True
  | s :: rest => s.FuncsDeclared ∧ stmtsFuncsDeclared rest

end

/-- The names of a list of functions. -/
def funcNames (fs : List Func) : List Ident := fs.map (·.name)

@[simp] theorem funcNames_nil : funcNames [] = [] := rfl

@[simp] theorem funcNames_cons (f : Func) (fs : List Func) :
    funcNames (f :: fs) = f.name :: funcNames fs := rfl

@[simp] theorem funcNames_append (fs gs : List Func) :
    funcNames (fs ++ gs) = funcNames fs ++ funcNames gs := by
  simp [funcNames]

mutual

theorem Stmt.mem_funcNames {id : Ident} : ∀ {s : Stmt}, s.FuncsDeclared →
    (id ∈ funcNames s.functions ↔ s.func? = some id ∨ id ∈ s.declared.filterMap Decl.func?)
  | .func name body span, h => by
      rw [Stmt.FuncsDeclared] at h
      rw [Stmt.functions, Stmt.declared, funcNames_cons, List.mem_cons, Block.mem_funcNames h,
        Stmt.func?, Option.some.injEq]
      exact or_congr_left eq_comm
  | .ifThen _ body _, h => by
      rw [Stmt.FuncsDeclared] at h
      simp [Stmt.functions, Stmt.declared, Stmt.func?, ← Block.mem_funcNames h]
  | .ifElse _ body _ elseBody _, h => by
      rw [Stmt.FuncsDeclared] at h
      simp [Stmt.functions, Stmt.declared, Stmt.func?, List.filterMap_append,
        Block.mem_funcNames h.1, Block.mem_funcNames h.2]
  | .whileLoop _ body _, h => by
      rw [Stmt.FuncsDeclared] at h
      simp [Stmt.functions, Stmt.declared, Stmt.func?, ← Block.mem_funcNames h]
  | .assign .., _ | .compound .., _ | .ret .., _ | .intrinsic .., _ | .call .., _ => by
      simp [Stmt.functions, Stmt.declared, Stmt.func?]

/-- The functions that the blocks declare (`Decl.func?`) are those that are defined in them. -/
theorem Block.mem_funcNames {id : Ident} : ∀ {b : Block}, b.FuncsDeclared →
    (id ∈ funcNames b.functions ↔ id ∈ b.declared.filterMap Decl.func?)
  | ⟨decls, body, _⟩, h => by
      rw [Block.FuncsDeclared] at h
      rw [Block.functions, Block.declared, stmts_mem_funcNames h.2, List.filterMap_append,
        List.mem_append, h.1]

theorem stmts_mem_funcNames {id : Ident} : ∀ {body : List Stmt}, stmtsFuncsDeclared body →
    (id ∈ funcNames (stmtsFunctions body) ↔
      id ∈ body.filterMap Stmt.func? ∨ id ∈ (stmtsDeclared body).filterMap Decl.func?)
  | [], _ => by simp [stmtsFunctions, stmtsDeclared]
  | s :: rest, h => by
      rw [stmtsFuncsDeclared] at h
      rw [stmtsFunctions, stmtsDeclared, funcNames_append, List.mem_append, Stmt.mem_funcNames h.1,
        stmts_mem_funcNames h.2, List.filterMap_append, List.mem_append, List.filterMap_cons]
      cases s.func? with
      | none => simp [or_left_comm]
      | some name => simp [or_assoc, or_left_comm, eq_comm]

end

/--
Names can be told apart by their spans: no two references or function names share
one, no two declarations share one, not even with a name that an assignment may
introduce, and the functions that are declared are those that are defined.
-/
structure Program.WellNamed (p : Program) : Prop where
  /-- References and function names stand at different places. -/
  refs : ((p.block.refs ++ funcNames p.block.functions).map (·.span)).Nodup
  /-- Declarations stand at different places. -/
  decls : (p.block.declared.map (·.name.span)).Nodup
  /-- So do all names that may come to stand for something. -/
  binders : (p.block.binders.map (·.span)).Nodup
  /-- Every block declares just the functions among its statements. -/
  funcs : p.block.FuncsDeclared

end StackCode
