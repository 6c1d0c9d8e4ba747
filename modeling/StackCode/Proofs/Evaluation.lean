/-
What a program means, read off its tree.

Expressions are evaluated by `Expr.eval` from left to right, all operands of an operator
before the operator, and have no effects.  Statements change a store (`Stmt.exec`).  A
`return` leaves the function it stands in, or the program; everything between it and the end
of that body is passed over, which is what `Flow` is for.  A function statement does nothing
where it stands; its body runs when a name that resolves to it is called.

What the operators and intrinsics do to values is not fixed here.  It is the
`Interpretation` that machine code is run with too, so whatever is said for all of them
holds for any machine.

Loops and calls may go on forever, so evaluation gets a budget of nested steps and has no
answer when the budget is used up.  A program evaluates to a store if some budget is large
enough (`Program.Evaluates`).  Which one does not matter: a larger budget keeps every answer
(`exec_succ`), so there is one store at most.
-/
import StackCode.Proofs.Machine
import StackCode.Symbol

namespace StackCode

/-! ### Names

Names mean what the `Resolutions` say, and nothing else is taken from analysis.  A symbol of
a variable is kept in its slot and an alias in its register; a function has no value.
-/

/-- Where a symbol's value is kept. -/
def Symbol.cell? (s : Symbol) : Option Cell :=
  match s.kind with
  | .var => s.slot?.map .slot
  | .registerAlias r => some (.register r)
  | .func => none

/-- Where the value of an expression is kept, if it is kept anywhere. -/
def Resolutions.cell? (r : Resolutions) : Expr → Option Cell
  | .register reg _ => some (.register reg)
  | .ident id => (r.resolveSymbol? id).bind Symbol.cell?
  | .binary .. | .unary .. | .integer .. | .boolean .. => none

/-- The register that an argument names. -/
def Resolutions.register? (r : Resolutions) (e : Expr) : Option Register :=
  match r.cell? e with
  | some (.register reg) => some reg
  | some (.slot _) | none => none

/-- The function that a name calls: the one whose symbol the name resolves to. -/
def Program.callee? (p : Program) (r : Resolutions) (name : Ident) : Option Func :=
  (r.resolve? name).bind fun decl => p.functions.find? fun f => r.declaration? f.name = some decl

/-! ### Expressions and statements

These are the rules that a reader of the language would write down.  A target is a `Cell`,
and a condition is false or it is not, which is all that branches and loops ask.  Scopes
play no role: a variable is there for the whole run, and a block that is left leaves its
variables as they are.
-/

/-- How a statement ends. -/
inductive Flow where
  /-- With the statement after it. -/
  | next
  /-- By leaving the body it stands in. -/
  | left
deriving DecidableEq, Repr

section

variable {V W : Type} (I : Interpretation V W) (p : Program) (r : Resolutions)

/-- The value of an expression. -/
def Expr.eval (s : Store V W) : Expr → Option V
  | .integer n _ => some (I.integer n)
  | .boolean b _ => some (I.boolean b)
  | e@(.register ..) | e@(.ident _) => (r.cell? e).map s.read
  | .unary op operand _ => do
    let v ← operand.eval s
    I.unary op v
  | .binary op left right _ => do
    let v ← left.eval s
    let w ← right.eval s
    I.binary op v w

/-- What an intrinsic does. -/
def Intrinsic.perform (s : Store V W) : Intrinsic → List Expr → Option (Store V W)
  | .cas, target :: expected :: new :: _ => do
    let reg ← r.register? target
    let v ← expected.eval I r s
    let w ← new.eval I r s
    I.cas reg v w s
  | .cpy, dst :: src :: len :: _ => do
    let u ← dst.eval I r s
    let v ← src.eval I r s
    let w ← len.eval I r s
    I.cpy u v w s
  | .dbg, value :: _ => do
    let v ← value.eval I r s
    I.dbg v s
  | .int, value :: _ => do
    let v ← value.eval I r s
    I.int v s
  | .xchg, left :: right :: _ => do
    let a ← r.register? left
    let b ← r.register? right
    I.xchg a b s
  | _, _ => none

mutual

/-- Run a statement. -/
def Stmt.exec : (budget : Nat) → Stmt → Store V W → Option (Flow × Store V W)
  | 0, _, _ => none
  | _ + 1, .assign target value _, s => do
    let v ← value.eval I r s
    let cell ← r.cell? target
    return (.next, s.write cell v)
  | _ + 1, .compound op target value _, s => do
    let cell ← r.cell? target
    let v ← value.eval I r s
    let w ← I.binary op (s.read cell) v
    return (.next, s.write cell w)
  | budget + 1, .ifThen cond body _, s => do
    let v ← cond.eval I r s
    if I.isFalse v then return (.next, s) else stmtsExec budget body.stmts s
  | budget + 1, .ifElse cond body _ elseBody _, s => do
    let v ← cond.eval I r s
    if I.isFalse v then stmtsExec budget elseBody.stmts s else stmtsExec budget body.stmts s
  | budget + 1, .whileLoop cond body span, s => do
    let v ← cond.eval I r s
    if I.isFalse v then return (.next, s)
    else
      match ← stmtsExec budget body.stmts s with
      | (.left, t) => return (.left, t)
      | (.next, t) => (Stmt.whileLoop cond body span).exec budget t
  | _ + 1, .func .., s => some (.next, s)
  | _ + 1, .ret none _, s => some (.left, s)
  | _ + 1, .ret (some value) _, s => do
    let v ← value.eval I r s
    return (.left, s.write (.register .r0) v)
  | _ + 1, .intrinsic i args _, s => do
    let t ← i.perform I r s args.args
    return (.next, t)
  | budget + 1, .call name _ _, s => do
    let f ← p.callee? r name
    let (_, t) ← stmtsExec budget f.body.stmts s
    return (.next, t)

/-- Run statements in order, up to one that leaves. -/
def stmtsExec : (budget : Nat) → List Stmt → Store V W → Option (Flow × Store V W)
  | 0, _, _ => none
  | _ + 1, [], s => some (.next, s)
  | budget + 1, st :: rest, s => do
    match ← st.exec budget s with
    | (.left, t) => return (.left, t)
    | (.next, t) => stmtsExec budget rest t

end

/-- The program runs to its end, or to a `return` at its top, and leaves a store behind. -/
def Program.Evaluates (s t : Store V W) : Prop :=
  ∃ budget flow, stmtsExec I p r budget p.block.stmts s = some (flow, t)

/-! ### Budgets

That more budget keeps every answer is shown for one step more, for statements and lists of
statements at once, by induction on the budget.  The forms without statements inside them do
not look at it.
-/

variable {I p r}

/-- One more step in the budget keeps every answer. -/
theorem exec_succ (budget : Nat) :
    (∀ {st : Stmt} {s : Store V W} {result : Flow × Store V W},
      st.exec I p r budget s = some result → st.exec I p r (budget + 1) s = some result) ∧
    (∀ {sts : List Stmt} {s : Store V W} {result : Flow × Store V W},
      stmtsExec I p r budget sts s = some result →
        stmtsExec I p r (budget + 1) sts s = some result) := by
  induction budget with
  | zero => exact ⟨fun h => by simp [Stmt.exec] at h, fun h => by simp [stmtsExec] at h⟩
  | succ budget ih =>
      obtain ⟨ihStmt, ihStmts⟩ := ih
      refine ⟨?_, ?_⟩
      · intro st s result h
        -- Only the forms that run other statements spend the budget.
        cases st with
        | ifThen cond body span =>
            rw [Stmt.exec] at h ⊢
            obtain ⟨v, hv, h⟩ := Option.bind_eq_some_iff.mp h
            refine Option.bind_eq_some_iff.mpr ⟨v, hv, ?_⟩
            split
            · rename_i hfalse
              rwa [if_pos hfalse] at h
            · rename_i htrue
              rw [if_neg htrue] at h
              exact ihStmts h
        | ifElse cond body ifSpan elseBody span =>
            rw [Stmt.exec] at h ⊢
            obtain ⟨v, hv, h⟩ := Option.bind_eq_some_iff.mp h
            refine Option.bind_eq_some_iff.mpr ⟨v, hv, ?_⟩
            split
            · rename_i hfalse
              rw [if_pos hfalse] at h
              exact ihStmts h
            · rename_i htrue
              rw [if_neg htrue] at h
              exact ihStmts h
        | whileLoop cond body span =>
            rw [Stmt.exec] at h ⊢
            obtain ⟨v, hv, h⟩ := Option.bind_eq_some_iff.mp h
            refine Option.bind_eq_some_iff.mpr ⟨v, hv, ?_⟩
            split
            · rename_i hfalse
              rwa [if_pos hfalse] at h
            · rename_i htrue
              rw [if_neg htrue] at h
              obtain ⟨⟨flow, t⟩, hbody, h⟩ := Option.bind_eq_some_iff.mp h
              refine Option.bind_eq_some_iff.mpr ⟨⟨flow, t⟩, ihStmts hbody, ?_⟩
              cases flow with
              | left => exact h
              | next => exact ihStmt h
        | call name args span =>
            rw [Stmt.exec] at h ⊢
            obtain ⟨f, hf, h⟩ := Option.bind_eq_some_iff.mp h
            obtain ⟨result', hbody, h⟩ := Option.bind_eq_some_iff.mp h
            exact Option.bind_eq_some_iff.mpr ⟨f, hf,
              Option.bind_eq_some_iff.mpr ⟨result', ihStmts hbody, h⟩⟩
        | ret value? span => cases value? <;> (rw [Stmt.exec] at h ⊢; exact h)
        | assign | compound | func | intrinsic =>
            rw [Stmt.exec] at h ⊢
            exact h
      · intro sts s result h
        cases sts with
        | nil =>
            rw [stmtsExec] at h ⊢
            exact h
        | cons st rest =>
            rw [stmtsExec] at h ⊢
            obtain ⟨⟨flow, t⟩, hst, h⟩ := Option.bind_eq_some_iff.mp h
            refine Option.bind_eq_some_iff.mpr ⟨⟨flow, t⟩, ihStmt hst, ?_⟩
            cases flow with
            | left => exact h
            | next => exact ihStmts h

/-- A larger budget keeps every answer. -/
theorem stmtsExec_of_le {sts : List Stmt} {s : Store V W} {result : Flow × Store V W}
    {budget budget' : Nat} (hle : budget ≤ budget')
    (h : stmtsExec I p r budget sts s = some result) :
    stmtsExec I p r budget' sts s = some result := by
  induction hle with
  | refl => exact h
  | step _ ih => exact (exec_succ _).2 ih

/-- **A program evaluates to one store at most.** -/
theorem Program.Evaluates.unique {s t t' : Store V W} (h : p.Evaluates I r s t)
    (h' : p.Evaluates I r s t') : t = t' := by
  obtain ⟨budget, flow, hrun⟩ := h
  obtain ⟨budget', flow', hrun'⟩ := h'
  have hmax := stmtsExec_of_le (Nat.le_max_left budget budget') hrun
  rw [stmtsExec_of_le (Nat.le_max_right budget budget') hrun'] at hmax
  exact (Prod.mk.inj (Option.some.inj hmax)).2.symm

end

end StackCode
