/-
How a property goes along with a walk over a program.

Analysis and code generation both walk over the tree of a program, and most of what is
proved of them is proved along the walk: it holds of the steps for simple statements, and it
goes from the steps for the blocks in a statement to the step for the statement.  A `Claim`
is what is to be proved, for each part of a program a property of the step for that part.
`Rules` is what has to be shown for it.  Then the claim holds of every part of every program
(`Rules.stmt`, `Rules.blocks`, `Rules.stmts`).

A rule is about a statement and the step that is taken for it, written out as far as to the
blocks inside.  So how `stmt`, `block` and `stmts` go through a tree is used here, and no
other proof has to unfold them.
-/
import StackCode.Analysis
import StackCode.Codegen

namespace StackCode

/-! ### The walk of analysis

Conditions and the statements without blocks are steps of their own.  What is claimed of a
block is claimed inside `inScope`, with the declarations in front.
-/

namespace Analysis

/-- What is claimed of the steps for the parts of a program. -/
structure Claim where
  stmt : Stmt → Analyzing Unit → Prop
  block : Block → Analyzing Unit → Prop
  stmts : List Stmt → Analyzing Unit → Prop

/-- The claim holds of simple statements, and goes from parts to the whole. -/
structure Claim.Rules (c : Claim) : Prop where
  assign : ∀ left value span, c.stmt (.assign left value span) (Analysis.assign left value)
  compound : ∀ op left value span,
    c.stmt (.compound op left value span) (Analysis.compound op left value span)
  ifThen : ∀ cond body span, c.block body (Analysis.block body) →
    c.stmt (.ifThen cond body span) (do
      checkExpr .boolean cond "condition"
      Analysis.block body)
  ifElse : ∀ cond body ifSpan elseBody span, c.block body (Analysis.block body) →
    c.block elseBody (Analysis.block elseBody) →
    c.stmt (.ifElse cond body ifSpan elseBody span) (do
      checkExpr .boolean cond "condition"
      Analysis.block body
      Analysis.block elseBody)
  whileLoop : ∀ cond body span, c.block body (Analysis.block body) →
    c.stmt (.whileLoop cond body span) (do
      checkExpr .boolean cond "condition"
      Analysis.block body)
  func : ∀ name body span, c.block body (Analysis.block body) →
    c.stmt (.func name body span) (Analysis.block body)
  ret : ∀ span, c.stmt (.ret none span) (pure ())
  retValue : ∀ value span,
    c.stmt (.ret (some value) span) (checkExpr .integer value "return value")
  intrinsic : ∀ i args span, c.stmt (.intrinsic i args span) (Analysis.intrinsic i args.args span)
  call : ∀ name args span, c.stmt (.call name args span) (Analysis.call name args.args span)
  block : ∀ decls body span, c.stmts body (Analysis.stmts body) →
    c.block ⟨decls, body, span⟩ (inScope do
      declareAll decls
      Analysis.stmts body)
  nil : c.stmts [] (pure ())
  cons : ∀ s rest, c.stmt s (Analysis.stmt s) → c.stmts rest (Analysis.stmts rest) →
    c.stmts (s :: rest) (do
      Analysis.stmt s
      Analysis.stmts rest)

namespace Claim.Rules

variable {c : Claim}

mutual

theorem stmt (h : c.Rules) : ∀ s, c.stmt s (Analysis.stmt s)
  | .assign left value span => by
      rw [Analysis.stmt]
      exact h.assign left value span
  | .compound op left value span => by
      rw [Analysis.stmt]
      exact h.compound op left value span
  | .ifThen cond body span => by
      rw [Analysis.stmt]
      exact h.ifThen cond body span (h.blocks body)
  | .ifElse cond body ifSpan elseBody span => by
      rw [Analysis.stmt]
      exact h.ifElse cond body ifSpan elseBody span (h.blocks body) (h.blocks elseBody)
  | .whileLoop cond body span => by
      rw [Analysis.stmt]
      exact h.whileLoop cond body span (h.blocks body)
  | .func name body span => by
      rw [Analysis.stmt]
      exact h.func name body span (h.blocks body)
  | .ret none span => by
      rw [Analysis.stmt]
      exact h.ret span
  | .ret (some value) span => by
      rw [Analysis.stmt]
      exact h.retValue value span
  | .intrinsic i args span => by
      rw [Analysis.stmt]
      exact h.intrinsic i args span
  | .call name args span => by
      rw [Analysis.stmt]
      exact h.call name args span

theorem blocks (h : c.Rules) : ∀ b, c.block b (Analysis.block b)
  | ⟨decls, body, span⟩ => by
      rw [Analysis.block]
      exact h.block decls body span (h.stmts body)

theorem stmts (h : c.Rules) : ∀ body, c.stmts body (Analysis.stmts body)
  | [] => by
      rw [Analysis.stmts]
      exact h.nil
  | s :: rest => by
      rw [Analysis.stmts]
      exact h.cons s rest (h.stmt s) (h.stmts rest)

end

end Claim.Rules

end Analysis

/-! ### The walk of code generation

Here each statement sets its line first, and `line` is the one rule for that; the others are
about the `code` behind it.  A function inside a block adds nothing to the section of the
block.
-/

namespace Codegen

/-- What is claimed of the steps for the parts of a program. -/
structure Claim where
  /-- Of the step for a statement once its line is set. -/
  code : Stmt → Generating Unit → Prop
  stmt : Stmt → Generating Unit → Prop
  block : Block → Generating Unit → Prop
  stmts : List Stmt → Generating Unit → Prop

/-- The claim holds of simple statements, and goes from parts to the whole. -/
structure Claim.Rules (g : CodeContext) (c : Claim) : Prop where
  assign : ∀ target value span, c.code (.assign target value span) (Codegen.assign g target value)
  compound : ∀ op target value span,
    c.code (.compound op target value span) (Codegen.compound g op target value span)
  ifThen : ∀ cond body span, c.block body (Codegen.block g body) →
    c.code (.ifThen cond body span) (Codegen.ifThen (expr g cond) (Codegen.block g body) span)
  ifElse : ∀ cond body ifSpan elseBody span, c.block body (Codegen.block g body) →
    c.block elseBody (Codegen.block g elseBody) →
    c.code (.ifElse cond body ifSpan elseBody span)
      (Codegen.ifElse (expr g cond) (Codegen.block g body) (Codegen.block g elseBody)
        elseBody.span.line span)
  whileLoop : ∀ cond body span, c.block body (Codegen.block g body) →
    c.code (.whileLoop cond body span)
      (Codegen.whileLoop (expr g cond) (Codegen.block g body) span)
  func : ∀ name body span, c.code (.func name body span) (pure ())
  ret : ∀ value span, c.code (.ret value span) (Codegen.ret g value)
  intrinsic : ∀ i args span, c.code (.intrinsic i args span) (Codegen.intrinsic g i args.args span)
  call : ∀ name args span, c.code (.call name args span) (Codegen.call g name)
  line : ∀ s x, c.code s x → c.stmt s (do
    emit (·.setLine s.span.line)
    x)
  block : ∀ decls body span, c.stmts body (Codegen.stmts g body) →
    c.block ⟨decls, body, span⟩ (Codegen.stmts g body)
  nil : c.stmts [] (pure ())
  cons : ∀ s rest, c.stmt s (Codegen.stmt g s) → c.stmts rest (Codegen.stmts g rest) →
    c.stmts (s :: rest) (do
      Codegen.stmt g s
      Codegen.stmts g rest)

namespace Claim.Rules

variable {g : CodeContext} {c : Claim}

mutual

theorem stmt (h : c.Rules g) : ∀ s, c.stmt s (Codegen.stmt g s)
  | .assign target value span => by
      rw [Codegen.stmt]
      exact h.line _ _ (h.assign target value span)
  | .compound op target value span => by
      rw [Codegen.stmt]
      exact h.line _ _ (h.compound op target value span)
  | .ifThen cond body span => by
      rw [Codegen.stmt]
      exact h.line _ _ (h.ifThen cond body span (h.blocks body))
  | .ifElse cond body ifSpan elseBody span => by
      rw [Codegen.stmt]
      exact h.line _ _ (h.ifElse cond body ifSpan elseBody span (h.blocks body) (h.blocks elseBody))
  | .whileLoop cond body span => by
      rw [Codegen.stmt]
      exact h.line _ _ (h.whileLoop cond body span (h.blocks body))
  | .func name body span => by
      rw [Codegen.stmt]
      exact h.line _ _ (h.func name body span)
  | .ret value span => by
      rw [Codegen.stmt]
      exact h.line _ _ (h.ret value span)
  | .intrinsic i args span => by
      rw [Codegen.stmt]
      exact h.line _ _ (h.intrinsic i args span)
  | .call name args span => by
      rw [Codegen.stmt]
      exact h.line _ _ (h.call name args span)

theorem blocks (h : c.Rules g) : ∀ b, c.block b (Codegen.block g b)
  | ⟨decls, body, span⟩ => by
      rw [Codegen.block]
      exact h.block decls body span (h.stmts body)

theorem stmts (h : c.Rules g) : ∀ body, c.stmts body (Codegen.stmts g body)
  | [] => by
      rw [Codegen.stmts]
      exact h.nil
  | s :: rest => by
      rw [Codegen.stmts]
      exact h.cons s rest (h.stmt s) (h.stmts rest)

end

end Claim.Rules

end Codegen

end StackCode
