/-
How far a program can jump.

The size of the code of a tree is the sum of the sizes of its parts: `codeSize` adds
them up, and knows of no emitter, no placeholder and no distance.  A function inside a
block takes nothing there, its code is a section of its own.

Distances have two bytes and are sums of such sizes.  An `if` jumps over its body; with
an `else` it jumps over the body and the jump behind it, and that jump over the other
body; a `while` jumps back over all of itself.  The last of these is the longest that a
`while` makes, so its jump forward never has to be asked about.

Writing keeps step with the sizes: from an emitter of any size a step either writes as
many bytes as its size says, and then every jump in it fits, or it is stopped by a jump
that does not.  `Measures` says this of a step, and `measuring` follows it through a program.
-/
import StackCode.Proofs.Desugaring
import StackCode.Proofs.Generation

namespace StackCode

open Instruction Sequencing

/-! ### Sizes

Every instruction has an opcode of one byte.  Registers add one byte, slots, sections and
distances two, and numbers eight; `0` and `1` have opcodes of their own.  `JumpsTooFar`
looks at a statement alone and not at those inside it.
-/

/-- How many bytes it takes to push or to pop the value of a name. -/
def Resolutions.accessSize (r : Resolutions) (id : Ident) : Nat :=
  match (r.resolveSymbol? id).bind Symbol.register? with
  | some _ => 2
  | none => 3

/-- How many bytes it takes to push or to pop what an assignment writes to. -/
def Expr.accessSize (r : Resolutions) : Expr → Nat
  | .ident id => r.accessSize id
  | .register .. => 2
  | .binary .. | .unary .. | .integer .. | .boolean .. => 0

/-- How many bytes it takes to push the value of an expression. -/
def Expr.codeSize (r : Resolutions) : Expr → Nat
  | .integer n _ => if n = 0 ∨ n = 1 then 1 else 9
  | .boolean .. => 1
  | .register .. => 2
  | .ident id => r.accessSize id
  | .unary _ operand _ => operand.codeSize r + 1
  | .binary _ left right _ => left.codeSize r + right.codeSize r + 1

/-- What an argument adds to an intrinsic: a register is a byte of the instruction. -/
def Operand.codeSize (r : Resolutions) : Operand → Expr → Nat
  | .register, _ => 1
  | .integer, arg | .any, arg => arg.codeSize r

mutual

/-- How many bytes the code of a statement takes. -/
def Stmt.codeSize (r : Resolutions) : Stmt → Nat
  | .assign target value _ => value.codeSize r + target.accessSize r
  | .compound _ target value _ =>
    target.accessSize r + value.codeSize r + 1 + target.accessSize r
  | .ifThen cond body _ => cond.codeSize r + 3 + body.codeSize r
  | .ifElse cond body _ elseBody _ =>
    cond.codeSize r + 3 + body.codeSize r + 3 + elseBody.codeSize r
  | .whileLoop cond body _ => cond.codeSize r + 3 + body.codeSize r + 3
  | .func .. => 0
  | .ret none _ => 1
  | .ret (some value) _ => value.codeSize r + 2 + 1
  | .intrinsic i args _ => 1 + (i.operands.zipWith (Operand.codeSize r) args.args).foldr (· + ·) 0
  | .call .. => 3

/-- How many bytes the code of a block takes, the way out of its section apart. -/
def Block.codeSize (r : Resolutions) : Block → Nat
  | ⟨_, body, _⟩ => stmtsCodeSize r body

def stmtsCodeSize (r : Resolutions) : List Stmt → Nat
  | [] => 0
  | s :: rest => s.codeSize r + stmtsCodeSize r rest

end

/-- Does the statement itself jump farther than a jump can? -/
def Stmt.JumpsTooFar (r : Resolutions) : Stmt → Prop
  | .ifThen _ body _ => 65535 < body.codeSize r
  | .ifElse _ body _ elseBody _ => 65535 < body.codeSize r + 3 ∨ 65535 < elseBody.codeSize r
  | .whileLoop cond body span => 65535 < (Stmt.whileLoop cond body span).codeSize r
  | .assign .. | .compound .. | .func .. | .ret .. | .intrinsic .. | .call .. => False

instance (r : Resolutions) : ∀ s : Stmt, Decidable (s.JumpsTooFar r)
  | .ifThen .. | .whileLoop .. => inferInstanceAs (Decidable (_ < _))
  | .ifElse .. => inferInstanceAs (Decidable (_ ∨ _))
  | .assign .. | .compound .. | .func .. | .ret .. | .intrinsic .. | .call .. =>
    inferInstanceAs (Decidable False)

/-! ### Statements by section

A function takes no part in the jumps of the block around it.  `Stmt.parts` is all of a
statement and `Stmt.coded` the part of it in the same section, and together with the
functions inside the latter makes up the former (`mem_parts_iff`).  So a jump is too far
somewhere in the program just if one is in some section.
-/

mutual

/-- The statement with those inside it whose code stands in the same section. -/
def Stmt.coded : Stmt → List Stmt
  | .ifThen cond body span => .ifThen cond body span :: body.coded
  | .ifElse cond body ifSpan elseBody span =>
    .ifElse cond body ifSpan elseBody span :: (body.coded ++ elseBody.coded)
  | .whileLoop cond body span => .whileLoop cond body span :: body.coded
  | s => [s]

/-- The statements of a block, at any depth, whose code stands in its section. -/
def Block.coded : Block → List Stmt
  | ⟨_, body, _⟩ => stmtsCoded body

def stmtsCoded : List Stmt → List Stmt
  | [] => []
  | s :: rest => s.coded ++ stmtsCoded rest

end

/-- The statement is in the code of one of the functions. -/
def CodedIn (fs : List Func) (t : Stmt) : Prop := ∃ f ∈ fs, t ∈ f.body.coded

private theorem codedIn_append {fs gs : List Func} {t : Stmt} :
    CodedIn (fs ++ gs) t ↔ CodedIn fs t ∨ CodedIn gs t := by
  simp only [CodedIn, List.mem_append, or_and_right, exists_or]

private theorem codedIn_cons {f : Func} {fs : List Func} {t : Stmt} :
    CodedIn (f :: fs) t ↔ t ∈ f.body.coded ∨ CodedIn fs t := by
  simp only [CodedIn, List.mem_cons, or_and_right, exists_or, exists_eq_left]

mutual

theorem Stmt.mem_parts_iff {t : Stmt} :
    ∀ {s : Stmt}, t ∈ s.parts ↔ t ∈ s.coded ∨ CodedIn s.functions t
  | .ifThen cond body span => by
      rw [Stmt.parts, Stmt.coded, Stmt.functions, List.mem_cons, List.mem_cons,
        Block.mem_parts_iff, or_assoc]
  | .ifElse cond body ifSpan elseBody span => by
      rw [Stmt.parts, Stmt.coded, Stmt.functions, List.mem_cons, List.mem_cons, List.mem_append,
        List.mem_append, codedIn_append, Block.mem_parts_iff, Block.mem_parts_iff]
      tauto
  | .whileLoop cond body span => by
      rw [Stmt.parts, Stmt.coded, Stmt.functions, List.mem_cons, List.mem_cons,
        Block.mem_parts_iff, or_assoc]
  | .func name body span => by
      simp only [Stmt.parts, Stmt.coded, Stmt.functions, List.mem_cons, List.not_mem_nil, or_false,
        codedIn_cons, Block.mem_parts_iff]
  | .assign .. | .compound .. | .ret .. | .intrinsic .. | .call .. => by
      simp [Stmt.parts, Stmt.coded, Stmt.functions, CodedIn]

theorem Block.mem_parts_iff {t : Stmt} :
    ∀ {b : Block}, t ∈ b.parts ↔ t ∈ b.coded ∨ CodedIn b.functions t
  | ⟨_, body, _⟩ => by
      rw [Block.parts, Block.coded, Block.functions]
      exact stmts_mem_parts_iff

theorem stmts_mem_parts_iff {t : Stmt} : ∀ {body : List Stmt},
    t ∈ stmtsParts body ↔ t ∈ stmtsCoded body ∨ CodedIn (stmtsFunctions body) t
  | [] => by simp [stmtsParts, stmtsCoded, stmtsFunctions, CodedIn]
  | s :: rest => by
      rw [stmtsParts, stmtsCoded, stmtsFunctions, List.mem_append, List.mem_append,
        codedIn_append, Stmt.mem_parts_iff, stmts_mem_parts_iff]
      tauto

end

/-- **Every statement of a program has its code in just the sections of the program.** -/
theorem Program.mem_parts_iff {p : Program} {t : Stmt} :
    t ∈ p.block.parts ↔ ∃ b ∈ p.bodies, t ∈ b.2.coded := by
  rw [Block.mem_parts_iff, ← functions_eq, CodedIn]
  simp [Program.bodies]

/-! ### Steps that write as much as they should

`Outcome` is an iff in disguise: if a step finishes then its jumps fit, and if it is stopped
they do not, so whether it finishes is decided by `fits`.  This is what makes the limits
exact in both directions.  In `bind` the second step starts where the first one ends, which
is why `Measures` has the size at the start as an argument.
-/

theorem Emitter.Wrote.size {s t : Emitter} {c : Code} (h : Wrote s t c) :
    t.size = s.size + c.size := by
  rw [Emitter.size_eq, h, List.length_append, Code.length_bytes, ← Emitter.size_eq]

namespace Codegen

/-- How a step can end: what it writes fits and comes to `size`, or a jump in it is too long. -/
inductive Outcome {α : Type} (fits : Prop) (size : Nat) (answer : α → Prop) :
    EStateM.Result CodegenError Emitter α → Prop where
  | ok {a : α} {t : Emitter} (hfits : fits) (hsize : t.size = size) (ha : answer a) :
      Outcome fits size answer (.ok a t)
  | tooLong {span : Span} {t : Emitter} (hfits : ¬fits) :
      Outcome fits size answer (.error (jumpTooLong span) t)

/-- From `k` bytes on, the step writes `n` bytes, or is stopped by a jump that does not fit. -/
def Measures {α : Type} (k : Nat) (x : Generating α) (fits : Prop) (n : Nat)
    (answer : α → Prop) : Prop :=
  ∀ s, s.size = k → Outcome fits (k + n) answer (x s)

namespace Measures

variable {α β : Type} {k n n' : Nat} {x : Generating α} {fits fits' : Prop} {answer : α → Prop}

theorem bind {f : α → Generating β} {answer₂ : β → Prop} (hx : Measures k x fits n answer)
    (hf : ∀ a, answer a → Measures (k + n) (f a) fits' n' answer₂) :
    Measures k (x >>= f) (fits ∧ fits') (n + n') answer₂ := by
  intro s hs
  have hends := hx s hs
  show Outcome _ _ _ (EStateM.bind x f s)
  unfold EStateM.bind
  generalize x s = result at hends
  cases hends with
  | tooLong hfits => exact .tooLong fun h => hfits h.1
  | @ok a t hfits hsize ha =>
      have hends := hf a ha t hsize
      show Outcome _ _ _ (f a t)
      generalize f a t = result at hends
      cases hends with
      | tooLong hfits' => exact .tooLong fun h => hfits' h.2
      | ok hfits' hsize ha => exact .ok ⟨hfits, hfits'⟩ (hsize.trans (Nat.add_assoc ..)) ha

/-- The same, with the condition and the size said in other words. -/
theorem congr (hx : Measures k x fits n answer) (hfits : fits ↔ fits') (hn : n = n') :
    Measures k x fits' n' answer := by
  rw [← propext hfits, ← hn]
  exact hx

theorem pure (k : Nat) {a : α} (ha : answer a) : Measures k (pure a) True 0 answer :=
  fun _ hs => .ok trivial hs ha

/-- What is written without a choice is written. -/
theorem emit (k n : Nat) {f : Emitter → Emitter} {c : Code} (h : ∀ s, Emitter.Wrote s (f s) c)
    (hc : c.size = n) : Measures k (emit f) True n fun _ => True := by
  intro s hs
  exact .ok trivial (by rw [(h s).size, hs, hc]) trivial

theorem setLine (k line : Nat) :
    Measures k (Codegen.emit (·.setLine line)) True 0 fun _ => True :=
  fun _ hs => .ok trivial hs trivial

theorem op (k : Nat) {op : Opcode} (hop : op.operandSize = 0) :
    Measures k (Codegen.emit (·.op op)) True 1 fun _ => True := by
  refine emit k 1 (fun s => s.op_wrote hop) ?_
  simp [hop]

theorem ofExcept (k : Nat) {x : Except CodegenError α} (h : ∃ a, x = .ok a) :
    Measures k (ofExcept x) True 0 fun a => x = .ok a := by
  obtain ⟨a, rfl⟩ := h
  exact .pure k rfl

theorem opcodeOr (k : Nat) {op? : Option Opcode} (h : op?.isSome = true) (span : Span)
    (message : String) :
    Measures k (opcodeOr op? span message) True 0 fun op => op? = some op := by
  obtain ⟨op, rfl⟩ := Option.isSome_iff_exists.mp h
  exact .pure k rfl

/-- The size is known wherever it is asked for. -/
theorem get (k : Nat) :
    Measures k (MonadStateOf.get : Generating Emitter) True 0 fun e => e.size = k :=
  fun _ hs => .ok trivial hs hs

theorem jump (k : Nat) {op : Opcode} (hop : op.operandSize = 2) :
    Measures k (jump op) True 3 fun offset => offset = k + 1 := by
  intro s hs
  obtain ⟨hoffset, hw⟩ := jump_eq_ok (s := s) hop rfl
  refine .ok trivial ?_ (by rw [hoffset, ← Emitter.size_eq, hs])
  rw [hw.size, hs]
  simp [hop]

/-- A jump is filled in if what was written behind it is not too long. -/
theorem patch {k offset n : Nat} (span : Span) (hn : k = offset + 2 + n) :
    Measures k (patch offset span) (n ≤ 65535) 0 fun _ => True := by
  intro s hs
  have hdistance : s.size - offset - 2 = n := by omega
  rw [patch_eq, hdistance]
  by_cases hfits : n ≤ Chunk.maxDistance
  · rw [if_pos hfits]
    refine .ok hfits ?_ trivial
    simpa [Emitter.size, Chunk.size, Chunk.setDistance] using hs
  · rw [if_neg hfits]
    exact .tooLong hfits

/-- A jump back covers its own three bytes. -/
theorem loop {k start n : Nat} (span : Span) (hn : k + 3 = start + n) :
    Measures k (loop start span) (n ≤ 65535) 3 fun _ => True := by
  intro s hs
  have hdistance : s.size + 3 - start = n := by omega
  rw [loop_eq, hdistance]
  by_cases hfits : n ≤ Chunk.maxDistance
  · rw [if_pos hfits]
    refine .ok hfits ?_ trivial
    have hw := s.opU16_wrote (UInt16.ofNat n) (show Opcode.loop.operandSize = 2 from rfl)
    rw [← hs]
    exact hw.size
  · rw [if_neg hfits]
    exact .tooLong hfits

end Measures

/-! ### Places and values

Where a value is kept decides between two bytes and three, and both sides find out in their
own way: `accessSize` by the symbol of the name, the code by `storage`.  `KeptAt` has the two
agree.
-/

end Codegen

/-- How many bytes it takes to push or to pop what is kept at a place. -/
def Storage.accessSize : Storage → Nat
  | register _ => 2
  | slot _ => 3

/-- Where a value is kept tells how many bytes it takes to get at it. -/
theorem KeptAt.accessSize_eq {r : Resolutions} {e : Expr} {place : Storage} (h : KeptAt r e place) :
    place.accessSize = e.accessSize r := by
  cases h with
  | register reg span => rfl
  | named resolved known =>
      simp [Storage.accessSize, Expr.accessSize, Resolutions.accessSize, resolved,
        Symbol.register?, known]
  | slot resolved known =>
      simp [Storage.accessSize, Expr.accessSize, Resolutions.accessSize, resolved,
        Symbol.register?, known]

private theorem size_integerCode (n : UInt64) :
    (integerCode n).size = if n = 0 ∨ n = 1 then 1 else 9 := by
  unfold integerCode
  by_cases hzero : n = 0
  · simp [hzero, Opcode.operandSize]
  · by_cases hone : n = 1
    · simp [hone, Opcode.operandSize]
    · simp [hzero, hone, Opcode.operandSize]

namespace Codegen

variable {g : CodeContext}

private theorem load_measures (k : Nat) {place : Storage} {n : Nat} (h : place.accessSize = n) :
    Measures k (load place) True n fun _ => True := by
  cases place with
  | register r => exact .emit k n (fun s => s.opByte_wrote r rfl) h
  | slot slot => exact .emit k n (fun s => s.opU16_wrote slot rfl) h

private theorem store_measures (k : Nat) {place : Storage} {n : Nat} (h : place.accessSize = n) :
    Measures k (store place) True n fun _ => True := by
  cases place with
  | register r => exact .emit k n (fun s => s.opByte_wrote r rfl) h
  | slot slot => exact .emit k n (fun s => s.opU16_wrote slot rfl) h

/-- A typed target is found, and it is known how many bytes it takes to get at it. -/
theorem storage_measures (hg : g.Ready) {e : Expr} {τ : ValueType} (htarget : e.target?.isSome)
    (ht : HasType g.resolutions e τ) (k : Nat) :
    Measures k (ofExcept (g.storage e)) True 0 fun place =>
      place.accessSize = e.accessSize g.resolutions := by
  obtain ⟨place, hplace⟩ := hg.storage_eq_ok htarget ht
  rw [hplace]
  exact .pure k (CodeContext.keptAt_of_storage hplace).accessSize_eq

/-- **A typed expression takes as many bytes as its size says.** -/
theorem expr_measures (hg : g.Ready) {e : Expr} {τ : ValueType}
    (ht : HasType g.resolutions e τ) :
    ∀ k, Measures k (expr g e) True (e.codeSize g.resolutions) fun _ => True := by
  induction ht with
  | integer n span =>
      intro k
      refine .emit k _ (fun s => s.int_wrote n) ?_
      simp [size_integerCode, Expr.codeSize]
  | boolean b span =>
      intro k
      refine .emit k _ (fun s => s.bool_wrote b) ?_
      cases b <;> rfl
  | register reg span =>
      intro k
      have hsize : (Storage.register reg).accessSize = 2 := rfl
      exact load_measures k hsize
  | @ident id s τ resolved known =>
      intro k
      have hstored := storage_measures hg rfl (.ident resolved known) k
      refine (hstored.bind fun place hplace => load_measures _ hplace).congr (by simp) ?_
      rw [Nat.zero_add, Expr.accessSize, Expr.codeSize]
  | unary span operand result ih =>
      intro k
      have hop := Operator.unaryOpcode?_isSome_of_unaryType? result
      refine ((ih k).bind fun _ _ => (Measures.opcodeOr _ hop _ _).bind fun opcode hopcode =>
        Measures.op _ (Operator.operandSize_of_unaryOpcode? hopcode)).congr (by simp) rfl
  | binary span left right result ih ih' =>
      intro k
      have hop := Operator.binaryOpcode?_isSome_of_binaryType? result
      refine ((ih k).bind fun _ _ => (ih' _).bind fun _ _ =>
        (Measures.opcodeOr _ hop _ _).bind fun opcode hopcode =>
          Measures.op _ (Operator.operandSize_of_binaryOpcode? hopcode)).congr (by simp) ?_
      rw [Expr.codeSize]
      omega

/-! ### Statements

These have no jump in them, so `fits` is `True` and the sizes are sums that follow the
definitions in `Codegen`.
-/

private theorem assign_measures (hg : g.Ready) {target value : Expr} {span : Span}
    (ht : (Stmt.assign target value span).Typed g.resolutions) (k : Nat) :
    Measures k (assign g target value) True
      ((Stmt.assign target value span).codeSize g.resolutions) fun _ => True := by
  rw [Stmt.Typed] at ht
  obtain ⟨htarget, τ, hl, hv⟩ := ht
  refine ((storage_measures hg htarget hl k).bind fun place hplace =>
    (expr_measures hg hv _).bind fun _ _ => store_measures _ hplace).congr (by simp) ?_
  rw [Stmt.codeSize, Nat.zero_add]

private theorem compound_measures (hg : g.Ready) {op : Operator} {target value : Expr} {span : Span}
    (ht : (Stmt.compound op target value span).Typed g.resolutions) (k : Nat) :
    Measures k (compound g op target value span) True
      ((Stmt.compound op target value span).codeSize g.resolutions) fun _ => True := by
  rw [Stmt.Typed] at ht
  obtain ⟨htarget, τ, σ, hl, hv, hresult⟩ := ht
  have hop := Operator.binaryOpcode?_isSome_of_binaryType? hresult
  refine ((storage_measures hg htarget hl k).bind fun place hplace =>
    (Measures.opcodeOr _ hop _ _).bind fun opcode hopcode =>
      (load_measures _ hplace).bind fun _ _ => (expr_measures hg hv _).bind fun _ _ =>
        (Measures.op _ (Operator.operandSize_of_binaryOpcode? hopcode)).bind fun _ _ =>
          store_measures _ hplace).congr (by simp) ?_
  rw [Stmt.codeSize]
  omega

/-- The arguments of an intrinsic add up. -/
theorem intrinsic_measures (hg : g.Ready) {i : Intrinsic} {args : List Expr} {span : Span}
    (ht : List.Forall₂ (OperandTyped g.resolutions) i.operands args) (k : Nat) :
    Measures k (intrinsic g i args span) True
      (1 + (i.operands.zipWith (Operand.codeSize g.resolutions) args).foldr (· + ·) 0)
      fun _ => True := by
  cases i with
  | cas =>
      -- A register takes no code of its own; its byte is counted with the instruction.
      rcases ht with _ | ⟨htarget, _ | ⟨hexpected, _ | ⟨hnew, _ | _⟩⟩⟩
      have hreg := CodeContext.Ready.registerOperand_eq_ok htarget
      refine ((Measures.ofExcept k hreg).bind fun r _ => (expr_measures hg hexpected _).bind
        fun _ _ => (expr_measures hg hnew _).bind fun _ _ =>
          .emit _ 2 (fun s => s.opByte_wrote r rfl) rfl).congr (by simp) ?_
      simp only [Intrinsic.operands, List.zipWith, Operand.codeSize, List.foldr_cons,
        List.foldr_nil]
      omega
  | cpy =>
      rcases ht with _ | ⟨hdst, _ | ⟨hsrc, _ | ⟨hlen, _ | _⟩⟩⟩
      refine ((expr_measures hg hdst k).bind fun _ _ => (expr_measures hg hsrc _).bind fun _ _ =>
        (expr_measures hg hlen _).bind fun _ _ => .op _ rfl).congr (by simp) ?_
      simp only [Intrinsic.operands, List.zipWith, Operand.codeSize, List.foldr_cons,
        List.foldr_nil]
      omega
  | dbg =>
      rcases ht with _ | ⟨⟨τ, hvalue⟩, _ | _⟩
      refine ((expr_measures hg hvalue k).bind fun _ _ => .op _ rfl).congr (by simp) ?_
      exact Nat.add_comm _ _
  | int =>
      rcases ht with _ | ⟨hvalue, _ | _⟩
      refine ((expr_measures hg hvalue k).bind fun _ _ => .op _ rfl).congr (by simp) ?_
      exact Nat.add_comm _ _
  | xchg =>
      rcases ht with _ | ⟨hleft, _ | ⟨hright, _ | _⟩⟩
      have hleft := CodeContext.Ready.registerOperand_eq_ok hleft
      have hright := CodeContext.Ready.registerOperand_eq_ok hright
      exact ((Measures.ofExcept k hleft).bind fun a _ => (Measures.ofExcept _ hright).bind
        fun b _ => .emit _ 3 (fun s => s.xchg_wrote a b) rfl).congr (by simp) rfl

private theorem ret_measures (hg : g.Ready) (hexit : g.exit.operandSize = 0) {value : Option Expr}
    {span : Span} (ht : (Stmt.ret value span).Typed g.resolutions) (k : Nat) :
    Measures k (ret g value) True ((Stmt.ret value span).codeSize g.resolutions)
      fun _ => True := by
  cases value with
  | none =>
      rw [Stmt.codeSize]
      exact .op k hexit
  | some value =>
      rw [Stmt.Typed] at ht
      refine ((expr_measures hg ht k).bind fun _ _ =>
        (Measures.emit _ 2 (fun s => s.opByte_wrote .r0 rfl) rfl).bind fun _ _ =>
          .op _ hexit).congr (by simp) ?_
      rw [Stmt.codeSize]

private theorem call_measures (hg : g.Ready) {name : Ident} {args : Arguments} {span : Span}
    (ht : (Stmt.call name args span).Typed g.resolutions) (k : Nat) :
    Measures k (call g name) True 3 fun _ => True := by
  rw [Stmt.Typed] at ht
  obtain ⟨⟨s, hres, hfunc⟩, -⟩ := ht
  exact ((Measures.ofExcept k (hg.sectionOf_eq_ok hres hfunc)).bind fun index _ =>
    .emit _ 3 (fun s => s.opU16_wrote index rfl) rfl).congr (by simp) rfl

/-! ### Statements that jump

Each of them is measured for whatever bodies it has, given that the bodies are.
-/

section Jumps

variable {c x y : Generating Unit} {fits fits' fits'' : Prop} {l m n : Nat}

/-- An `if` jumps over its body. -/
theorem ifThen_measures (k : Nat) (span : Span) (hc : ∀ k, Measures k c fits m fun _ => True)
    (hx : ∀ k, Measures k x fits' n fun _ => True) :
    Measures k (ifThen c x span) (fits ∧ fits' ∧ n ≤ 65535) (m + 3 + n) fun _ => True := by
  refine ((hc k).bind fun _ _ => (Measures.jump _ rfl).bind fun toEnd htoEnd =>
    (hx _).bind fun _ _ => .patch (n := n) span ?_).congr (by simp) (by omega)
  omega

/-- An `if` with an `else` jumps over its body and the jump behind it, or over the other body. -/
theorem ifElse_measures (k line : Nat) (span : Span)
    (hc : ∀ k, Measures k c fits l fun _ => True) (hx : ∀ k, Measures k x fits' m fun _ => True)
    (hy : ∀ k, Measures k y fits'' n fun _ => True) :
    Measures k (ifElse c x y line span)
      (fits ∧ fits' ∧ m + 3 ≤ 65535 ∧ fits'' ∧ n ≤ 65535) (l + 3 + m + 3 + n) fun _ => True := by
  refine ((hc k).bind fun _ _ => (Measures.jump _ rfl).bind fun toElse htoElse =>
    (hx _).bind fun _ _ => (Measures.setLine _ line).bind fun _ _ =>
      (Measures.jump _ rfl).bind fun toEnd htoEnd =>
        (Measures.patch (n := m + 3) span ?_).bind fun _ _ => (hy _).bind fun _ _ =>
          .patch (n := n) span ?_).congr (by simp) (by omega)
  · omega
  · omega

/-- A `while` jumps back over all of itself, and forward over a part of that. -/
theorem whileLoop_measures (k : Nat) (span : Span) (hc : ∀ k, Measures k c fits m fun _ => True)
    (hx : ∀ k, Measures k x fits' n fun _ => True) :
    Measures k (whileLoop c x span) (fits ∧ fits' ∧ m + 3 + n + 3 ≤ 65535) (m + 3 + n + 3)
      fun _ => True := by
  refine ((Measures.get k).bind fun e he => (hc _).bind fun _ _ => (Measures.jump _ rfl).bind
    fun toEnd htoEnd => (hx _).bind fun _ _ => (Measures.setLine _ span.line).bind fun _ _ =>
      (Measures.loop (n := m + 3 + n + 3) span ?_).bind fun _ _ =>
        .patch (n := n + 3) span ?_).congr ?_ (by omega)
  · omega
  · omega
  · constructor
    · rintro ⟨-, hfits, -, hfits', -, hback, -⟩
      exact ⟨hfits, hfits', hback⟩
    · rintro ⟨hfits, hfits', hback⟩
      exact ⟨trivial, hfits, trivial, hfits', trivial, hback, by omega⟩

end Jumps

/-- No jump of these statements is too long. -/
def JumpsFit (r : Resolutions) (body : List Stmt) : Prop := ∀ t ∈ body, ¬t.JumpsTooFar r

private theorem jumpsFit_cons {r : Resolutions} {s : Stmt} {body : List Stmt} :
    JumpsFit r (s :: body) ↔ ¬s.JumpsTooFar r ∧ JumpsFit r body := List.forall_mem_cons

private theorem jumpsFit_append {r : Resolutions} {a b : List Stmt} :
    JumpsFit r (a ++ b) ↔ JumpsFit r a ∧ JumpsFit r b := List.forall_mem_append

/-- A statement without statements inside it jumps nowhere. -/
private theorem Measures.simple {r : Resolutions} {s : Stmt} {x : Generating Unit} {k n : Nat}
    (hx : Measures k x True n fun _ => True) (hcoded : s.coded = [s]) (hjumps : ¬s.JumpsTooFar r) :
    Measures k x (JumpsFit r s.coded) n fun _ => True :=
  hx.congr (by simp [hcoded, JumpsFit, hjumps]) rfl

/-- Each typed part takes as many bytes as its size says, unless a jump in it is too long. -/
abbrev measuring (r : Resolutions) : Claim where
  code s x := s.Typed r → ∀ k, Measures k x (JumpsFit r s.coded) (s.codeSize r) fun _ => True
  stmt s x := s.Typed r → ∀ k, Measures k x (JumpsFit r s.coded) (s.codeSize r) fun _ => True
  block b x := b.Typed r → ∀ k, Measures k x (JumpsFit r b.coded) (b.codeSize r) fun _ => True
  stmts body x := stmtsTyped r body → ∀ k,
    Measures k x (JumpsFit r (stmtsCoded body)) (stmtsCodeSize r body) fun _ => True

private theorem measuring_rules (hg : g.Ready) (hexit : g.exit.operandSize = 0) :
    (measuring g.resolutions).Rules g where
  assign _ _ _ ht k := (assign_measures hg ht k).simple rfl id
  compound _ _ _ _ ht k := (compound_measures hg ht k).simple rfl id
  ifThen cond body span hbody ht k := by
    rw [Stmt.Typed] at ht
    refine (ifThen_measures k span (expr_measures hg ht.1) (hbody ht.2)).congr ?_ ?_
    · rw [Stmt.coded, jumpsFit_cons, Stmt.JumpsTooFar, Nat.not_lt]
      tauto
    · rw [Stmt.codeSize]
  ifElse cond body ifSpan elseBody span hbody helse ht k := by
    rw [Stmt.Typed] at ht
    refine (ifElse_measures k elseBody.span.line span (expr_measures hg ht.1) (hbody ht.2.1)
      (helse ht.2.2)).congr ?_ ?_
    · rw [Stmt.coded, jumpsFit_cons, jumpsFit_append, Stmt.JumpsTooFar, not_or, Nat.not_lt,
        Nat.not_lt]
      tauto
    · rw [Stmt.codeSize]
  whileLoop cond body span hbody ht k := by
    rw [Stmt.Typed] at ht
    refine (whileLoop_measures k span (expr_measures hg ht.1) (hbody ht.2)).congr ?_ ?_
    · rw [Stmt.coded, jumpsFit_cons, Stmt.JumpsTooFar, Stmt.codeSize, Nat.not_lt]
      tauto
    · rw [Stmt.codeSize]
  func _ _ _ _ k := (Measures.pure k trivial).simple rfl id
  ret _ _ ht k := (ret_measures hg hexit ht k).simple rfl id
  intrinsic _ _ _ ht k := (intrinsic_measures hg ht k).simple rfl id
  call _ _ _ ht k := (call_measures hg ht k).simple rfl id
  line _ _ hx ht k := by
    refine ((Measures.setLine k _).bind fun _ _ => hx ht _).congr ?_ (Nat.zero_add _)
    rw [true_and]
  block _ _ _ hbody ht k := hbody ht k
  nil _ k := (Measures.pure k trivial).congr (by simp [JumpsFit, stmtsCoded]) rfl
  cons s rest hs hrest ht k :=
    ((hs ht.1 k).bind fun _ _ => hrest ht.2 _).congr jumpsFit_append.symm rfl

/-- **A typed block takes as many bytes as its size says, unless a jump in it is too long.** -/
theorem block_measures (hg : g.Ready) (hexit : g.exit.operandSize = 0) {b : Block}
    (ht : b.Typed g.resolutions) (k : Nat) :
    Measures k (block g b) (JumpsFit g.resolutions b.coded) (b.codeSize g.resolutions)
      fun _ => True := (measuring_rules hg hexit).blocks b ht k

/-! ### Sections

Before any code is written `limit?` and `numberSections` have their say; `WithinLimits` is
that they raise no objection.  Then the sections are written one after another, and the
first that does not fit stops it all.
-/

/-- A section has the size of its block and one byte for the way out, if all its jumps fit. -/
theorem sectionCode_measured (hg : g.Ready) (hexit : g.exit.operandSize = 0) {body : Block}
    (ht : body.Typed g.resolutions) :
    (JumpsFit g.resolutions body.coded ∧
      ∃ chunk, sectionCode g body = .ok chunk ∧
        chunk.size = body.codeSize g.resolutions + 1) ∨
    (¬JumpsFit g.resolutions body.coded ∧
      ∃ span, sectionCode g body = .error (jumpTooLong span)) := by
  have hwritten := ((block_measures hg hexit ht 0).bind fun _ _ => .op _ hexit) .start rfl
  rw [sectionCode]
  generalize (block g body >>= fun _ => emit (·.op g.exit)) Emitter.start = result at hwritten
  cases hwritten with
  | ok hfits hsize _ =>
      refine .inl ⟨hfits.1, _, rfl, ?_⟩
      rw [Nat.zero_add] at hsize
      exact hsize
  | tooLong hfits => exact .inr ⟨fun h => hfits ⟨h, trivial⟩, _, rfl⟩

end Codegen

/-- The limits that are checked before any code is written. -/
structure Program.WithinLimits (p : Program) (o : CompileOptions) (r : Resolutions) : Prop where
  fewVariables : r.variableCount ≤ 65536
  fewSections : Codegen.sectionCount o p.functions.length r.variableCount ≤ o.maxSections.toNat
  shortNames : ∀ name ∈ Codegen.sectionNames p.functions, name.utf8ByteSize ≤ Codegen.maxNameBytes o

namespace Codegen

variable {o : CompileOptions} {r : Resolutions} {p : Program}

private theorem limit?_eq_none (h : p.WithinLimits o r) :
    limit? o r p p.functions.length = none := by
  have hfew : ¬CodeContext.maxVariables < r.variableCount := Nat.not_lt.mpr h.fewVariables
  rw [limit?, if_neg hfew, if_neg (Nat.not_lt.mpr h.fewSections)]

/-- Functions that are declared under short names are numbered. -/
theorem numberSections_ok : ∀ {named : List (Func × String)} (start : Nat)
    (sections : Std.TreeMap Nat UInt16),
    (∀ x ∈ named, (∃ decl, r.declaration? x.1.name = some decl) ∧
      x.2.utf8ByteSize ≤ maxNameBytes o) →
    ∃ table, numberSections o r sections start named = .ok table
  | [], _, sections, _ => ⟨sections, rfl⟩
  | (f, name) :: rest, start, sections, hnamed => by
      obtain ⟨⟨decl, hdecl⟩, hshort⟩ := hnamed (f, name) List.mem_cons_self
      rw [numberSections, if_neg (Nat.not_lt.mpr hshort), hdecl]
      exact numberSections_ok _ _ fun x hx => hnamed x (List.mem_cons_of_mem _ hx)

private theorem numberSections_ok_of_withinLimits (hr : p.Resolved r) (h : p.WithinLimits o r) :
    ∃ table, numberSections o r ∅ 1 (p.functions.zip (sectionNames p.functions)) = .ok table := by
  refine numberSections_ok 1 ∅ fun x hx => ?_
  obtain ⟨hf, hname⟩ := List.of_mem_zip hx
  exact ⟨hr.declared x.1 hf, h.shortNames x.2 hname⟩

/-- Every section of a program within limits has its size, or a jump that does not fit. -/
theorem sectionCode_measured_of_mem (hr : p.Resolved r) (h : p.WithinLimits o r)
    {table : Std.TreeMap Nat UInt16} {b : Opcode × Block} (hb : b ∈ p.bodies)
    (htable : numberSections o r ∅ 1 (p.functions.zip (sectionNames p.functions)) = .ok table) :
    (JumpsFit r b.2.coded ∧ ∃ chunk, sectionCode ⟨r, table, b.1⟩ b.2 = .ok chunk ∧
      chunk.size = b.2.codeSize r + 1) ∨
    (¬JumpsFit r b.2.coded ∧ ∃ span, sectionCode ⟨r, table, b.1⟩ b.2 =
      .error (jumpTooLong span)) := by
  have hexit : b.1.operandSize = 0 := by
    rcases Program.exit_of_mem_bodies hb with hb | hb <;> rw [hb] <;> rfl
  exact sectionCode_measured (ready_of_numberSections hr h.fewVariables htable b.1) hexit
    (hr.typed_of_mem_bodies hb)

/-- Within limits only a jump can stop a program, and one that is too long is in it. -/
theorem codeSections_failsOnly_jump (hr : p.Resolved r) (h : p.WithinLimits o r) :
    FailsOnly (fun e => (∃ span, e = jumpTooLong span) ∧ ∃ s ∈ p.block.parts, s.JumpsTooFar r)
      (codeSections o r p) := by
  refine .codeSections ?limits ?numbers ?codes
  case limits =>
    intro e he
    rw [limit?_eq_none h] at he
    cases he
  case numbers =>
    obtain ⟨table, htable⟩ := numberSections_ok_of_withinLimits hr h
    rw [htable]
    exact .pure table
  case codes =>
    intro _ table htable b hb e he
    rcases sectionCode_measured_of_mem hr h hb htable with ⟨_, chunk, hok, _⟩ | ⟨hfar, span, herror⟩
    · rw [hok] at he
      cases he
    · rw [herror] at he
      cases he
      simp only [JumpsFit, not_forall, not_not] at hfar
      obtain ⟨s, hs, hfar⟩ := hfar
      exact ⟨⟨span, rfl⟩, s, Program.mem_parts_iff.mpr ⟨b, hb, hs⟩, hfar⟩

/-- Sections that are written have their sizes, and no jump was too long. -/
theorem size_of_codeSections (hr : p.Resolved r) (h : p.WithinLimits o r)
    {sections : List CodeSection} (hok : codeSections o r p = .ok sections) :
    List.Forall₂ (fun b s => s.chunk.size = b.2.codeSize r + 1) p.bodies sections ∧
      ∀ s ∈ p.block.parts, ¬s.JumpsTooFar r := by
  obtain ⟨-, table, htable, hall⟩ := codeSections_eq_ok hok
  have hmeasured : ∀ b ∈ p.bodies, ∀ s : CodeSection,
      sectionCode ⟨r, table, b.1⟩ b.2 = .ok s.chunk →
        JumpsFit r b.2.coded ∧ s.chunk.size = b.2.codeSize r + 1 := by
    intro b hb s hs
    rcases sectionCode_measured_of_mem hr h hb htable with
      ⟨hfits, chunk, hchunk, hsize⟩ | ⟨_, span, herror⟩
    · obtain rfl := Except.ok.inj (hchunk.symm.trans hs)
      exact ⟨hfits, hsize⟩
    · rw [herror] at hs
      cases hs
  constructor
  · rw [List.forall₂_iff_get] at hall ⊢
    exact ⟨hall.1, fun i hb hs =>
      (hmeasured _ (List.get_mem _ _) _ (hall.2 i hb hs)).2⟩
  · intro s hs
    obtain ⟨b, hb, hcoded⟩ := Program.mem_parts_iff.mp hs
    obtain ⟨i, hi, rfl⟩ := List.mem_iff_getElem.mp hb
    obtain ⟨hlen, hget⟩ := List.forall₂_iff_get.mp hall
    exact (hmeasured _ hb _ (hget i hi (hlen ▸ hi))).1 s hcoded

/--
**Jump limits are exact.**  A program that is read, analysed and within the other limits
is refused for a jump just if one of its statements jumps too far by the sizes of its
parts.  Otherwise it gets all its sections, each as long as its block and one byte.
-/
theorem jump_limits_exact {source : String} {tabWidth : Nat}
    (hparse : Program.parse source tabWidth = .ok p) (hanalyze : p.analyze = .ok r)
    (hlimits : p.WithinLimits o r) :
    ((∃ span, codeSections o r p = .error (.limitExceeded span "bytes in a jump" 65535)) ↔
      ∃ s ∈ p.block.parts, s.JumpsTooFar r) ∧
    ((¬∃ s ∈ p.block.parts, s.JumpsTooFar r) →
      ∃ sections, codeSections o r p = .ok sections ∧
        List.Forall₂ (fun b s => s.chunk.size = b.2.codeSize r + 1) p.bodies sections) := by
  have hr := Program.resolved_of_analyze (Program.wellNamed_of_parse hparse) hanalyze
  have hfails := codeSections_failsOnly_jump hr hlimits
  constructor
  · constructor
    · rintro ⟨span, herror⟩
      exact (hfails _ herror).2
    · rintro ⟨s, hs, hfar⟩
      cases h : codeSections o r p with
      | ok sections => exact absurd hfar ((size_of_codeSections hr hlimits h).2 s hs)
      | error e =>
          obtain ⟨⟨span, rfl⟩, -⟩ := hfails e h
          exact ⟨span, rfl⟩
  · intro hnone
    cases h : codeSections o r p with
    | ok sections => exact ⟨sections, rfl, (size_of_codeSections hr hlimits h).1⟩
    | error e => exact absurd (hfails e h).2 hnone

/-- The countdown has a main section of 27 bytes and a function of 33. -/
theorem countdown_jump_limits : ∃ p r sections, Program.parse countdown 4 = .ok p ∧
    p.analyze = .ok r ∧ p.WithinLimits .default r ∧
      codeSections .default r p = .ok sections ∧
        List.Forall₂ (fun b s => s.chunk.size = b.2.codeSize r + 1) p.bodies sections ∧
          p.bodies.map (fun b => b.2.codeSize r + 1) = [27, 33] := by
  have htest : Compiles.passes countdown 4 .default (fun p r _ =>
      decide (r.variableCount ≤ 65536) &&
      decide (sectionCount .default p.functions.length r.variableCount ≤
        CompileOptions.default.maxSections.toNat) &&
      (sectionNames p.functions).all (fun name => name.utf8ByteSize ≤ maxNameBytes .default) &&
      p.block.parts.all (fun s => !decide (s.JumpsTooFar r)) &&
      p.bodies.map (fun b => b.2.codeSize r + 1) == [27, 33]) = true := by
    decide +kernel
  obtain ⟨p, r, _, hcompiles, hresult⟩ := Compiles.of_passes htest
  simp only [Bool.and_eq_true, decide_eq_true_eq, List.all_eq_true, Bool.not_eq_true',
    decide_eq_false_iff_not, beq_iff_eq] at hresult
  obtain ⟨⟨⟨⟨hvars, hsections⟩, hnames⟩, hfits⟩, hsizes⟩ := hresult
  have hlimits : p.WithinLimits .default r := ⟨hvars, hsections, hnames⟩
  obtain ⟨sections, hok, hall⟩ :=
    (jump_limits_exact hcompiles.parsed hcompiles.analyzed hlimits).2 fun ⟨s, hs, hfar⟩ =>
      hfits s hs hfar
  exact ⟨p, r, sections, hcompiles.parsed, hcompiles.analyzed, hlimits, hok, hall, hsizes⟩

end Codegen

end StackCode
