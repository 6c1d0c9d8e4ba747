/-
The code of a program, said without the bytes.

Code is written byte by byte, and the distance of a forward jump is filled in only after the
code it jumps over.  Seen from the end there is none of that: the code of a statement is a
list of instructions put together from the code of its parts, and a jump carries the size of
what it jumps over.  `ExprCode` and `StmtCode` say which list that is.  What is proved is
that writing, where it succeeds, writes just that (`Emitter.Wrote`, `Codegen.block_wrote`),
so that later arguments about code never see a placeholder.
-/
import StackCode.Proofs.Instruction
import StackCode.Proofs.Sequencing
import StackCode.Proofs.Traversal

namespace StackCode

open Sequencing Instruction

/-! ### Which code

The relations follow the tree, and take from the `CodeContext` only what cannot be seen in
it: where a name is kept, which section a function has, and how a section is left.  A jump
that does not fit has no code, so `fits` is a condition of the rules for `if` and `while`.
-/

/-- Push what is stored at a place. -/
def Storage.loadCode : Storage → Instruction
  | register r => make .loadReg r.index
  | slot n => make .loadVar n.toNat

/-- Pop into a place. -/
def Storage.storeCode : Storage → Instruction
  | register r => make .storeReg r.index
  | slot n => make .storeVar n.toNat

/-- Push an integer; 0 and 1 have instructions of their own. -/
def integerCode (n : UInt64) : Instruction :=
  if n = 0 then make .pushZero 0 else if n = 1 then make .pushOne 0 else make .pushInt n.toNat

/-- Push a boolean. -/
def booleanCode (b : Bool) : Instruction := make (if b then .pushTrue else .pushFalse) 0

/-- The code that pushes the value of an expression. -/
inductive ExprCode (g : CodeContext) : Expr → Code → Prop where
  | integer (n : UInt64) (span : Span) : ExprCode g (.integer n span) [integerCode n]
  | boolean (b : Bool) (span : Span) : ExprCode g (.boolean b span) [booleanCode b]
  | register (r : Register) (span : Span) :
      ExprCode g (.register r span) [(Storage.register r).loadCode]
  | ident {id : Ident} {place : Storage} (kept : g.identStorage id = .ok place) :
      ExprCode g (.ident id) [place.loadCode]
  | unary {op : Operator} {opcode : Opcode} {operand : Expr} {c : Code} (span : Span)
      (code : ExprCode g operand c) (known : op.unaryOpcode? = some opcode) :
      ExprCode g (.unary op operand span) (c ++ [make opcode 0])
  | binary {op : Operator} {opcode : Opcode} {left right : Expr} {c d : Code} (span : Span)
      (code : ExprCode g left c) (code' : ExprCode g right d)
      (known : op.binaryOpcode? = some opcode) :
      ExprCode g (.binary op left right span) (c ++ (d ++ [make opcode 0]))

/-- The code of an intrinsic.  Arguments beyond those it takes get no code. -/
inductive IntrinsicCode (g : CodeContext) : Intrinsic → List Expr → Code → Prop where
  | cas {target expected new : Expr} {rest : List Expr} {r : Register} {c d : Code}
      (named : g.registerOperand target = .ok r) (code : ExprCode g expected c)
      (code' : ExprCode g new d) :
      IntrinsicCode g .cas (target :: expected :: new :: rest) (c ++ (d ++ [make .cas r.index]))
  | cpy {dst src len : Expr} {rest : List Expr} {c d e : Code} (code : ExprCode g dst c)
      (code' : ExprCode g src d) (code'' : ExprCode g len e) :
      IntrinsicCode g .cpy (dst :: src :: len :: rest) (c ++ (d ++ (e ++ [make .cpy 0])))
  | dbg {value : Expr} {rest : List Expr} {c : Code} (code : ExprCode g value c) :
      IntrinsicCode g .dbg (value :: rest) (c ++ [make .dbg 0])
  | int {value : Expr} {rest : List Expr} {c : Code} (code : ExprCode g value c) :
      IntrinsicCode g .int (value :: rest) (c ++ [make .int 0])
  | xchg {left right : Expr} {rest : List Expr} {a b : Register}
      (named : g.registerOperand left = .ok a) (named' : g.registerOperand right = .ok b) :
      IntrinsicCode g .xchg (left :: right :: rest) [make .xchg (256 * a.index + b.index)]

mutual

/-- The code of a statement. -/
inductive StmtCode (g : CodeContext) : Stmt → Code → Prop where
  | assign {target value : Expr} {place : Storage} {c : Code} (span : Span)
      (kept : g.storage target = .ok place) (code : ExprCode g value c) :
      StmtCode g (.assign target value span) (c ++ [place.storeCode])
  | compound {op : Operator} {opcode : Opcode} {target value : Expr} {place : Storage} {c : Code}
      (span : Span) (kept : g.storage target = .ok place)
      (known : op.binaryOpcode? = some opcode) (code : ExprCode g value c) :
      StmtCode g (.compound op target value span)
        (place.loadCode :: (c ++ [make opcode 0, place.storeCode]))
  | ifThen {cond : Expr} {body : Block} {c b : Code} (span : Span) (code : ExprCode g cond c)
      (code' : BlockCode g body b) (fits : b.size ≤ Chunk.maxDistance) :
      StmtCode g (.ifThen cond body span) (c ++ make .jumpIfFalse b.size :: b)
  | ifElse {cond : Expr} {body elseBody : Block} {c b d : Code} (ifSpan span : Span)
      (code : ExprCode g cond c) (code' : BlockCode g body b) (code'' : BlockCode g elseBody d)
      (fits : b.size + 3 ≤ Chunk.maxDistance) (fits' : d.size ≤ Chunk.maxDistance) :
      StmtCode g (.ifElse cond body ifSpan elseBody span)
        (c ++ make .jumpIfFalse (b.size + 3) :: (b ++ make .jump d.size :: d))
  | whileLoop {cond : Expr} {body : Block} {c b : Code} (span : Span) (code : ExprCode g cond c)
      (code' : BlockCode g body b) (fits : c.size + 3 + (b.size + 3) ≤ Chunk.maxDistance) :
      StmtCode g (.whileLoop cond body span)
        (c ++ make .jumpIfFalse (b.size + 3) ::
          (b ++ [make .loop (c.size + 3 + (b.size + 3))]))
  | func (name : Ident) (body : Block) (span : Span) : StmtCode g (.func name body span) []
  | retNone (span : Span) : StmtCode g (.ret none span) [make g.exit 0]
  | retSome {value : Expr} {c : Code} (span : Span) (code : ExprCode g value c) :
      StmtCode g (.ret (some value) span)
        (c ++ [(Storage.register .r0).storeCode, make g.exit 0])
  | intrinsic {i : Intrinsic} {args : Arguments} {c : Code} (span : Span)
      (code : IntrinsicCode g i args.args c) : StmtCode g (.intrinsic i args span) c
  | call {name : Ident} {index : UInt16} (args : Arguments) (span : Span)
      (known : g.sectionOf name = .ok index) :
      StmtCode g (.call name args span) [make .call index.toNat]

/-- The code of a block. -/
inductive BlockCode (g : CodeContext) : Block → Code → Prop where
  | mk {body : List Stmt} {c : Code} (decls : List Decl) (span : Span) (code : StmtsCode g body c) :
      BlockCode g ⟨decls, body, span⟩ c

/-- The code of statements in a row. -/
inductive StmtsCode (g : CodeContext) : List Stmt → Code → Prop where
  | nil : StmtsCode g [] []
  | cons {s : Stmt} {rest : List Stmt} {c d : Code} (code : StmtCode g s c)
      (code' : StmtsCode g rest d) : StmtsCode g (s :: rest) (c ++ d)

end

/-! ### Where values are kept

`KeptAt` is what `storage` finds, said by kinds of symbols.  It is used where code is
compared with what the program means.
-/

/-- The place of a register, of an alias of one, or of a variable. -/
inductive KeptAt (r : Resolutions) : Expr → Storage → Prop where
  | register (reg : Register) (span : Span) : KeptAt r (.register reg span) (.register reg)
  | named {id : Ident} {s : Symbol} {reg : Register} (resolved : r.resolveSymbol? id = some s)
      (known : s.kind = .registerAlias reg) : KeptAt r (.ident id) (.register reg)
  | slot {id : Ident} {s : Symbol} {n : UInt16} (resolved : r.resolveSymbol? id = some s)
      (known : s.kind = .var) (numbered : s.slot? = some n.toNat) : KeptAt r (.ident id) (.slot n)

namespace CodeContext

variable {g : CodeContext} {place : Storage}

theorem keptAt_of_identStorage {id : Ident} (h : g.identStorage id = .ok place) :
    KeptAt g.resolutions (.ident id) place := by
  simp only [identStorage] at h
  split at h
  · simp at h
  · rename_i s hs
    split at h
    · rename_i r _ hkind
      obtain rfl := Except.ok.inj h
      exact .named hs hkind
    · rename_i n hkind hslot
      split at h
      · rename_i hlt
        obtain rfl := Except.ok.inj h
        have hn : (UInt16.ofNat n).toNat = n := by
          rw [UInt16.toNat_ofNat']
          exact Nat.mod_eq_of_lt hlt
        exact .slot hs hkind (by rw [hn]; exact hslot)
      · simp at h
    · simp at h

theorem keptAt_of_storage {e : Expr} (h : g.storage e = .ok place) :
    KeptAt g.resolutions e place := by
  cases e with
  | register r span =>
      obtain rfl := Except.ok.inj h
      exact .register r span
  | ident id => exact keptAt_of_identStorage h
  | integer n span => simp [storage] at h
  | boolean b span => simp [storage] at h
  | unary op operand span => simp [storage] at h
  | binary op left right span => simp [storage] at h

end CodeContext

/-! ### What the emitter writes

`Wrote s t c` compares the bytes of two emitters and nothing else; lines are a matter of
their own.  Each method of `Emitter` that the code generator uses writes one instruction.
-/

/-- Filling in a distance changes the two bytes of the operand, and nothing else. -/
theorem Chunk.code_setDistance {c : Chunk} {op : UInt8} {before operand after : List UInt8}
    (h : c.code.toList = before ++ op :: (operand ++ after)) (hoperand : operand.length = 2)
    (distance : Nat) :
    (c.setDistance (before.length + 1) distance).code.toList =
      before ++ op :: (Bytes.bigEndian 2 distance ++ after) := by
  match operand, hoperand with
  | [high, low], _ =>
      have htwo : Bytes.bigEndian 2 distance =
          [UInt8.ofNat (distance / 256), UInt8.ofNat distance] := rfl
      have hsecond : before.length + 1 + 1 - before.length = 2 := by omega
      have hbehind : ¬before.length + 1 + 1 < before.length := by omega
      simp [setDistance, h, htwo, List.set_append, hsecond, hbehind]

namespace Emitter

/-- The bytes written so far. -/
def bytes (e : Emitter) : List UInt8 := e.chunk.code.toList

theorem size_eq (e : Emitter) : e.size = e.bytes.length := by
  simp [size, Chunk.size, bytes]

@[simp] theorem bytes_setLine (e : Emitter) (line : Nat) : (e.setLine line).bytes = e.bytes := rfl

@[simp] theorem bytes_byte (e : Emitter) (b : UInt8) : (e.byte b).bytes = e.bytes ++ [b] := by
  simp [bytes, byte, Chunk.writeByte]

@[simp] theorem bytes_op (e : Emitter) (op : Opcode) :
    (e.op op).bytes = e.bytes ++ [op.toByte] := by
  simp [bytes, Emitter.op, Chunk.writeOp, Chunk.writeByte]

theorem writeBytes_code (bs : List UInt8) (line : UInt32) :
    ∀ c : Chunk, (c.writeBytes bs line).code.toList = c.code.toList ++ bs := by
  induction bs with
  | nil => intro c; simp [Chunk.writeBytes]
  | cons b bs ih =>
      intro c
      show ((c.writeByte b line).writeBytes bs line).code.toList = _
      rw [ih]
      simp [Chunk.writeByte]

@[simp] theorem bytes_opU16 (e : Emitter) (op : Opcode) (n : UInt16) :
    (e.opU16 op n).bytes = e.bytes ++ (op.toByte :: Bytes.bigEndian 2 n.toNat) := by
  show ((e.op op).chunk.writeU16 n _).code.toList = _
  rw [Chunk.writeU16, writeBytes_code]
  show (e.op op).bytes ++ _ = _
  simp

/-- `t` is `s` with the code written behind it. -/
def Wrote (s t : Emitter) (c : Code) : Prop := t.bytes = s.bytes ++ c.bytes

namespace Wrote

variable {s t u : Emitter} {c d : Code}

theorem trans (h : Wrote s t c) (h' : Wrote t u d) : Wrote s u (c ++ d) := by
  unfold Wrote at *
  rw [h', h, Code.bytes_append, List.append_assoc]

end Wrote

theorem op_wrote (e : Emitter) {op : Opcode} (h : op.operandSize = 0) :
    Wrote e (e.op op) [make op 0] := by
  simp [Wrote, bytes_make, h, Bytes.bigEndian, Bytes.littleEndian]

theorem opByte_wrote (e : Emitter) {op : Opcode} (r : Register) (h : op.operandSize = 1) :
    Wrote e (e.opByte op r.toByte) [make op r.index] := by
  simp [Wrote, opByte, Instruction.bytes, operand_make_register h]

theorem opU16_wrote (e : Emitter) {op : Opcode} (n : UInt16) (h : op.operandSize = 2) :
    Wrote e (e.opU16 op n) [make op n.toNat] := by
  simp [Wrote, bytes_make, h]

theorem int_wrote (e : Emitter) (n : UInt64) : Wrote e (e.int n) [integerCode n] := by
  unfold int integerCode
  split
  · exact e.op_wrote rfl
  · split
    · exact e.op_wrote rfl
    · show ((e.op .pushInt).chunk.writeU64 n _).code.toList = _
      rw [Chunk.writeU64, writeBytes_code]
      show (e.op .pushInt).bytes ++ _ = _
      simp [bytes_make, Opcode.operandSize]

theorem bool_wrote (e : Emitter) (b : Bool) : Wrote e (e.bool b) [booleanCode b] := by
  cases b <;> exact e.op_wrote rfl

theorem xchg_wrote (e : Emitter) (a b : Register) :
    Wrote e (e.xchg a b) [make .xchg (256 * a.index + b.index)] := by
  have hsize : Opcode.operandSize .xchg = 2 := rfl
  simp [Wrote, xchg, Instruction.bytes, operand_make_registers hsize]

end Emitter

/-! ### What a step writes

The tables of opcodes by operator belong to the code generator and those of operators by
opcode to the machine.  They are inverse to each other, and no operator has operands in its
code.  Expressions are then written by recursion over the tree.
-/

namespace Operator

/-- The compiler picks the opcode that applies the operator, and no other. -/
theorem binaryOpcode?_eq_some_iff {op : Operator} {opcode : Opcode} :
    op.binaryOpcode? = some opcode ↔ opcode.binary? = some op := by
  constructor
  · intro h
    cases op <;> cases h <;> rfl
  · intro h
    cases opcode <;> cases h <;> rfl

theorem unaryOpcode?_eq_some_iff {op : Operator} {opcode : Opcode} :
    op.unaryOpcode? = some opcode ↔ opcode.unary? = some op := by
  constructor
  · intro h
    cases op <;> cases h <;> rfl
  · intro h
    cases opcode <;> cases h <;> rfl

theorem operandSize_of_binaryOpcode? {op : Operator} {opcode : Opcode}
    (h : op.binaryOpcode? = some opcode) : opcode.operandSize = 0 := by
  cases op <;> simp only [binaryOpcode?, Option.some.injEq, reduceCtorEq] at h <;> subst h <;> rfl

theorem operandSize_of_unaryOpcode? {op : Operator} {opcode : Opcode}
    (h : op.unaryOpcode? = some opcode) : opcode.operandSize = 0 := by
  cases op <;> simp only [unaryOpcode?, Option.some.injEq, reduceCtorEq] at h <;> subst h <;> rfl

end Operator

namespace Codegen

open Emitter (Wrote op_wrote size_eq writeBytes_code)

variable {s t : Emitter} {g : CodeContext}

theorem ofExcept_eq_ok {α : Type} {x : Except CodegenError α} {a : α} :
    ofExcept x s = .ok a t ↔ x = .ok a ∧ s = t := by
  cases x with
  | ok b => simp [ofExcept]
  | error e => simp [ofExcept]

theorem opcodeOr_eq_ok {op? : Option Opcode} {op : Opcode} {span : Span} {message : String} :
    opcodeOr op? span message s = .ok op t ↔ op? = some op ∧ s = t := by
  cases op? with
  | some op' => simp [opcodeOr]
  | none => simp [opcodeOr]

private theorem load_wrote {place : Storage} (h : load place s = .ok () t) :
    Wrote s t [place.loadCode] := by
  cases place with
  | register r =>
      obtain rfl := modify_eq_ok.mp h
      exact s.opByte_wrote r rfl
  | slot n =>
      obtain rfl := modify_eq_ok.mp h
      exact s.opU16_wrote n rfl

private theorem store_wrote {place : Storage} (h : store place s = .ok () t) :
    Wrote s t [place.storeCode] := by
  cases place with
  | register r =>
      obtain rfl := modify_eq_ok.mp h
      exact s.opByte_wrote r rfl
  | slot n =>
      obtain rfl := modify_eq_ok.mp h
      exact s.opU16_wrote n rfl

/-- Where it finishes, the step writes code of this kind. -/
def Writes (code : Code → Prop) (x : Generating Unit) : Prop :=
  ∀ ⦃s t⦄, x s = .ok () t → ∃ c, code c ∧ Wrote s t c

/-- **Writing an expression writes its code.** -/
theorem expr_wrote : ∀ {e : Expr} {s t : Emitter}, expr g e s = .ok () t →
    ∃ c, ExprCode g e c ∧ Wrote s t c
  | .integer n span, s, t, h => by
      obtain rfl := modify_eq_ok.mp h
      exact ⟨_, .integer n span, s.int_wrote n⟩
  | .boolean b span, s, t, h => by
      obtain rfl := modify_eq_ok.mp h
      exact ⟨_, .boolean b span, s.bool_wrote b⟩
  | .register r span, s, t, h => by
      obtain rfl := modify_eq_ok.mp h
      exact ⟨_, .register r span, s.opByte_wrote r rfl⟩
  | .ident id, s, t, h => by
      obtain ⟨place, m, hplace, h⟩ := bind_eq_ok.mp h
      obtain ⟨hkept, rfl⟩ := ofExcept_eq_ok.mp hplace
      exact ⟨_, .ident hkept, load_wrote h⟩
  | .unary op operand span, s, t, h => by
      obtain ⟨_, m, hoperand, h⟩ := bind_eq_ok.mp h
      obtain ⟨opcode, m, hop, h⟩ := bind_eq_ok.mp h
      obtain ⟨hknown, rfl⟩ := opcodeOr_eq_ok.mp hop
      obtain rfl := modify_eq_ok.mp h
      obtain ⟨c, hc, hw⟩ := expr_wrote hoperand
      have hsize := Operator.operandSize_of_unaryOpcode? hknown
      exact ⟨_, .unary span hc hknown, hw.trans (op_wrote _ hsize)⟩
  | .binary op left right span, s, t, h => by
      obtain ⟨_, m, hleft, h⟩ := bind_eq_ok.mp h
      obtain ⟨_, n, hright, h⟩ := bind_eq_ok.mp h
      obtain ⟨opcode, n, hop, h⟩ := bind_eq_ok.mp h
      obtain ⟨hknown, rfl⟩ := opcodeOr_eq_ok.mp hop
      obtain rfl := modify_eq_ok.mp h
      obtain ⟨c, hc, hw⟩ := expr_wrote hleft
      obtain ⟨d, hd, hw'⟩ := expr_wrote hright
      have hsize := Operator.operandSize_of_binaryOpcode? hknown
      exact ⟨_, .binary span hc hd hknown, hw.trans (hw'.trans (op_wrote _ hsize))⟩

/-! ### Jumps

A forward jump is written twice, first with the largest distance and then with the right
one.  In between the code in front of it stays as it is, and the code behind it is what it
jumps over.  `jumpOver_wrote` and `jumpsOver_wrote` say what has been written in the end for
one jump and for two, and no later proof sees the first distance.
-/

/-- A forward jump is written with the largest distance, which is filled in later. -/
theorem jump_eq_ok {op : Opcode} {offset : Nat} (hop : op.operandSize = 2)
    (h : jump op s = .ok offset t) :
    offset = s.bytes.length + 1 ∧ Wrote s t [make op Chunk.maxDistance] := by
  simp only [jump, EStateM.Result.ok.injEq] at h
  obtain ⟨rfl, rfl⟩ := h
  refine ⟨by rw [← size_eq]; rfl, ?_⟩
  show ((s.op op).chunk.writeU16 0xFFFF _).code.toList = _
  rw [Chunk.writeU16, writeBytes_code]
  show (s.op op).bytes ++ _ = _
  simp [bytes_make, hop, Chunk.maxDistance]

theorem patch_eq (offset : Nat) (span : Span) (e : Emitter) :
    patch offset span e =
      if e.size - offset - 2 ≤ Chunk.maxDistance then
        .ok () { e with chunk := e.chunk.setDistance offset (e.size - offset - 2) }
      else .error (jumpTooLong span) e := by
  rw [patch, within, Emitter.patch_eq]
  by_cases hfits : e.size - offset - 2 ≤ Chunk.maxDistance
  · rw [if_pos hfits, if_pos hfits]
  · rw [if_neg hfits, if_neg hfits]

theorem loop_eq (start : Nat) (span : Span) (e : Emitter) :
    loop start span e =
      if e.size + 3 - start ≤ Chunk.maxDistance then
        .ok () (e.opU16 .loop (UInt16.ofNat (e.size + 3 - start)))
      else .error (jumpTooLong span) e := by
  rw [loop, within, Emitter.loop_eq]
  by_cases hfits : e.size + 3 - start ≤ Chunk.maxDistance
  · rw [if_pos hfits, if_pos hfits]
  · rw [if_neg hfits, if_neg hfits]

/-- Filling in a jump makes it land behind what was written after it. -/
theorem patch_eq_ok {op : Opcode} {offset distance : Nat} {before : List UInt8} {c : Code}
    {span : Span} (hop : op.operandSize = 2)
    (hs : s.bytes = before ++ Code.bytes (make op distance :: c))
    (hoffset : offset = before.length + 1) (h : patch offset span s = .ok () t) :
    c.size ≤ Chunk.maxDistance ∧ t.bytes = before ++ Code.bytes (make op c.size :: c) := by
  subst hoffset
  have hdistance : s.size - (before.length + 1) - 2 = c.size := by
    rw [s.size_eq, hs, List.length_append, Code.length_bytes, Code.size_cons, size_make, hop]
    omega
  rw [patch_eq, hdistance] at h
  by_cases hfits : c.size ≤ Chunk.maxDistance
  · rw [if_pos hfits] at h
    obtain ⟨-, rfl⟩ := EStateM.Result.ok.inj h
    refine ⟨hfits, ?_⟩
    have hcode : s.chunk.code.toList =
        before ++ op.toByte :: (Bytes.bigEndian 2 distance ++ Code.bytes c) := by
      rw [← hop]
      exact hs
    show (s.chunk.setDistance _ _).code.toList = _
    rw [Chunk.code_setDistance hcode rfl, Code.bytes_cons, bytes_make, hop]
    rfl
  · rw [if_neg hfits] at h
    cases h

/-- A jump that is filled in at once jumps over the code written since. -/
theorem jumpOver_wrote {op : Opcode} {offset : Nat} {m n : Emitter} {c : Code} {span : Span}
    (hop : op.operandSize = 2) (hjump : jump op s = .ok offset m) (hw : Wrote m n c)
    (hpatch : patch offset span n = .ok () t) :
    c.size ≤ Chunk.maxDistance ∧ Wrote s t (make op c.size :: c) := by
  obtain ⟨hoffset, hm⟩ := jump_eq_ok hop hjump
  exact patch_eq_ok hop (hm.trans hw) hoffset hpatch

/-- Two jumps: the first lands behind the second, which is filled in later. -/
theorem jumpsOver_wrote {toElse toEnd : Nat} {m n n' u u' : Emitter} {b d : Code} {span : Span}
    (hjump : jump .jumpIfFalse s = .ok toElse m) (hw : Wrote m n b)
    (hjump' : jump .jump n = .ok toEnd n') (hpatch : patch toElse span n' = .ok () u)
    (hw' : Wrote u u' d) (hpatch' : patch toEnd span u' = .ok () t) :
    b.size + 3 ≤ Chunk.maxDistance ∧ d.size ≤ Chunk.maxDistance ∧
      Wrote s t (make .jumpIfFalse (b.size + 3) :: (b ++ make .jump d.size :: d)) := by
  obtain ⟨-, hm⟩ := jump_eq_ok rfl hjump
  obtain ⟨hoffset', hn'⟩ := jump_eq_ok rfl hjump'
  have hbody : Wrote m n' (b ++ [make .jump Chunk.maxDistance]) := hw.trans hn'
  have hsize : Code.size (b ++ [make .jump Chunk.maxDistance]) = b.size + 3 := by
    simp [Opcode.operandSize]
  obtain ⟨hfits, hu⟩ := jumpOver_wrote rfl hjump hbody hpatch
  rw [hsize] at hfits hu
  have hu' : u'.bytes = (s.bytes ++ Code.bytes (make .jumpIfFalse (b.size + 3) :: b)) ++
      Code.bytes (make .jump Chunk.maxDistance :: d) := by
    rw [hw', hu]
    simp
  have hend : toEnd =
      (s.bytes ++ Code.bytes (make .jumpIfFalse (b.size + 3) :: b)).length + 1 := by
    rw [hoffset', hw, hm]
    simp [Opcode.operandSize]
  obtain ⟨hfits', ht⟩ := patch_eq_ok rfl hu' hend hpatch'
  refine ⟨hfits, hfits', ?_⟩
  rw [Wrote, ht]
  simp

/-- A jump back carries its own size too. -/
theorem loop_eq_ok {start : Nat} {span : Span} (h : loop start span s = .ok () t) :
    s.bytes.length + 3 - start ≤ Chunk.maxDistance ∧
      Wrote s t [make .loop (s.bytes.length + 3 - start)] := by
  rw [loop_eq, s.size_eq] at h
  by_cases hfits : s.bytes.length + 3 - start ≤ Chunk.maxDistance
  · rw [if_pos hfits] at h
    obtain ⟨-, rfl⟩ := EStateM.Result.ok.inj h
    refine ⟨hfits, ?_⟩
    have hword : (UInt16.ofNat (s.bytes.length + 3 - start)).toNat =
        s.bytes.length + 3 - start := by
      rw [UInt16.toNat_ofNat']
      exact Nat.mod_eq_of_lt (Nat.lt_succ_of_le hfits)
    have hwrote := s.opU16_wrote (UInt16.ofNat (s.bytes.length + 3 - start))
      (show Opcode.loop.operandSize = 2 from rfl)
    rw [hword] at hwrote
    exact hwrote
  · rw [if_neg hfits] at h
    cases h

/-! ### Statements

The walk is the general one, with `writing` as its claim.  It is about steps that succeed,
so nothing has to be known of types or limits.
-/

private theorem assign_wrote {target value : Expr} (span : Span)
    (h : assign g target value s = .ok () t) :
    ∃ c, StmtCode g (.assign target value span) c ∧ Wrote s t c := by
  obtain ⟨place, m, hplace, h⟩ := bind_eq_ok.mp h
  obtain ⟨hkept, rfl⟩ := ofExcept_eq_ok.mp hplace
  obtain ⟨_, m, hvalue, h⟩ := bind_eq_ok.mp h
  obtain ⟨c, hc, hw⟩ := expr_wrote hvalue
  exact ⟨_, .assign span hkept hc, hw.trans (store_wrote h)⟩

private theorem compound_wrote {op : Operator} {target value : Expr} {span : Span}
    (h : compound g op target value span s = .ok () t) :
    ∃ c, StmtCode g (.compound op target value span) c ∧ Wrote s t c := by
  obtain ⟨place, m, hplace, h⟩ := bind_eq_ok.mp h
  obtain ⟨hkept, rfl⟩ := ofExcept_eq_ok.mp hplace
  obtain ⟨opcode, m, hop, h⟩ := bind_eq_ok.mp h
  obtain ⟨hknown, rfl⟩ := opcodeOr_eq_ok.mp hop
  obtain ⟨_, m, hload, h⟩ := bind_eq_ok.mp h
  obtain ⟨_, n, hvalue, h⟩ := bind_eq_ok.mp h
  obtain ⟨_, n', hemit, h⟩ := bind_eq_ok.mp h
  obtain rfl := modify_eq_ok.mp hemit
  obtain ⟨c, hc, hw⟩ := expr_wrote hvalue
  have hsize := Operator.operandSize_of_binaryOpcode? hknown
  exact ⟨_, .compound span hkept hknown hc,
    (load_wrote hload).trans (hw.trans ((op_wrote _ hsize).trans (store_wrote h)))⟩

private theorem ret_wrote {value : Option Expr} (span : Span) (hexit : g.exit.operandSize = 0)
    (h : ret g value s = .ok () t) : ∃ c, StmtCode g (.ret value span) c ∧ Wrote s t c := by
  cases value with
  | none =>
      obtain rfl := modify_eq_ok.mp h
      exact ⟨_, .retNone span, op_wrote _ hexit⟩
  | some value =>
      obtain ⟨_, m, hvalue, h⟩ := bind_eq_ok.mp h
      obtain ⟨_, n, hstore, h⟩ := bind_eq_ok.mp h
      obtain rfl := modify_eq_ok.mp hstore
      obtain rfl := modify_eq_ok.mp h
      obtain ⟨c, hc, hw⟩ := expr_wrote hvalue
      exact ⟨_, .retSome span hc, hw.trans ((m.opByte_wrote .r0 rfl).trans (op_wrote _ hexit))⟩

/-- One case for each intrinsic; with too few arguments there is no code. -/
private theorem intrinsic_wrote {i : Intrinsic} {args : List Expr} {span : Span}
    (h : intrinsic g i args span s = .ok () t) : ∃ c, IntrinsicCode g i args c ∧ Wrote s t c := by
  unfold intrinsic at h
  split at h
  · obtain ⟨r, m, hreg, h⟩ := bind_eq_ok.mp h
    obtain ⟨hnamed, rfl⟩ := ofExcept_eq_ok.mp hreg
    obtain ⟨_, m, hexpected, h⟩ := bind_eq_ok.mp h
    obtain ⟨_, n, hnew, h⟩ := bind_eq_ok.mp h
    obtain rfl := modify_eq_ok.mp h
    obtain ⟨c, hc, hw⟩ := expr_wrote hexpected
    obtain ⟨d, hd, hw'⟩ := expr_wrote hnew
    exact ⟨_, .cas hnamed hc hd, hw.trans (hw'.trans (n.opByte_wrote r rfl))⟩
  · obtain ⟨_, m, hdst, h⟩ := bind_eq_ok.mp h
    obtain ⟨_, n, hsrc, h⟩ := bind_eq_ok.mp h
    obtain ⟨_, n', hlen, h⟩ := bind_eq_ok.mp h
    obtain rfl := modify_eq_ok.mp h
    obtain ⟨c, hc, hw⟩ := expr_wrote hdst
    obtain ⟨d, hd, hw'⟩ := expr_wrote hsrc
    obtain ⟨e, he, hw''⟩ := expr_wrote hlen
    exact ⟨_, .cpy hc hd he, hw.trans (hw'.trans (hw''.trans (op_wrote _ rfl)))⟩
  · obtain ⟨_, m, hvalue, h⟩ := bind_eq_ok.mp h
    obtain rfl := modify_eq_ok.mp h
    obtain ⟨c, hc, hw⟩ := expr_wrote hvalue
    exact ⟨_, .dbg hc, hw.trans (op_wrote _ rfl)⟩
  · obtain ⟨_, m, hvalue, h⟩ := bind_eq_ok.mp h
    obtain rfl := modify_eq_ok.mp h
    obtain ⟨c, hc, hw⟩ := expr_wrote hvalue
    exact ⟨_, .int hc, hw.trans (op_wrote _ rfl)⟩
  · obtain ⟨a, m, hleft, h⟩ := bind_eq_ok.mp h
    obtain ⟨hnamed, rfl⟩ := ofExcept_eq_ok.mp hleft
    obtain ⟨b, m, hright, h⟩ := bind_eq_ok.mp h
    obtain ⟨hnamed', rfl⟩ := ofExcept_eq_ok.mp hright
    obtain rfl := modify_eq_ok.mp h
    exact ⟨_, .xchg hnamed hnamed', s.xchg_wrote a b⟩
  · simp at h

private theorem call_wrote {name : Ident} (args : Arguments) (span : Span)
    (h : call g name s = .ok () t) : ∃ c, StmtCode g (.call name args span) c ∧ Wrote s t c := by
  obtain ⟨index, m, hindex, h⟩ := bind_eq_ok.mp h
  obtain ⟨hknown, rfl⟩ := ofExcept_eq_ok.mp hindex
  obtain rfl := modify_eq_ok.mp h
  exact ⟨_, .call args span hknown, s.opU16_wrote index rfl⟩

/-- A condition is followed by a jump over the body. -/
theorem ifThen_writes {cond : Expr} {body : Block} {x y : Generating Unit} (span : Span)
    (hx : Writes (ExprCode g cond) x) (hy : Writes (BlockCode g body) y) :
    Writes (StmtCode g (.ifThen cond body span)) (ifThen x y span) := by
  intro s t h
  obtain ⟨_, m, hcond, h⟩ := bind_eq_ok.mp h
  obtain ⟨toEnd, m', hjump, h⟩ := bind_eq_ok.mp h
  obtain ⟨_, n, hbody, hpatch⟩ := bind_eq_ok.mp h
  obtain ⟨c, hc, hw⟩ := hx hcond
  obtain ⟨b, hb, hw'⟩ := hy hbody
  obtain ⟨hfits, ht⟩ := jumpOver_wrote rfl hjump hw' hpatch
  exact ⟨_, .ifThen span hc hb hfits, hw.trans ht⟩

/-- The first body ends with a jump over the second. -/
theorem ifElse_writes {cond : Expr} {body elseBody : Block} {x y z : Generating Unit} (line : Nat)
    (ifSpan span : Span) (hx : Writes (ExprCode g cond) x) (hy : Writes (BlockCode g body) y)
    (hz : Writes (BlockCode g elseBody) z) :
    Writes (StmtCode g (.ifElse cond body ifSpan elseBody span)) (ifElse x y z line span) := by
  intro s t h
  obtain ⟨_, m, hcond, h⟩ := bind_eq_ok.mp h
  obtain ⟨toElse, m', hjump, h⟩ := bind_eq_ok.mp h
  obtain ⟨_, n, hbody, h⟩ := bind_eq_ok.mp h
  obtain ⟨_, n', hline, h⟩ := bind_eq_ok.mp h
  obtain rfl := modify_eq_ok.mp hline
  obtain ⟨toEnd, n', hjump', h⟩ := bind_eq_ok.mp h
  obtain ⟨_, u, hpatch, h⟩ := bind_eq_ok.mp h
  obtain ⟨_, u', helse, hpatch'⟩ := bind_eq_ok.mp h
  obtain ⟨c, hc, hw⟩ := hx hcond
  obtain ⟨b, hb, hw'⟩ := hy hbody
  obtain ⟨d, hd, hw''⟩ := hz helse
  have hlined : Wrote m' (n.setLine line) b := hw'
  obtain ⟨hfits, hfits', ht⟩ := jumpsOver_wrote hjump hlined hjump' hpatch hw'' hpatch'
  exact ⟨_, .ifElse ifSpan span hc hb hd hfits hfits', hw.trans ht⟩

/-- A body that is repeated ends with a jump back to the condition. -/
theorem whileLoop_writes {cond : Expr} {body : Block} {x y : Generating Unit} (span : Span)
    (hx : Writes (ExprCode g cond) x) (hy : Writes (BlockCode g body) y) :
    Writes (StmtCode g (.whileLoop cond body span)) (whileLoop x y span) := by
  intro s t h
  obtain ⟨start, s', hget, h⟩ := bind_eq_ok.mp h
  obtain ⟨rfl, rfl⟩ := get_eq_ok.mp hget
  obtain ⟨_, m, hcond, h⟩ := bind_eq_ok.mp h
  obtain ⟨toEnd, m', hjump, h⟩ := bind_eq_ok.mp h
  obtain ⟨_, n, hbody, h⟩ := bind_eq_ok.mp h
  obtain ⟨_, n', hline, h⟩ := bind_eq_ok.mp h
  obtain rfl := modify_eq_ok.mp hline
  obtain ⟨_, u, hloop, hpatch⟩ := bind_eq_ok.mp h
  obtain ⟨c, hc, hw⟩ := hx hcond
  obtain ⟨b, hb, hw'⟩ := hy hbody
  obtain ⟨hfits, hu⟩ := loop_eq_ok hloop
  -- The way back covers the condition, the jump behind it, the body and itself.
  have hdistance : (n.setLine span.line).bytes.length + 3 - s.size = c.size + 3 + (b.size + 3) := by
    rw [Emitter.size_eq, Emitter.bytes_setLine, hw', (jump_eq_ok rfl hjump).2, hw]
    simp [Opcode.operandSize]
    omega
  rw [hdistance] at hfits hu
  obtain ⟨-, ht⟩ := jumpOver_wrote rfl hjump (hw'.trans hu) hpatch
  have hsize : Code.size (b ++ [make .loop (c.size + 3 + (b.size + 3))]) = b.size + 3 := by
    simp [Opcode.operandSize]
  rw [hsize] at ht
  exact ⟨_, .whileLoop span hc hb hfits, hw.trans ht⟩

/-- The step for each part of a program writes the code of that part. -/
abbrev writing (g : CodeContext) : Claim where
  code s := Writes (StmtCode g s)
  stmt s := Writes (StmtCode g s)
  block b := Writes (BlockCode g b)
  stmts body := Writes (StmtsCode g body)

private theorem writing_rules (hexit : g.exit.operandSize = 0) : (writing g).Rules g where
  assign _ _ span := fun _ _ h => assign_wrote span h
  compound _ _ _ _ := fun _ _ h => compound_wrote h
  ifThen _ _ span hbody := ifThen_writes span (fun _ _ => expr_wrote) hbody
  ifElse _ _ ifSpan elseBody span hbody helse :=
    ifElse_writes elseBody.span.line ifSpan span (fun _ _ => expr_wrote) hbody helse
  whileLoop _ _ span hbody := whileLoop_writes span (fun _ _ => expr_wrote) hbody
  func name body span := by
    intro s t h
    obtain ⟨-, rfl⟩ := pure_eq_ok.mp h
    exact ⟨_, .func name body span, by simp [Wrote]⟩
  ret _ span := fun _ _ h => ret_wrote span hexit h
  intrinsic _ _ span := by
    intro s t h
    obtain ⟨c, hc, hw⟩ := intrinsic_wrote h
    exact ⟨c, .intrinsic span hc, hw⟩
  call _ args span := fun _ _ h => call_wrote args span h
  -- Setting the line writes no code.
  line st x hx := by
    intro s t h
    obtain ⟨_, s', hline, h⟩ := bind_eq_ok.mp h
    obtain rfl := modify_eq_ok.mp hline
    obtain ⟨c, hc, hw⟩ := hx h
    exact ⟨c, hc, hw⟩
  block decls _ span hbody := by
    intro s t h
    obtain ⟨c, hc, hw⟩ := hbody h
    exact ⟨c, .mk decls span hc, hw⟩
  nil := by
    intro s t h
    obtain ⟨-, rfl⟩ := pure_eq_ok.mp h
    exact ⟨_, .nil, by simp [Wrote]⟩
  cons _ _ hs hrest := by
    intro s t h
    obtain ⟨_, m, hst, h⟩ := bind_eq_ok.mp h
    obtain ⟨c, hc, hw⟩ := hs hst
    obtain ⟨d, hd, hw'⟩ := hrest h
    exact ⟨_, .cons hc hd, hw.trans hw'⟩

/-- **Writing a block writes its code.** -/
theorem block_wrote (hexit : g.exit.operandSize = 0) (body : Block) :
    Writes (BlockCode g body) (block g body) := (writing_rules hexit).blocks body

/-- A section is the code of its block with the way out behind it. -/
theorem sectionCode_eq_ok {body : Block} {chunk : Chunk} (hexit : g.exit.operandSize = 0)
    (h : sectionCode g body = .ok chunk) :
    ∃ c, BlockCode g body c ∧ chunk.code.toList = Code.bytes (c ++ [make g.exit 0]) := by
  simp only [sectionCode] at h
  split at h
  · rename_i e hwritten
    simp only [Except.ok.injEq] at h
    subst h
    obtain ⟨_, m, hblock, hemit⟩ := bind_eq_ok.mp hwritten
    obtain rfl := modify_eq_ok.mp hemit
    obtain ⟨c, hc, hw⟩ := block_wrote hexit body hblock
    exact ⟨c, hc, hw.trans (m.op_wrote hexit)⟩
  · simp at h

end Codegen

end StackCode
