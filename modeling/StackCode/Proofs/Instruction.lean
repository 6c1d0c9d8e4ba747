/-
Code as a list of instructions.

A section is a string of bytes, and nothing in a byte says whether it is an opcode
or part of an operand.  What the bytes mean is fixed by reading them from the
start: an opcode, then as many operand bytes as it calls for, then the next
opcode.  `sweep` is that reading.

Two facts are needed of it.

  * Instructions written one after another are read back as they were written
    (`Code.sweep_bytes`).
  * Reading may start at any of them: the instruction at its offset is the same
    one that the sweep finds there (`Code.fetch?_bytes`).

Everything else about code is then said of instructions, and bytes are only met
again where code is written.
-/
import StackCode.Bytes
import StackCode.Chunk.Listing
import StackCode.Opcode
import StackCode.Operator
import StackCode.Register

namespace StackCode

/-! ### Opcodes of operators

What the machine computes is said of operators, and these two tables are the machine's own:
they say which operator an opcode applies.  That the compiler picks an opcode for an operator
by the same table is a theorem (`Operator.binaryOpcode?_eq_some_iff`).
-/

namespace Opcode

/-- The operator that an instruction applies to two operands. -/
def binary? : Opcode → Option Operator
  | add => some .add
  | sub => some .sub
  | mul => some .mul
  | div => some .div
  | mod => some .mod
  | pow => some .pow
  | bitAnd => some .bitAnd
  | bitOr => some .bitOr
  | bitXor => some .xor
  | logicalAnd => some .logicalAnd
  | logicalOr => some .logicalOr
  | shl => some .shiftLeft
  | shr => some .shiftRight
  | rol => some .rotateLeft
  | ror => some .rotateRight
  | eq => some .equal
  | ne => some .notEqual
  | lt => some .less
  | le => some .lessEqual
  | gt => some .greater
  | ge => some .greaterEqual
  | _ => none

/-- The operator that an instruction applies to one operand. -/
def unary? : Opcode → Option Operator
  | neg => some .negate
  | not => some .not
  | _ => none

end Opcode

/-! ### Instructions

The operand is kept as bytes and its length in the type, so that there is no instruction
that cannot be written.  `make` and `value` pass between operands and numbers; they agree
for numbers that the operand has room for.
-/

/-- An opcode with the operand bytes that it calls for. -/
structure Instruction where
  op : Opcode
  operand : List UInt8
  /-- No operand byte is missing and none is left over. -/
  complete : operand.length = op.operandSize
deriving DecidableEq

namespace Instruction

/-- The instruction of an opcode with a number as its operand, cut to the operand's width. -/
def make (op : Opcode) (value : Nat) : Instruction :=
  ⟨op, Bytes.bigEndian op.operandSize value, by simp⟩

/-- The instruction as it stands in code. -/
def bytes (i : Instruction) : List UInt8 := i.op.toByte :: i.operand

/-- How many bytes the instruction takes. -/
def size (i : Instruction) : Nat := 1 + i.op.operandSize

/-- The operand as a number. -/
def value (i : Instruction) : Nat := Bytes.ofBigEndian i.operand

@[simp] theorem length_bytes (i : Instruction) : i.bytes.length = i.size := by
  simp [bytes, size, i.complete, Nat.add_comm]

@[simp] theorem make_op (op : Opcode) (value : Nat) : (make op value).op = op := rfl

@[simp] theorem size_make (op : Opcode) (value : Nat) :
    (make op value).size = 1 + op.operandSize := rfl

theorem bytes_make (op : Opcode) (value : Nat) :
    (make op value).bytes = op.toByte :: Bytes.bigEndian op.operandSize value := rfl

/-- An operand that is wide enough holds the number. -/
theorem value_make_of_lt {op : Opcode} {n : Nat} (h : n < Bytes.capacity op.operandSize) :
    (make op n).value = n :=
  Bytes.ofBigEndian_bigEndian h

theorem value_make_register {op : Opcode} (h : op.operandSize = 1) (r : Register) :
    (make op r.index).value = r.index := by
  refine value_make_of_lt ?_
  have := r.index_le
  rw [h]
  exact Nat.lt_of_le_of_lt this (by decide)

theorem value_make_word {op : Opcode} {n : Nat} (h : op.operandSize = 2)
    (hn : n ≤ Chunk.maxDistance) : (make op n).value = n := by
  refine value_make_of_lt ?_
  rw [h]
  exact Nat.lt_of_le_of_lt hn (by decide)

theorem value_make_uint16 {op : Opcode} (h : op.operandSize = 2) (n : UInt16) :
    (make op n.toNat).value = n.toNat :=
  value_make_word h (Nat.le_of_lt_succ n.toNat_lt)

theorem operand_make_register {op : Opcode} (h : op.operandSize = 1) (r : Register) :
    (make op r.index).operand = [r.toByte] := by
  simp [make, h, Bytes.bigEndian, Bytes.littleEndian, Register.toByte]

/-- Two registers share an operand, each in a byte of its own. -/
theorem operand_make_registers {op : Opcode} (h : op.operandSize = 2) (a b : Register) :
    (make op (256 * a.index + b.index)).operand = [a.toByte, b.toByte] := by
  have ha := a.index_le
  have hb := b.index_le
  have hdiv : (256 * a.index + b.index) / 256 = a.index := by omega
  have hmod : UInt8.ofNat (256 * a.index + b.index) = UInt8.ofNat b.index := by
    apply UInt8.toNat_inj.mp
    simp
  simp [make, h, Bytes.bigEndian, Bytes.littleEndian, Register.toByte, hdiv, hmod]

theorem size_pos (i : Instruction) : 0 < i.size := by
  unfold size
  omega

/-! ### Reading

`read?` takes one instruction off the front.  It may fail in two ways, on a byte that is no
opcode and on an operand that is cut off, and after what `bytes` wrote it fails in neither.
-/

/-- The instruction that bytes start with, and the bytes after it. -/
def read? : List UInt8 → Option (Instruction × List UInt8)
  | [] => none
  | b :: bs =>
    match Opcode.ofByte? b with
    | none => none
    | some op =>
      if h : (bs.take op.operandSize).length = op.operandSize then
        some (⟨op, bs.take op.operandSize, h⟩, bs.drop op.operandSize)
      else none

/-- What is read is what was written, whatever follows it. -/
theorem read?_bytes (i : Instruction) (rest : List UInt8) :
    read? (i.bytes ++ rest) = some (i, rest) := by
  obtain ⟨op, operand, hlen⟩ := i
  have htake : (operand ++ rest).take op.operandSize = operand := by
    rw [← hlen]
    exact List.take_left
  have hdrop : (operand ++ rest).drop op.operandSize = rest := by
    rw [← hlen]
    exact List.drop_left
  show read? (op.toByte :: (operand ++ rest)) = _
  simp [read?, htake, hdrop, hlen]

/-- Reading takes something. -/
theorem length_lt_of_read? {bs rest : List UInt8} {i : Instruction}
    (h : read? bs = some (i, rest)) : rest.length < bs.length := by
  cases bs with
  | nil => simp [read?] at h
  | cons b bs =>
      simp only [read?] at h
      split at h
      · simp at h
      · split at h
        · simp only [Option.some.injEq, Prod.mk.injEq] at h
          obtain ⟨-, rfl⟩ := h
          simp only [List.length_drop, List.length_cons]
          omega
        · simp at h

/-- The instructions that bytes hold from the first byte to the last, if they hold nothing else. -/
def sweep (bs : List UInt8) : Option (List Instruction) :=
  match bs with
  | [] => some []
  | b :: bs =>
    match _h : read? (b :: bs) with
    | none => none
    | some (i, rest) => (sweep rest).map (i :: ·)
termination_by bs.length
decreasing_by exact length_lt_of_read? _h

/-- The instruction that starts at an offset. -/
def fetch? (bs : List UInt8) (offset : Nat) : Option Instruction :=
  (read? (bs.drop offset)).map (·.1)

end Instruction

/-! ### Code

`Code.At` and `Code.Holds` say where in the code something stands, by what is before and
behind it and not by an index.  So a statement about a part of some code can be used for the
whole, with the offset added.
-/

/-- Instructions in the order in which they stand. -/
abbrev Code := List Instruction

namespace Code

/-- The bytes of the code. -/
def bytes (c : Code) : List UInt8 := c.flatMap Instruction.bytes

/-- How many bytes the code takes. -/
def size : Code → Nat
  | [] => 0
  | i :: c => i.size + size c

@[simp] theorem bytes_nil : bytes [] = [] := rfl

@[simp] theorem bytes_cons (i : Instruction) (c : Code) : bytes (i :: c) = i.bytes ++ bytes c := by
  simp [bytes]

@[simp] theorem bytes_append (c d : Code) : bytes (c ++ d) = bytes c ++ bytes d := by
  simp [bytes]

@[simp] theorem size_nil : size [] = 0 := rfl

@[simp] theorem size_cons (i : Instruction) (c : Code) : size (i :: c) = i.size + size c := rfl

@[simp] theorem size_append (c d : Code) : size (c ++ d) = size c + size d := by
  induction c with
  | nil => simp
  | cons i c ih => rw [List.cons_append, size_cons, size_cons, ih, Nat.add_assoc]

@[simp] theorem length_bytes (c : Code) : c.bytes.length = c.size := by
  induction c with
  | nil => rfl
  | cons i c ih => rw [bytes_cons, List.length_append, Instruction.length_bytes, ih, size_cons]

/-- `i` stands in the code, and starts at `offset`. -/
def At (c : Code) (offset : Nat) (i : Instruction) : Prop :=
  ∃ before after, c = before ++ i :: after ∧ size before = offset

theorem At.intro (before after : Code) (i : Instruction) :
    At (before ++ i :: after) (size before) i := ⟨before, after, rfl, rfl⟩

/-- Where an instruction starts is inside the code. -/
theorem At.lt {c : Code} {offset : Nat} {i : Instruction} (h : At c offset i) :
    offset < c.size := by
  obtain ⟨before, after, rfl, rfl⟩ := h
  have := i.size_pos
  simp only [size_append, size_cons]
  omega

/-- `part` stands in the code, and starts at `offset`. -/
def Holds (c : Code) (offset : Nat) (part : Code) : Prop :=
  ∃ before after, c = before ++ (part ++ after) ∧ size before = offset

namespace Holds

variable {c part part' : Code} {offset : Nat} {i : Instruction}

theorem self (c : Code) : Holds c 0 c := ⟨[], [], by simp, rfl⟩

theorem left (h : Holds c offset (part ++ part')) : Holds c offset part := by
  obtain ⟨before, after, rfl, rfl⟩ := h
  exact ⟨before, part' ++ after, by simp, rfl⟩

theorem right (h : Holds c offset (part ++ part')) : Holds c (offset + part.size) part' := by
  obtain ⟨before, after, rfl, rfl⟩ := h
  exact ⟨before ++ part, after, by simp, by simp⟩

theorem head (h : Holds c offset (i :: part)) : At c offset i := by
  obtain ⟨before, after, rfl, rfl⟩ := h
  exact At.intro before (part ++ after) i

theorem tail (h : Holds c offset (i :: part)) : Holds c (offset + i.size) part := by
  obtain ⟨before, after, rfl, rfl⟩ := h
  exact ⟨before ++ [i], after, by simp, by simp⟩

end Holds

/-- **Written code is read back from its start.** -/
theorem sweep_bytes (c : Code) : Instruction.sweep c.bytes = some c := by
  induction c with
  | nil => simp [Instruction.sweep]
  | cons i c ih =>
      have hread := Instruction.read?_bytes i (bytes c)
      rw [bytes_cons]
      obtain ⟨b, bs, hbs⟩ : ∃ b bs, i.bytes ++ bytes c = b :: bs := ⟨_, _, rfl⟩
      rw [hbs] at hread ⊢
      rw [Instruction.sweep]
      split
      · rename_i h
        rw [hread] at h
        simp at h
      · rename_i j rest h
        rw [hread] at h
        simp only [Option.some.injEq, Prod.mk.injEq] at h
        obtain ⟨rfl, rfl⟩ := h
        rw [ih]
        rfl

/-- Written code is read back from the offset of any of its instructions. -/
theorem fetch?_bytes {c : Code} {offset : Nat} {i : Instruction} (h : At c offset i) :
    Instruction.fetch? c.bytes offset = some i := by
  obtain ⟨before, after, rfl, rfl⟩ := h
  have hdrop : (bytes (before ++ i :: after)).drop (size before) = i.bytes ++ bytes after := by
    rw [bytes_append, bytes_cons]
    rw [← length_bytes]
    exact List.drop_left
  rw [Instruction.fetch?, hdrop, Instruction.read?_bytes]
  rfl

end Code

end StackCode
