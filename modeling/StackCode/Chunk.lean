/-
Chunks: the code of one section, byte by byte, with the source line of each byte.

A forward jump is written before its distance is known: it gets a placeholder, and
is patched once the code it jumps over has been written.  A distance is counted
from the end of the operand and has two bytes, so a jump can be too long.  `patch` and
`loop` report that, and leave a chunk behind also then; the distance is tested before
anything is written, so it is the chunk that was there.
-/
import StackCode.Bytes
import StackCode.Opcode

namespace StackCode

/-- The distance of a jump does not fit its operand. -/
structure DistanceOverflow where
  distance : Nat
deriving DecidableEq, Repr

/-- Code with a source line for every byte. -/
structure Chunk where
  code : Array UInt8
  /-- The line of the byte at the same place in `code`. -/
  lines : Array UInt32
  size_lines : lines.size = code.size
deriving DecidableEq, Repr

namespace Chunk

def empty : Chunk := ⟨#[], #[], rfl⟩

def size (c : Chunk) : Nat := c.code.size

/-! ### Writing -/

/-- Write one byte. -/
def writeByte (c : Chunk) (b : UInt8) (line : UInt32) : Chunk where
  code := c.code.push b
  lines := c.lines.push line
  size_lines := by simp [c.size_lines]

/-- Write bytes in order. -/
def writeBytes (c : Chunk) (bs : List UInt8) (line : UInt32) : Chunk :=
  bs.foldl (fun c b => c.writeByte b line) c

/-- Write an opcode. -/
def writeOp (c : Chunk) (op : Opcode) (line : UInt32) : Chunk := c.writeByte op.toByte line

/-- Write a two-byte operand. -/
def writeU16 (c : Chunk) (n : UInt16) (line : UInt32) : Chunk :=
  c.writeBytes (Bytes.bigEndian 2 n.toNat) line

/-- Write an eight-byte operand. -/
def writeU64 (c : Chunk) (n : UInt64) (line : UInt32) : Chunk :=
  c.writeBytes (Bytes.bigEndian 8 n.toNat) line

/-! ### Jumps -/

/-- The greatest distance of a jump. -/
def maxDistance : Nat := 65535

/-- Write a jump with a placeholder for its distance; the answer has the operand's offset. -/
def jump (c : Chunk) (op : Opcode) (line : UInt32) : Chunk × Nat :=
  let offset := c.size + 1
  ((c.writeOp op line).writeU16 0xFFFF line, offset)

/-- Put a distance into the two-byte operand at an offset. -/
def setDistance (c : Chunk) (offset distance : Nat) : Chunk :=
  { c with
    code := (c.code.setIfInBounds offset (UInt8.ofNat (distance / 256))).setIfInBounds
      (offset + 1) (UInt8.ofNat distance)
    size_lines := by simp [c.size_lines] }

/-- A step that changes a chunk, and may find a jump too long. -/
abbrev Jumping := EStateM DistanceOverflow Chunk

/-- The operand for a distance, or the report that there is none. -/
def operandOf (distance : Nat) : Jumping UInt16 :=
  if distance ≤ maxDistance then pure (UInt16.ofNat distance) else throw ⟨distance⟩

/-- Let the jump whose operand is at `offset` land at the end of the code. -/
def patch (offset : Nat) : Jumping Unit := do
  let operand ← operandOf ((← get).size - offset - 2)
  modify (·.setDistance offset operand.toNat)

/-- Write a jump back to `start`. -/
def loop (start : Nat) (line : UInt32) : Jumping Unit := do
  -- The jump itself takes three bytes.
  let operand ← operandOf ((← get).size + 3 - start)
  modify (·.writeOp .loop line)
  modify (·.writeU16 operand line)

section Lemmas

variable {distance : Nat}

theorem operandOf_of_le (h : distance ≤ maxDistance) (c : Chunk) :
    operandOf distance c = .ok (UInt16.ofNat distance) c := by
  rw [operandOf, if_pos h]
  rfl

theorem operandOf_of_lt (h : maxDistance < distance) (c : Chunk) :
    operandOf distance c = .error ⟨distance⟩ c := by
  rw [operandOf, if_neg (Nat.not_le.mpr h)]
  rfl

theorem patch_eq (offset : Nat) (c : Chunk) :
    patch offset c =
      if c.size - offset - 2 ≤ maxDistance then
        .ok () (c.setDistance offset (c.size - offset - 2))
      else .error ⟨c.size - offset - 2⟩ c := by
  show (operandOf (c.size - offset - 2) >>= fun operand => _) c = _
  by_cases h : c.size - offset - 2 ≤ maxDistance
  · have hword : (UInt16.ofNat (c.size - offset - 2)).toNat = c.size - offset - 2 :=
      UInt16.toNat_ofNat_of_lt' (Nat.lt_succ_of_le h)
    rw [if_pos h]
    simp only [bind, EStateM.bind, operandOf_of_le h]
    show EStateM.Result.ok () _ = _
    rw [hword]
  · rw [if_neg h]
    simp only [bind, EStateM.bind, operandOf_of_lt (Nat.lt_of_not_le h)]

theorem loop_eq (start : Nat) (line : UInt32) (c : Chunk) :
    loop start line c =
      if c.size + 3 - start ≤ maxDistance then
        .ok () ((c.writeOp .loop line).writeU16 (UInt16.ofNat (c.size + 3 - start)) line)
      else .error ⟨c.size + 3 - start⟩ c := by
  show (operandOf (c.size + 3 - start) >>= fun operand => _) c = _
  by_cases h : c.size + 3 - start ≤ maxDistance
  · rw [if_pos h]
    simp only [bind, EStateM.bind, operandOf_of_le h]
    rfl
  · rw [if_neg h]
    simp only [bind, EStateM.bind, operandOf_of_lt (Nat.lt_of_not_le h)]

end Lemmas

/-! ### Reading -/

def lineAt? (c : Chunk) (offset : Nat) : Option UInt32 := c.lines[offset]?

def readByte? (c : Chunk) (offset : Nat) : Option UInt8 := c.code[offset]?

/-- The number in `width` bytes from an offset on. -/
def readNumber? (c : Chunk) (width offset : Nat) : Option Nat :=
  if offset + width ≤ c.size then
    some (Bytes.ofBigEndian (c.code.extract offset (offset + width)).toList)
  else none

/-- The two-byte operand at an offset. -/
def readU16? (c : Chunk) (offset : Nat) : Option UInt16 :=
  (c.readNumber? 2 offset).map UInt16.ofNat

/-- The eight-byte operand at an offset. -/
def readU64? (c : Chunk) (offset : Nat) : Option UInt64 :=
  (c.readNumber? 8 offset).map UInt64.ofNat

def readOp? (c : Chunk) (offset : Nat) : Option Opcode := (c.readByte? offset).bind Opcode.ofByte?

/-- The line table of bytes from `offset` on, after the entries in `done`, the last one first. -/
def lineTableFrom (done : List (UInt32 × UInt32)) : Nat → List UInt32 → List (UInt32 × UInt32)
  | _, [] => done.reverse
  | offset, line :: rest =>
    if done.head?.any (·.2 == line) then lineTableFrom done (offset + 1) rest
    else lineTableFrom ((UInt32.ofNat offset, line) :: done) (offset + 1) rest

/-- Where the line changes: offsets, each with the line from there on. -/
def lineTable (c : Chunk) : List (UInt32 × UInt32) := lineTableFrom [] 0 c.lines.toList

/--
The opcodes in code of which `skip` bytes are operands still, after those in `done`,
the last one first.  A byte that is no opcode is passed over.
-/
def opcodesFrom (done : List Opcode) : (skip : Nat) → List UInt8 → List Opcode
  | _, [] => done.reverse
  | skip + 1, _ :: bs => opcodesFrom done skip bs
  | 0, b :: bs =>
    match Opcode.ofByte? b with
    | some op => opcodesFrom (op :: done) op.operandSize bs
    | none => opcodesFrom done 0 bs

/-- The opcodes of the code, in order. -/
def opcodes (c : Chunk) : List Opcode := opcodesFrom [] 0 c.code.toList

end Chunk

end StackCode
