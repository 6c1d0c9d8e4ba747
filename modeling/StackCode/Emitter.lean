/-
Emitting instructions: a chunk that grows, and the source line that new
instructions belong to.
-/
import StackCode.Chunk
import StackCode.Register

namespace StackCode

/-- A chunk being written. -/
structure Emitter where
  chunk : Chunk
  /-- The line of the next instruction. -/
  line : UInt32
deriving DecidableEq, Repr

namespace Emitter

/-- Nothing written yet. -/
def start : Emitter := ⟨.empty, 1⟩

def size (e : Emitter) : Nat := e.chunk.size

/-- Let what follows belong to a line. -/
def setLine (e : Emitter) (line : Nat) : Emitter := { e with line := UInt32.ofNat line }

/-! ### Instructions -/

/-- An instruction without operands. -/
def op (e : Emitter) (op : Opcode) : Emitter := { e with chunk := e.chunk.writeOp op e.line }

/-- A byte of an operand. -/
def byte (e : Emitter) (b : UInt8) : Emitter := { e with chunk := e.chunk.writeByte b e.line }

/-- An instruction with a one-byte operand. -/
def opByte (e : Emitter) (op : Opcode) (b : UInt8) : Emitter := (e.op op).byte b

/-- An instruction with a two-byte operand. -/
def opU16 (e : Emitter) (op : Opcode) (n : UInt16) : Emitter :=
  let e := e.op op
  { e with chunk := e.chunk.writeU16 n e.line }

/-- Push an integer; 0 and 1 have instructions of their own. -/
def int (e : Emitter) (n : UInt64) : Emitter :=
  if n = 0 then e.op .pushZero
  else if n = 1 then e.op .pushOne
  else
    let e := e.op .pushInt
    { e with chunk := e.chunk.writeU64 n e.line }

/-- Push a boolean. -/
def bool (e : Emitter) (b : Bool) : Emitter := e.op (if b then .pushTrue else .pushFalse)

def loadReg (e : Emitter) (r : Register) : Emitter := e.opByte .loadReg r.toByte

def storeReg (e : Emitter) (r : Register) : Emitter := e.opByte .storeReg r.toByte

def loadVar (e : Emitter) (slot : UInt16) : Emitter := e.opU16 .loadVar slot

def storeVar (e : Emitter) (slot : UInt16) : Emitter := e.opU16 .storeVar slot

/-- Call a code section. -/
def call (e : Emitter) (index : UInt16) : Emitter := e.opU16 .call index

def cas (e : Emitter) (r : Register) : Emitter := e.opByte .cas r.toByte

def xchg (e : Emitter) (a b : Register) : Emitter := ((e.op .xchg).byte a.toByte).byte b.toByte

/-! ### Jumps -/

/-- A forward jump to be patched; the answer has the offset of its operand. -/
def jump (e : Emitter) (op : Opcode) : Emitter × Nat :=
  let (chunk, offset) := e.chunk.jump op e.line
  ({ e with chunk }, offset)

/-- A step that writes, and may find a jump too long. -/
abbrev Jumping := EStateM DistanceOverflow Emitter

/-- Do something with the chunk, which stays as that leaves it also after an error. -/
def onChunk {α : Type} (step : Chunk.Jumping α) : Jumping α := fun e =>
  match step e.chunk with
  | .ok a chunk => .ok a { e with chunk }
  | .error overflow chunk => .error overflow { e with chunk }

/-- Let the jump whose operand is at `offset` land on the next instruction. -/
def patch (offset : Nat) : Jumping Unit := onChunk (Chunk.patch offset)

/-- A jump back to `start`. -/
def loop (start : Nat) : Jumping Unit := fun e => onChunk (Chunk.loop start e.line) e

theorem patch_eq (offset : Nat) (e : Emitter) :
    patch offset e =
      if e.size - offset - 2 ≤ Chunk.maxDistance then
        .ok () { e with chunk := e.chunk.setDistance offset (e.size - offset - 2) }
      else .error ⟨e.size - offset - 2⟩ e := by
  rw [patch, onChunk, Chunk.patch_eq]
  by_cases h : e.chunk.size - offset - 2 ≤ Chunk.maxDistance
  · rw [if_pos h]
    exact (if_pos h).symm
  · rw [if_neg h]
    exact (if_neg h).symm

theorem loop_eq (start : Nat) (e : Emitter) :
    loop start e =
      if e.size + 3 - start ≤ Chunk.maxDistance then
        .ok () (e.opU16 .loop (UInt16.ofNat (e.size + 3 - start)))
      else .error ⟨e.size + 3 - start⟩ e := by
  rw [loop, onChunk, Chunk.loop_eq]
  by_cases h : e.chunk.size + 3 - start ≤ Chunk.maxDistance
  · rw [if_pos h]
    exact (if_pos h).symm
  · rw [if_neg h]
    exact (if_neg h).symm

end Emitter

end StackCode
