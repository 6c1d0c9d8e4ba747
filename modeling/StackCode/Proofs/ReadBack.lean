/-
Code is read back as it was emitted.

An emitter is asked for one instruction after another, and what it writes is a string of
bytes.  Nothing in a byte says whether it is an opcode, and an operand may hold any bytes at
all.  Reading finds the instructions again because reading and writing agree how long every
operand is, and they have to go on agreeing while operands in the middle of the code are
filled in later.

Beside the emitter stands a `Journal`.  It has an `Entry` for each instruction, with what was
asked for in place of bytes: a register, a number, where a jump goes back to, or where the
code ended when a jump was last patched.  The journal decides on its own which jumps are too
long.  Emitter and journal answer every call alike (`perform_agrees`), and the code is at
all times what the entries spell (`Journal.Describes`).
-/
import StackCode.Proofs.Lowering

namespace StackCode

/-! ### Reading off a chunk

A reader of opcodes skips as many bytes as the opcode says, and `opcodesFrom` counts them
down.  Operands are read at an offset, so what is known of the code is how it splits there.
-/

namespace Chunk

/-- Operand bytes are no opcodes for `opcodesFrom`, whatever they are. -/
theorem opcodesFrom_skip (done : List Opcode) (operand rest : List UInt8) :
    opcodesFrom done operand.length (operand ++ rest) = opcodesFrom done 0 rest := by
  induction operand with
  | nil => rfl
  | cons b operand ih => exact ih

/-- `opcodesFrom` finds the opcodes of complete instructions in their order. -/
theorem opcodesFrom_bytes (c : Code) :
    ∀ done, opcodesFrom done 0 c.bytes = done.reverse ++ c.map (·.op) := by
  induction c with
  | nil =>
      intro done
      simp [opcodesFrom]
  | cons i c ih =>
      intro done
      rw [Code.bytes_cons]
      show opcodesFrom done 0 (i.op.toByte :: (i.operand ++ Code.bytes c)) = _
      rw [opcodesFrom, Opcode.ofByte?_toByte]
      show opcodesFrom (i.op :: done) i.op.operandSize (i.operand ++ Code.bytes c) = _
      rw [← i.complete, opcodesFrom_skip, ih, List.reverse_cons, List.map_cons, List.append_assoc,
        List.singleton_append]

variable {c : Chunk} {before after : List UInt8}

private theorem readByte?_of_append {b : UInt8} (h : c.code.toList = before ++ b :: after) :
    c.readByte? before.length = some b := by
  rw [readByte?, ← Array.getElem?_toList, h]
  simp

private theorem readNumber?_of_append {width n : Nat} (hn : n < Bytes.capacity width)
    (h : c.code.toList = before ++ (Bytes.bigEndian width n ++ after)) :
    c.readNumber? width before.length = some n := by
  have hsize : before.length + width ≤ c.size := by
    rw [size, ← Array.length_toList, h]
    simp
  have hextract : (c.code.extract before.length (before.length + width)).toList =
      Bytes.bigEndian width n := by
    rw [Array.toList_extract, h, List.extract_eq_take_drop, List.drop_left, Nat.add_sub_cancel_left]
    exact List.take_left' (Bytes.length_bigEndian width n)
  rw [readNumber?, if_pos hsize, hextract, Bytes.ofBigEndian_bigEndian hn]

/-- The line of every byte that is written is the one given. -/
theorem lines_writeBytes (bs : List UInt8) (line : UInt32) : ∀ c : Chunk,
    (c.writeBytes bs line).lines.toList = c.lines.toList ++ List.replicate bs.length line := by
  induction bs with
  | nil =>
      intro c
      simp [writeBytes]
  | cons b bs ih =>
      intro c
      show ((c.writeByte b line).writeBytes bs line).lines.toList = _
      rw [ih]
      simp [writeByte, List.replicate_succ]

end Chunk

namespace Emitter

/-! ### Calls

A `Call` carries the proof that its operand is of the size that the opcode asks for; a call
with another size would be a mistake of the caller.  Two calls depend on what was done
before, and `Allows` has their conditions: a label must have been given, and a loop must not
go forward.
-/

/-- What can be asked of an emitter.  An opcode comes with operands of the size it calls for. -/
inductive Call where
  | setLine (line : Nat)
  | op (op : Opcode) (size : op.operandSize = 0)
  | opByte (op : Opcode) (b : UInt8) (size : op.operandSize = 1)
  | opU16 (op : Opcode) (n : UInt16) (size : op.operandSize = 2)
  | int (n : UInt64)
  | bool (b : Bool)
  | loadReg (r : Register)
  | storeReg (r : Register)
  | loadVar (slot : UInt16)
  | storeVar (slot : UInt16)
  | call (index : UInt16)
  | cas (r : Register)
  | xchg (a b : Register)
  | jump (op : Opcode) (size : op.operandSize = 2)
  | patch (label : Nat)
  | loop (target : Nat)

/-- An emitter with the labels that jumps were answered with, the latest first. -/
structure InUse where
  emitter : Emitter
  labels : List Nat

namespace InUse

def start : InUse := ⟨.start, []⟩

/-- Write something that cannot be too long. -/
def write (f : Emitter → Emitter) : EStateM DistanceOverflow InUse Unit :=
  modify fun s => { s with emitter := f s.emitter }

/-- Take a step with the emitter, and go on with what it leaves behind, failed or not. -/
def attempt (step : Jumping Unit) : EStateM DistanceOverflow InUse Unit := fun s =>
  match step s.emitter with
  | .ok _ emitter => .ok () { s with emitter }
  | .error overflow emitter => .error overflow { s with emitter }

private theorem attempt_of_ok {step : Jumping Unit} {s : InUse} {emitter : Emitter}
    (h : step s.emitter = .ok () emitter) : attempt step s = .ok () { s with emitter } := by
  rw [attempt, h]

private theorem attempt_of_error {step : Jumping Unit} {s : InUse} {emitter : Emitter}
    {overflow : DistanceOverflow} (h : step s.emitter = .error overflow emitter) :
    attempt step s = .error overflow { s with emitter } := by
  rw [attempt, h]

/-- Do what is asked; a `jump` adds its label to those that can be patched. -/
def perform : Call → EStateM DistanceOverflow InUse Unit
  | .setLine line => write (·.setLine line)
  | .op op _ => write (·.op op)
  | .opByte op b _ => write (·.opByte op b)
  | .opU16 op n _ => write (·.opU16 op n)
  | .int n => write (·.int n)
  | .bool b => write (·.bool b)
  | .loadReg r => write (·.loadReg r)
  | .storeReg r => write (·.storeReg r)
  | .loadVar slot => write (·.loadVar slot)
  | .storeVar slot => write (·.storeVar slot)
  | .call index => write (·.call index)
  | .cas r => write (·.cas r)
  | .xchg a b => write (·.xchg a b)
  | .jump op _ => modify fun s =>
    let (emitter, label) := s.emitter.jump op
    ⟨emitter, label :: s.labels⟩
  | .patch label => attempt (Emitter.patch label)
  | .loop target => attempt (Emitter.loop target)

/-- A `patch` is of a label that was given before, and a `loop` does not go forward. -/
def Allows (s : InUse) : Call → Prop
  | .patch label => label ∈ s.labels
  | .loop target => target ≤ s.emitter.size
  | _ => True

end InUse

section Serving

variable {σ : Type} (serve : Call → EStateM DistanceOverflow σ Unit)

/-- The state that a call leaves behind, whether it fails or not. -/
def after (s : σ) (call : Call) : σ :=
  match serve call s with
  | .ok _ s' => s'
  | .error _ s' => s'

variable {serve} {s s' : σ} {call : Call} {overflow : DistanceOverflow}

private theorem after_of_ok (h : serve call s = .ok () s') : after serve s call = s' := by
  rw [after, h]

private theorem after_of_error (h : serve call s = .error overflow s') :
    after serve s call = s' := by
  rw [after, h]

variable (serve)

/-- The state after one call after another, by `after`. -/
def afterAll (s : σ) (calls : List Call) : σ := calls.foldl (after serve) s

/-- Which calls fail, and how. -/
def answers : σ → List Call → List (Option DistanceOverflow)
  | _, [] => []
  | s, call :: calls =>
    (match serve call s with
      | .ok _ _ => none
      | .error overflow _ => some overflow) :: answers (after serve s call) calls

end Serving

/-- Every call is allowed when its turn comes. -/
def InUse.AllowsAll (s : InUse) : List Call → Prop
  | [] => True
  | call :: calls => s.Allows call ∧ (after perform s call).AllowsAll calls

instance (s : InUse) : DecidablePred s.Allows
  | .patch label => inferInstanceAs (Decidable (label ∈ s.labels))
  | .loop target => inferInstanceAs (Decidable (target ≤ s.emitter.size))
  | .setLine _ | .op _ _ | .opByte _ _ _ | .opU16 _ _ _ | .int _ | .bool _ | .loadReg _
  | .storeReg _ | .loadVar _ | .storeVar _ | .call _ | .cas _ | .xchg _ _ | .jump _ _ =>
    isTrue trivial

instance InUse.decidableAllowsAll : (s : InUse) → DecidablePred s.AllowsAll
  | _, [] => isTrue trivial
  | s, call :: calls =>
    have := decidableAllowsAll (after perform s call) calls
    inferInstanceAs (Decidable (s.Allows call ∧ (after perform s call).AllowsAll calls))

/-! ### What was asked for

A `Payload` is the operand as the caller knows it.  Its bytes depend on where it ends, since
a distance is counted from there.  `ReadAt` is the same knowledge on the side of the reader,
and a payload that fits is read back (`readAt_of_append`).
-/

/-- What stands behind an opcode, as it was asked for. -/
inductive Payload where
  | nothing
  | byte (b : UInt8)
  | pair (a b : UInt8)
  | word (n : UInt16)
  | long (n : UInt64)
  /-- The distance up to where the code ended at the last patch, if there was one. -/
  | forward (landing : Option Nat)
  /-- The distance back to an offset. -/
  | backward (target : Nat)

namespace Payload

/-- How many bytes it takes. -/
def width : Payload → Nat
  | nothing => 0
  | byte _ => 1
  | long _ => 8
  | pair _ _ | word _ | forward _ | backward _ => 2

/-- The bytes that it takes, if they end at `stop`. -/
def bytes (stop : Nat) : Payload → List UInt8
  | nothing => []
  | byte b => [b]
  | pair a b => [a, b]
  | word n => Bytes.bigEndian 2 n.toNat
  | long n => Bytes.bigEndian 8 n.toNat
  | forward none => Bytes.bigEndian 2 0xFFFF
  | forward (some landing) => Bytes.bigEndian 2 (landing - stop)
  | backward target => Bytes.bigEndian 2 (stop - target)

theorem length_bytes (stop : Nat) (p : Payload) : (p.bytes stop).length = p.width := by
  cases p with
  | forward landing => cases landing <;> rfl
  | _ => rfl

/-- A distance is neither negative nor too long. -/
def Fits (stop : Nat) : Payload → Prop
  | forward (some landing) => stop ≤ landing ∧ landing - stop ≤ Chunk.maxDistance
  | backward target => target ≤ stop ∧ stop - target ≤ Chunk.maxDistance
  | _ => True

/-- Let a forward jump land. -/
def land (landing : Nat) : Payload → Payload
  | forward _ => forward (some landing)
  | p => p

private theorem width_land (landing : Nat) (p : Payload) : (p.land landing).width = p.width := by
  cases p <;> rfl

/-- It is what a reader finds in the code from an offset on. -/
def ReadAt (c : Chunk) (offset : Nat) : Payload → Prop
  | nothing => True
  | byte b => c.readByte? offset = some b
  | pair a b => c.readByte? offset = some a ∧ c.readByte? (offset + 1) = some b
  | word n => c.readU16? offset = some n
  | long n => c.readU64? offset = some n
  | forward none => (c.readU16? offset).map (·.toNat) = some 0xFFFF
  | forward (some landing) =>
    ∃ distance, (c.readU16? offset).map (·.toNat) = some distance ∧
      offset + 2 + distance = landing
  | backward target =>
    ∃ distance, (c.readU16? offset).map (·.toNat) = some distance ∧
      target + distance = offset + 2

/-- A distance of two bytes is read back by `readU16?`. -/
theorem readU16?_of_append {c : Chunk} {before after : List UInt8} {n : Nat}
    (hn : n ≤ Chunk.maxDistance)
    (h : c.code.toList = before ++ (Bytes.bigEndian 2 n ++ after)) :
    (c.readU16? before.length).map (·.toNat) = some n := by
  have hlt : n < Bytes.capacity 2 := Nat.lt_succ_of_le hn
  rw [Chunk.readU16?, Chunk.readNumber?_of_append hlt h, Option.map_some, Option.map_some,
    UInt16.toNat_ofNat_of_lt' (Nat.lt_succ_of_le hn)]

private theorem readAt_of_append {c : Chunk} {before after : List UInt8} {stop : Nat} {p : Payload}
    (hfits : p.Fits stop) (hstop : stop = before.length + p.width)
    (h : c.code.toList = before ++ (p.bytes stop ++ after)) : p.ReadAt c before.length := by
  cases p with
  | nothing => trivial
  | byte b => exact Chunk.readByte?_of_append h
  | pair a b =>
      refine ⟨Chunk.readByte?_of_append h, ?_⟩
      -- The second byte is read with the first one counted to what is before.
      have hsecond : c.code.toList = (before ++ [a]) ++ b :: after := by
        rw [h]
        simp [bytes]
      simpa using Chunk.readByte?_of_append hsecond
  | word n =>
      show (c.readNumber? 2 before.length).map UInt16.ofNat = some n
      rw [Chunk.readNumber?_of_append n.toNat_lt h, Option.map_some, UInt16.ofNat_toNat]
  | long n =>
      show (c.readNumber? 8 before.length).map UInt64.ofNat = some n
      rw [Chunk.readNumber?_of_append n.toNat_lt h, Option.map_some, UInt64.ofNat_toNat]
  | forward landing =>
      cases landing with
      | none => exact readU16?_of_append (Nat.le_refl _) h
      | some landing =>
          obtain ⟨hle, hdistance⟩ := hfits
          refine ⟨landing - stop, readU16?_of_append hdistance h, ?_⟩
          have hwidth : (forward (some landing)).width = 2 := rfl
          omega
  | backward target =>
      obtain ⟨hle, hdistance⟩ := hfits
      refine ⟨stop - target, readU16?_of_append hdistance h, ?_⟩
      have hwidth : (backward target).width = 2 := rfl
      omega

end Payload

/-! ### The journal

The journal keeps no bytes.  To patch is to let an entry land (`Payload.land`), in whatever
order and as often as one likes, and the last landing counts.
-/

/-- An instruction as it was asked for. -/
structure Entry where
  /-- Where the code ended when it was asked for. -/
  start : Nat
  op : Opcode
  payload : Payload
  /-- The line that was set then. -/
  line : UInt32
  complete : payload.width = op.operandSize

namespace Entry

/-- Where the operand ends. -/
def stop (e : Entry) : Nat := e.start + 1 + e.op.operandSize

def instruction (e : Entry) : Instruction :=
  ⟨e.op, e.payload.bytes e.stop, by rw [Payload.length_bytes, e.complete]⟩

/-- The line of each byte. -/
def lines (e : Entry) : List UInt32 := List.replicate (1 + e.op.operandSize) e.line

/-- Let the jump land. -/
def land (landing : Nat) (e : Entry) : Entry :=
  { e with
    payload := e.payload.land landing
    complete := by rw [Payload.width_land, e.complete] }

variable {e : Entry} {landing : Option Nat}

private theorem operandSize_of_forward (h : e.payload = .forward landing) :
    e.op.operandSize = 2 := by
  rw [← e.complete, h]
  rfl

private theorem stop_of_forward (h : e.payload = .forward landing) : e.stop = e.start + 1 + 2 := by
  rw [stop, operandSize_of_forward h]

/-- A jump that was made to `land` has the distance from its `stop` as its operand. -/
theorem bytes_land (h : e.payload = .forward landing) (n : Nat) :
    (e.land n).instruction.bytes = e.op.toByte :: Bytes.bigEndian 2 (n - e.stop) := by
  show e.op.toByte :: (e.payload.land n).bytes e.stop = _
  rw [h]
  rfl

end Entry

/-- What was asked for so far, and where the code ends. -/
structure Journal where
  entries : List Entry
  size : Nat
  line : UInt32

namespace Journal

def start : Journal := ⟨[], 0, 1⟩

/-- Enter an instruction. -/
def add (j : Journal) (op : Opcode) (payload : Payload)
    (complete : payload.width = op.operandSize) : Journal :=
  { j with
    entries := j.entries ++ [⟨j.size, op, payload, j.line, complete⟩]
    size := j.size + 1 + op.operandSize }

/-- Let the jump with a label land where the code ends now. -/
def land (j : Journal) (label : Nat) : Journal :=
  { j with entries := j.entries.map fun e => if e.start + 1 = label then e.land j.size else e }

/-- Go on with another journal if a distance fits its operand, and with the old one if not. -/
def within (distance : Nat) (f : Journal → Journal) : EStateM DistanceOverflow Journal Unit :=
  if distance ≤ Chunk.maxDistance then modify f else throw ⟨distance⟩

section Within

variable {distance : Nat} {f : Journal → Journal}

private theorem within_of_le (h : distance ≤ Chunk.maxDistance) (j : Journal) :
    within distance f j = .ok () (f j) := by
  rw [within, if_pos h]
  rfl

private theorem within_of_lt (h : Chunk.maxDistance < distance) (j : Journal) :
    within distance f j = .error ⟨distance⟩ j := by
  rw [within, if_neg (Nat.not_le.mpr h)]
  rfl

end Within

/-- What is entered for a call that does not depend on what there is. -/
def enter (op : Opcode) (payload : Payload) (complete : payload.width = op.operandSize) :
    EStateM DistanceOverflow Journal Unit :=
  modify (·.add op payload complete)

/-- Take note of what is asked. -/
def note : Call → EStateM DistanceOverflow Journal Unit
  | .setLine line => modify fun j => { j with line := UInt32.ofNat line }
  | .op op size => enter op .nothing size.symm
  | .opByte op b size => enter op (.byte b) size.symm
  | .opU16 op n size => enter op (.word n) size.symm
  | .int n =>
    if n = 0 then enter .pushZero .nothing rfl
    else if n = 1 then enter .pushOne .nothing rfl
    else enter .pushInt (.long n) rfl
  | .bool true => enter .pushTrue .nothing rfl
  | .bool false => enter .pushFalse .nothing rfl
  | .loadReg r => enter .loadReg (.byte r.toByte) rfl
  | .storeReg r => enter .storeReg (.byte r.toByte) rfl
  | .loadVar slot => enter .loadVar (.word slot) rfl
  | .storeVar slot => enter .storeVar (.word slot) rfl
  | .call index => enter .call (.word index) rfl
  | .cas r => enter .cas (.byte r.toByte) rfl
  | .xchg a b => enter .xchg (.pair a.toByte b.toByte) rfl
  | .jump op size => enter op (.forward none) size.symm
  | .patch label => do within ((← get).size - (label + 2)) (·.land label)
  | .loop target => do
    within ((← get).size + 3 - target) (·.add .loop (.backward target) rfl)

/-- The entries as code. -/
def code (j : Journal) : Code := j.entries.map Entry.instruction

private theorem code_of_entries {j : Journal} {before after : List Entry} {e : Entry}
    (h : j.entries = before ++ e :: after) :
    j.code = before.map Entry.instruction ++ e.instruction :: after.map Entry.instruction := by
  rw [code, h, List.map_append, List.map_cons]

end Journal

/-! ### Entries in their places

Every entry has the offset at which it was asked for.  `Laid` says that these offsets are
where the instructions really are, one behind another with no gap.
-/

/-- The entries stand one behind another from an offset on. -/
def Laid : Nat → List Entry → Prop
  | _, [] => True
  | start, e :: entries => e.start = start ∧ Laid e.stop entries

namespace Laid

variable {start : Nat} {entries more : List Entry} {e : Entry}

theorem append : ∀ {start : Nat} {entries : List Entry}, Laid start (entries ++ more) ↔
    Laid start entries ∧ Laid (start + Code.size (entries.map Entry.instruction)) more
  | start, [] => by simp [Laid]
  | start, e :: entries => by
      rw [List.cons_append, Laid, Laid, append, List.map_cons, Code.size_cons, and_assoc]
      refine and_congr_right fun hstart => ?_
      have hstop : e.stop = start + e.instruction.size := by
        rw [← hstart, Entry.stop, Instruction.size, Nat.add_assoc]
        rfl
      rw [hstop, Nat.add_assoc]

/-- Entries start between where the first one starts and where the last one stops. -/
theorem bounds : ∀ {start : Nat} {entries : List Entry}, Laid start entries → ∀ e ∈ entries,
    start ≤ e.start ∧ e.start < start + Code.size (entries.map Entry.instruction)
  | _, [], _, _, he => by simp at he
  | start, first :: entries, h, e, he => by
      obtain ⟨rfl, hrest⟩ := h
      have hsize : first.instruction.size = 1 + first.op.operandSize := rfl
      rw [List.map_cons, Code.size_cons, hsize]
      rcases List.mem_cons.mp he with rfl | he
      · omega
      · obtain ⟨hle, hlt⟩ := bounds hrest e he
        rw [Entry.stop] at hle hlt
        omega

end Laid

/-! ### The emitter keeps to the journal

`Describes` is the invariant.  Writing puts bytes behind the code and an entry behind the
entries; patching replaces two bytes in the middle and the landing of one entry, whose place
is known from its label.
-/

/-- Write bytes on the line that was set. -/
def put (e : Emitter) (bs : List UInt8) : Emitter :=
  { e with chunk := e.chunk.writeBytes bs e.line }

/-- The code is what the entries spell, byte by byte and with the lines, and all jumps fit. -/
structure Journal.Describes (j : Journal) (s : InUse) : Prop where
  bytes : s.emitter.bytes = j.code.bytes
  lines : s.emitter.chunk.lines.toList = j.entries.flatMap Entry.lines
  line : s.emitter.line = j.line
  size : j.size = j.code.size
  laid : Laid 0 j.entries
  fits : ∀ e ∈ j.entries, e.payload.Fits e.stop
  /-- A label is the place of the operand of a jump. -/
  labels : ∀ label ∈ s.labels, ∃ e ∈ j.entries,
    label = e.start + 1 ∧ ∃ landing, e.payload = .forward landing

namespace Journal.Describes

variable {j : Journal} {s : InUse}

theorem start : Journal.start.Describes .start where
  bytes := rfl
  lines := rfl
  line := rfl
  size := rfl
  laid := trivial
  fits := by simp [Journal.start]
  labels := by simp [InUse.start]

private theorem chunk_size (h : j.Describes s) : s.emitter.chunk.size = j.size := by
  have hsize : s.emitter.chunk.size = s.emitter.bytes.length := s.emitter.size_eq
  rw [hsize, h.bytes, Code.length_bytes, h.size]

/-- An instruction is written behind the code and entered behind the entries (`Journal.add`). -/
theorem emit (h : j.Describes s) (op : Opcode) (payload : Payload) {labels : List Nat}
    (complete : payload.width = op.operandSize)
    (hfits : payload.Fits (j.size + 1 + op.operandSize))
    (hlabels : ∀ label ∈ labels, label ∈ s.labels ∨
      label = j.size + 1 ∧ ∃ landing, payload = .forward landing) :
    (j.add op payload complete).Describes
      ⟨s.emitter.put (op.toByte :: payload.bytes (j.size + 1 + op.operandSize)), labels⟩ := by
  obtain ⟨hbytes, hlines, hline, hsize, hlaid, hold, hknown⟩ := h
  refine ⟨?_, ?_, hline, ?_, ?_, ?_, ?_⟩
  · -- The bytes of the new entry stand behind those of the others.
    show (s.emitter.chunk.writeBytes _ _).code.toList = _
    rw [writeBytes_code, Journal.code_of_entries rfl, Code.bytes_append]
    show s.emitter.bytes ++ _ = _
    rw [hbytes]
    simp [Journal.code, Entry.instruction, Instruction.bytes, Entry.stop]
  · show (s.emitter.chunk.writeBytes _ _).lines.toList = _
    rw [Chunk.lines_writeBytes, hlines, hline, List.length_cons, Payload.length_bytes, complete,
      Nat.add_comm]
    simp [Journal.add, Entry.lines]
  · rw [Journal.code_of_entries rfl, Code.size_append]
    show j.size + 1 + op.operandSize = j.code.size + _
    rw [← hsize]
    simp [Entry.instruction, Instruction.size, Nat.add_assoc]
  · refine Laid.append.mpr ⟨hlaid, ?_, trivial⟩
    rw [Nat.zero_add]
    exact hsize
  · exact List.forall_mem_append.mpr ⟨hold, List.forall_mem_singleton.mpr hfits⟩
  · intro label hlabel
    rcases hlabels label hlabel with hlabel | ⟨rfl, hforward⟩
    · obtain ⟨e, he, hplace⟩ := hknown label hlabel
      exact ⟨e, List.mem_append_left _ he, hplace⟩
    · exact ⟨_, List.mem_append_right _ (List.mem_singleton_self _), rfl, hforward⟩

/-- An instruction that gives no label is a case of `emit`. -/
theorem emit_plain (h : j.Describes s) (op : Opcode) (payload : Payload)
    (complete : payload.width = op.operandSize)
    (hfits : payload.Fits (j.size + 1 + op.operandSize)) :
    (j.add op payload complete).Describes { s with
      emitter := s.emitter.put (op.toByte :: payload.bytes (j.size + 1 + op.operandSize)) } :=
  h.emit op payload complete hfits fun _ hlabel => .inl hlabel

/-- An entry stands in the code where its instruction was asked for, at its `start`. -/
theorem split (h : j.Describes s) {e : Entry} (he : e ∈ j.entries) :
    ∃ before after, j.entries = before ++ e :: after ∧
      e.start = Code.size (before.map Entry.instruction) ∧
      s.emitter.chunk.code.toList = Code.bytes (before.map Entry.instruction) ++
        e.op.toByte :: (e.payload.bytes e.stop ++ Code.bytes (after.map Entry.instruction)) := by
  obtain ⟨before, after, hentries⟩ := List.append_of_mem he
  have hlaid := h.laid
  rw [hentries] at hlaid
  obtain ⟨-, hstart, -⟩ := Laid.append.mp hlaid
  rw [Nat.zero_add] at hstart
  refine ⟨before, after, hentries, hstart, ?_⟩
  have hwritten : s.emitter.chunk.code.toList = j.code.bytes := h.bytes
  rw [hwritten, Journal.code_of_entries hentries, Code.bytes_append, Code.bytes_cons]
  rfl

/-- Only the entry whose label it is changes in `Journal.land`. -/
theorem entries_land {before after : List Entry} {e : Entry}
    (hentries : j.entries = before ++ e :: after) (hlaid : Laid 0 j.entries) :
    (j.land (e.start + 1)).entries = before ++ e.land j.size :: after := by
  rw [hentries] at hlaid
  obtain ⟨hbefore, hstart, hafter⟩ := Laid.append.mp hlaid
  have hkeep : ∀ {entries : List Entry}, (∀ x ∈ entries, x.start ≠ e.start) →
      entries.map (fun x => if x.start + 1 = e.start + 1 then x.land j.size else x) = entries := by
    intro entries hne
    refine (List.map_congr_left fun x hx => if_neg ?_).trans (List.map_id' _)
    have hx := hne x hx
    omega
  rw [Journal.land, hentries, List.map_append, List.map_cons, if_pos rfl, hkeep, hkeep]
  · intro x hx
    obtain ⟨hle, -⟩ := hafter.bounds x hx
    rw [Entry.stop] at hle
    omega
  · intro x hx
    obtain ⟨-, hlt⟩ := hbefore.bounds x hx
    omega

/-- **A jump that is patched lands where the code ends, and all else stays.** -/
theorem patch (h : j.Describes s) {label : Nat} (hlabel : label ∈ s.labels)
    (hdistance : j.size - (label + 2) ≤ Chunk.maxDistance) :
    (j.land label).Describes { s with
      emitter := { s.emitter with
        chunk := s.emitter.chunk.setDistance label (j.size - (label + 2)) } } := by
  -- The label belongs to one entry, a forward jump, and this entry alone changes.
  obtain ⟨e, he, rfl, landing, hforward⟩ := h.labels label hlabel
  obtain ⟨before, after, hentries, hstart, hcode⟩ := h.split he
  have hland := entries_land hentries h.laid
  have htwo := Entry.operandSize_of_forward hforward
  rw [← Entry.stop_of_forward hforward] at hdistance ⊢
  have hsize : j.size = e.start +
      (e.instruction.size + Code.size (after.map Entry.instruction)) := by
    rw [h.size, Journal.code_of_entries hentries, Code.size_append, Code.size_cons, hstart]
  refine ⟨?_, ?_, h.line, ?_, ?_, ?_, ?_⟩
  · have hoperand : (e.payload.bytes e.stop).length = 2 := e.instruction.complete.trans htwo
    have hfilled := Chunk.code_setDistance hcode hoperand (j.size - e.stop)
    rw [Code.length_bytes, ← hstart] at hfilled
    rw [Journal.code_of_entries hland, Code.bytes_append, Code.bytes_cons,
      Entry.bytes_land hforward]
    exact hfilled
  · show s.emitter.chunk.lines.toList = _
    rw [h.lines, hland, hentries, List.flatMap_append, List.flatMap_append, List.flatMap_cons,
      List.flatMap_cons]
    rfl
  · rw [Journal.code_of_entries hland, Code.size_append, Code.size_cons, ← hstart]
    exact hsize
  · have hlaid := h.laid
    rw [hentries, Laid.append] at hlaid
    rw [hland, Laid.append]
    exact hlaid
  · have hfits := h.fits
    rw [hentries] at hfits
    obtain ⟨hbefore, hafter⟩ := List.forall_mem_append.mp hfits
    rw [hland]
    refine List.forall_mem_append.mpr ⟨hbefore, List.forall_mem_cons.mpr ⟨?_, ?_⟩⟩
    · have hinside : e.stop ≤ j.size := by
        rw [hsize, Entry.stop, Instruction.size]
        show e.start + 1 + e.op.operandSize ≤ e.start + (1 + e.op.operandSize + _)
        omega
      show (e.payload.land j.size).Fits e.stop
      rw [hforward]
      exact ⟨hinside, hdistance⟩
    · exact (List.forall_mem_cons.mp hafter).2
  · intro label hlabel
    obtain ⟨x, hx, hplace, landing', hforward'⟩ := h.labels label hlabel
    refine ⟨_, List.mem_map_of_mem hx, ?_⟩
    split
    · refine ⟨hplace, some j.size, ?_⟩
      show x.payload.land j.size = _
      rw [hforward']
      rfl
    · exact ⟨hplace, landing', hforward'⟩

/-- Both fail alike or both do what is asked, and they stay together in either case. -/
def Agrees (x : EStateM.Result DistanceOverflow InUse Unit)
    (y : EStateM.Result DistanceOverflow Journal Unit) : Prop :=
  (∃ overflow s j, x = .error overflow s ∧ y = .error overflow j ∧ j.Describes s) ∨
    ∃ s j, x = .ok () s ∧ y = .ok () j ∧ j.Describes s

theorem patch_agrees (h : j.Describes s) {label : Nat} (hlabel : label ∈ s.labels) :
    Agrees (InUse.perform (.patch label) s) (Journal.note (.patch label) j) := by
  have hsize : s.emitter.size - label - 2 = j.size - (label + 2) := by
    rw [Nat.sub_sub, Emitter.size, h.chunk_size]
  by_cases hdistance : j.size - (label + 2) ≤ Chunk.maxDistance
  · have hpatch := Emitter.patch_eq label s.emitter
    rw [hsize, if_pos hdistance] at hpatch
    exact .inr ⟨_, _, InUse.attempt_of_ok hpatch, Journal.within_of_le hdistance j,
      h.patch hlabel hdistance⟩
  · -- Nothing is written before the distance is known to fit.
    have hpatch := Emitter.patch_eq label s.emitter
    rw [hsize, if_neg hdistance] at hpatch
    exact .inl ⟨_, _, _, InUse.attempt_of_error hpatch,
      Journal.within_of_lt (Nat.lt_of_not_le hdistance) j, h⟩

theorem loop_agrees (h : j.Describes s) {target : Nat} (htarget : target ≤ s.emitter.size) :
    Agrees (InUse.perform (.loop target) s) (Journal.note (.loop target) j) := by
  have hsize : s.emitter.size = j.size := h.chunk_size
  rw [hsize] at htarget
  by_cases hdistance : j.size + 3 - target ≤ Chunk.maxDistance
  · have hloop := Emitter.loop_eq target s.emitter
    rw [hsize, if_pos hdistance] at hloop
    have hword : (UInt16.ofNat (j.size + 3 - target)).toNat = j.size + 3 - target :=
      UInt16.toNat_ofNat_of_lt' (Nat.lt_succ_of_le hdistance)
    have hemit := h.emit_plain .loop (.backward target) rfl
      ⟨Nat.le_add_right_of_le (Nat.le_add_right_of_le htarget), hdistance⟩
    refine .inr ⟨_, _, InUse.attempt_of_ok hloop, Journal.within_of_le hdistance j, ?_⟩
    rw [Emitter.opU16, Chunk.writeU16, hword]
    exact hemit
  · have hloop := Emitter.loop_eq target s.emitter
    rw [hsize, if_neg hdistance] at hloop
    exact .inl ⟨_, _, _, InUse.attempt_of_error hloop,
      Journal.within_of_lt (Nat.lt_of_not_le hdistance) j, h⟩

/-- **Emitter and journal answer every call alike.** -/
theorem perform_agrees (h : j.Describes s) {call : Call} (hallowed : s.Allows call) :
    Agrees (InUse.perform call s) (Journal.note call j) := by
  cases call with
  | setLine line =>
      exact .inr ⟨_, _, rfl, rfl, h.bytes, h.lines, rfl, h.size, h.laid, h.fits, h.labels⟩
  | op op size => exact .inr ⟨_, _, rfl, rfl, h.emit_plain op .nothing size.symm trivial⟩
  | opByte op b size => exact .inr ⟨_, _, rfl, rfl, h.emit_plain op (.byte b) size.symm trivial⟩
  | opU16 op n size => exact .inr ⟨_, _, rfl, rfl, h.emit_plain op (.word n) size.symm trivial⟩
  | int n =>
      simp only [InUse.perform, Journal.note, Emitter.int]
      by_cases hzero : n = 0
      · simp only [if_pos hzero]
        exact .inr ⟨_, _, rfl, rfl, h.emit_plain _ _ rfl trivial⟩
      by_cases hone : n = 1
      · simp only [if_neg hzero, if_pos hone]
        exact .inr ⟨_, _, rfl, rfl, h.emit_plain _ _ rfl trivial⟩
      · simp only [if_neg hzero, if_neg hone]
        exact .inr ⟨_, _, rfl, rfl, h.emit_plain _ _ rfl trivial⟩
  | bool b => cases b <;> exact .inr ⟨_, _, rfl, rfl, h.emit_plain _ _ rfl trivial⟩
  | loadReg r => exact .inr ⟨_, _, rfl, rfl, h.emit_plain _ _ rfl trivial⟩
  | storeReg r => exact .inr ⟨_, _, rfl, rfl, h.emit_plain _ _ rfl trivial⟩
  | loadVar slot => exact .inr ⟨_, _, rfl, rfl, h.emit_plain _ _ rfl trivial⟩
  | storeVar slot => exact .inr ⟨_, _, rfl, rfl, h.emit_plain _ _ rfl trivial⟩
  | call index => exact .inr ⟨_, _, rfl, rfl, h.emit_plain _ _ rfl trivial⟩
  | cas r => exact .inr ⟨_, _, rfl, rfl, h.emit_plain _ _ rfl trivial⟩
  | xchg a b => exact .inr ⟨_, _, rfl, rfl, h.emit_plain _ _ rfl trivial⟩
  | jump op size =>
      -- The label is the offset of the operand, which is not filled in yet.
      have hlabel : s.emitter.chunk.size + 1 = j.size + 1 := by rw [h.chunk_size]
      refine .inr ⟨_, _, rfl, rfl, h.emit op (.forward none) size.symm trivial fun label hmem => ?_⟩
      rcases List.mem_cons.mp hmem with rfl | hmem
      · exact .inr ⟨hlabel, none, rfl⟩
      · exact .inl hmem
  | patch label => exact h.patch_agrees hallowed
  | loop target => exact h.loop_agrees hallowed

/-- So do they answer any number of calls, by `perform_agrees` for each. -/
theorem afterAll_agrees (calls : List Call) : ∀ {s : InUse} {j : Journal}, j.Describes s →
    s.AllowsAll calls →
      answers InUse.perform s calls = answers Journal.note j calls ∧
        (afterAll Journal.note j calls).Describes (afterAll InUse.perform s calls) := by
  induction calls with
  | nil => exact fun h _ => ⟨rfl, h⟩
  | cons call calls ih =>
      intro s j h ⟨hallowed, hrest⟩
      simp only [answers, afterAll, List.foldl_cons]
      rcases h.perform_agrees hallowed with ⟨overflow, s', j', hs, hj, h'⟩ | ⟨s', j', hs, hj, h'⟩
      · rw [after_of_error hs] at hrest ⊢
        rw [after_of_error hj, hs, hj]
        obtain ⟨hanswers, hdescribes⟩ := ih h' hrest
        exact ⟨by rw [hanswers], hdescribes⟩
      · rw [after_of_ok hs] at hrest ⊢
        rw [after_of_ok hj, hs, hj]
        obtain ⟨hanswers, hdescribes⟩ := ih h' hrest
        exact ⟨by rw [hanswers], hdescribes⟩

end Journal.Describes

/-! ### What a reader finds

From `Describes` everything is read off (`ReadsAs`): the opcodes by `opcodesFrom` over the
code, each operand by `Payload.ReadAt` at the offset of its entry, and the lines one by one.
-/

/-- A reader finds the entries in the chunk, and nothing else. -/
structure ReadsAs (c : Chunk) (entries : List Entry) : Prop where
  opcodes : c.opcodes = entries.map (·.op)
  /-- Each instruction is where it was asked for, with the operand that was asked for. -/
  instructions : ∀ e ∈ entries, c.readOp? e.start = some e.op ∧ e.payload.ReadAt c (e.start + 1)
  /-- Each byte has the line that was set when its instruction was asked for. -/
  lines : c.lines.toList = entries.flatMap Entry.lines
  size : c.lines.size = c.code.size

private theorem Journal.Describes.readsAs {j : Journal} {s : InUse} (h : j.Describes s) :
    ReadsAs s.emitter.chunk j.entries := by
  refine ⟨?_, fun e he => ?_, h.lines, s.emitter.chunk.size_lines⟩
  · have hwritten : s.emitter.chunk.code.toList = j.code.bytes := h.bytes
    rw [Chunk.opcodes, hwritten, Chunk.opcodesFrom_bytes, Journal.code, List.map_map]
    rfl
  · obtain ⟨before, after, -, hstart, hcode⟩ := h.split he
    rw [← Code.length_bytes] at hstart
    refine ⟨?_, ?_⟩
    · rw [Chunk.readOp?, hstart, Chunk.readByte?_of_append hcode]
      exact Opcode.ofByte?_toByte e.op
    · have hbehind : s.emitter.chunk.code.toList =
          (Code.bytes (before.map Entry.instruction) ++ [e.op.toByte]) ++
            (e.payload.bytes e.stop ++ Code.bytes (after.map Entry.instruction)) := by
        rw [hcode, List.append_assoc, List.singleton_append]
      have hlength : (Code.bytes (before.map Entry.instruction) ++ [e.op.toByte]).length =
          e.start + 1 := by
        rw [List.length_append, List.length_singleton, hstart]
      rw [← hlength]
      refine Payload.readAt_of_append (h.fits e he) ?_ hbehind
      rw [hlength, e.complete, Entry.stop]

/-- A call that fails is about a distance that does not fit, and changes nothing. -/
theorem InUse.perform_eq_error {s s' : InUse} {call : Call} {overflow : DistanceOverflow}
    (h : perform call s = .error overflow s') : Chunk.maxDistance < overflow.distance ∧ s' = s := by
  cases call with
  | patch label =>
      have hpatch := Emitter.patch_eq label s.emitter
      by_cases hdistance : s.emitter.size - label - 2 ≤ Chunk.maxDistance
      · rw [if_pos hdistance] at hpatch
        cases h.symm.trans (attempt_of_ok hpatch)
      · rw [if_neg hdistance] at hpatch
        obtain ⟨rfl, rfl⟩ := EStateM.Result.error.inj (h.symm.trans (attempt_of_error hpatch))
        exact ⟨Nat.lt_of_not_le hdistance, rfl⟩
  | loop target =>
      have hloop := Emitter.loop_eq target s.emitter
      by_cases hdistance : s.emitter.size + 3 - target ≤ Chunk.maxDistance
      · rw [if_pos hdistance] at hloop
        cases h.symm.trans (attempt_of_ok hloop)
      · rw [if_neg hdistance] at hloop
        obtain ⟨rfl, rfl⟩ := EStateM.Result.error.inj (h.symm.trans (attempt_of_error hloop))
        exact ⟨Nat.lt_of_not_le hdistance, rfl⟩
  | _ => cases h

/--
**What is emitted is what is read.**  Ask an emitter for whatever one likes, in any order;
patch only labels that it gave, and loop only to offsets that are there.  It reports just
those jumps that are too long, and these leave code and lines as they were.  The opcodes
of the code are those of all other instructions, in the order in which they were asked for.
Every operand is read back as it was given; that of a patched jump is the distance from its
end to where the code ended at the last patch, and 65535 if there was none.  Every byte has
a line, the one that was set for its instruction.
-/
theorem emitted_reads_back {calls : List Call} (h : InUse.start.AllowsAll calls) :
    answers InUse.perform .start calls = answers Journal.note .start calls ∧
      ReadsAs (afterAll InUse.perform .start calls).emitter.chunk
        (afterAll Journal.note .start calls).entries ∧
      ∀ call overflow s,
        InUse.perform call (afterAll InUse.perform .start calls) = .error overflow s →
          Chunk.maxDistance < overflow.distance ∧ s = afterAll InUse.perform .start calls := by
  obtain ⟨hanswers, hdescribes⟩ := Journal.Describes.afterAll_agrees calls .start h
  exact ⟨hanswers, hdescribes.readsAs, fun _ _ _ => InUse.perform_eq_error⟩

/--
Operands that are full of opcodes, a jump that is patched twice and reaches over another
one, and two jumps that are left as they are.
-/
def braided : List Call :=
  [.setLine 7, .int (.ofNat 0x4041424344455051), .jump .jumpIfFalse rfl, .jump .jump rfl,
    .xchg .sp .r0, .patch 10, .setLine 3, .opU16 .loadVar (.ofNat 0x4444) rfl, .loop 9, .patch 10,
    .jump .jump rfl, .op .halt rfl]

/-- The last patch counts, and operands that look like opcodes are passed over. -/
theorem braided_reads_back :
    InUse.start.AllowsAll braided ∧
      (afterAll InUse.perform .start braided).emitter.chunk.opcodes =
        [.pushInt, .jumpIfFalse, .jump, .xchg, .loadVar, .loop, .jump, .halt] ∧
      ((afterAll InUse.perform .start braided).emitter.chunk.readU16? 10).map (·.toNat) =
        some 12 ∧
      ((afterAll InUse.perform .start braided).emitter.chunk.readU16? 25).map (·.toNat) =
        some 0xFFFF := by
  have hallowed : InUse.start.AllowsAll braided := by decide
  obtain ⟨-, hreads, -⟩ := emitted_reads_back hallowed
  have hpatched := hreads.instructions ⟨9, .jumpIfFalse, .forward (some 24), 7, rfl⟩
    (List.mem_of_getElem? (i := 1) rfl)
  have hleft := hreads.instructions ⟨24, .jump, .forward none, 3, rfl⟩
    (List.mem_of_getElem? (i := 6) rfl)
  obtain ⟨-, distance, hdistance, (hlanding : 9 + 1 + 2 + distance = 24)⟩ := hpatched
  obtain rfl : distance = 12 := by omega
  exact ⟨hallowed, hreads.opcodes, hdistance, hleft.2⟩

end Emitter

end StackCode
