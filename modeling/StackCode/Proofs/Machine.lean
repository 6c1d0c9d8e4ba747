/-
The stack machine.

The machine runs code as bytes: it reads the instruction at an offset of a section,
moves behind it, and does what the opcode calls for.  Nothing is fixed about values
and the outside: what an operator computes, what counts as false, and what the
intrinsics do are parameters, and whatever may fail is a parameter that may fail.  Which
operator an instruction applies is not one (`Opcode.binary?`, `Opcode.unary?`).  A machine
that cannot go on, because an operand is missing or a byte is no opcode, is stuck.
-/
import Mathlib.Logic.Relation
import StackCode.Proofs.Instruction

namespace StackCode

/-! ### Stores

Registers and variables are all that a program can name.  `W` is the rest of the world,
which only intrinsics touch, and `V` the values.
-/

/-- Where a value is kept. -/
inductive Cell where
  | register (r : Register)
  | slot (n : Nat)
deriving DecidableEq, Repr

/-- What a program works on: registers, variables, and the rest of the world. -/
structure Store (V W : Type) where
  registers : Register → V
  slots : Nat → V
  world : W

namespace Store

variable {V W : Type}

/-- The value in a cell. -/
def read (s : Store V W) : Cell → V
  | .register r => s.registers r
  | .slot n => s.slots n

/-- Put a value into a cell. -/
def write (s : Store V W) (cell : Cell) (v : V) : Store V W :=
  match cell with
  | .register r => { s with registers := fun r' => if r' = r then v else s.registers r' }
  | .slot n => { s with slots := fun n' => if n' = n then v else s.slots n' }

end Store

/-- What values are, and what operators and intrinsics do with them. -/
structure Interpretation (V W : Type) where
  integer : UInt64 → V
  boolean : Bool → V
  isFalse : V → Bool
  binary : Operator → V → V → Option V
  unary : Operator → V → Option V
  /-- The register, then the expected and the new value. -/
  cas : Register → V → V → Store V W → Option (Store V W)
  /-- The destination, the source and the length. -/
  cpy : V → V → V → Store V W → Option (Store V W)
  dbg : V → Store V W → Option (Store V W)
  int : V → Store V W → Option (Store V W)
  xchg : Register → Register → Store V W → Option (Store V W)

namespace Machine

/-! ### Execution

`execute` has one case for each opcode and fails where an operand is missing on the stack or
an operand byte makes no sense.  The offset has been moved behind the instruction before, so
a jump forward adds to it and a jump back takes from it, its own size included.
-/

/-- A machine at work. -/
structure State (V W : Type) where
  /-- The number of the section that is run. -/
  unit : Nat
  /-- The offset of the next instruction. -/
  offset : Nat
  /-- The stack, its top first. -/
  stack : List V
  /-- Where calls return to, the last call first. -/
  callers : List (Nat × Nat)
  store : Store V W

/-- What comes of an instruction. -/
inductive Outcome (V W : Type) where
  /-- The machine goes on. -/
  | running (s : State V W)
  /-- The machine stops here. -/
  | halted (s : State V W)

variable {V W : Type} (I : Interpretation V W)

/-- Go on with a new stack. -/
def State.withStack (s : State V W) (stack : List V) : Outcome V W := .running { s with stack }

/-- Go on with a new stack and what an intrinsic made of the store, if it succeeds. -/
def State.withEffect (s : State V W) (stack : List V) (store? : Option (Store V W)) :
    Option (Outcome V W) :=
  store?.map fun store => .running { s with stack, store }

/-- Do what an instruction calls for, in a machine that has moved behind it. -/
def execute (i : Instruction) (s : State V W) : Option (Outcome V W) :=
  match i.op, s.stack with
  | .nop, _ => some (.running s)
  | .pushZero, stack => some (s.withStack (I.integer 0 :: stack))
  | .pushOne, stack => some (s.withStack (I.integer 1 :: stack))
  | .pushInt, stack => some (s.withStack (I.integer (UInt64.ofNat i.value) :: stack))
  | .pushTrue, stack => some (s.withStack (I.boolean true :: stack))
  | .pushFalse, stack => some (s.withStack (I.boolean false :: stack))
  | .pop, _ :: stack => some (s.withStack stack)
  | .loadReg, stack =>
    (Register.ofIndex? i.value).map fun r => s.withStack (s.store.read (.register r) :: stack)
  | .storeReg, v :: stack =>
    (Register.ofIndex? i.value).bind fun r =>
      s.withEffect stack (some (s.store.write (.register r) v))
  | .loadVar, stack => some (s.withStack (s.store.read (.slot i.value) :: stack))
  | .storeVar, v :: stack => s.withEffect stack (some (s.store.write (.slot i.value) v))
  | .jump, _ => some (.running { s with offset := s.offset + i.value })
  | .jumpIfFalse, v :: stack =>
    some (.running
      { s with stack, offset := if I.isFalse v then s.offset + i.value else s.offset })
  | .loop, _ =>
    if i.value ≤ s.offset then some (.running { s with offset := s.offset - i.value }) else none
  | .call, _ =>
    some (.running
      { s with unit := i.value, offset := 0, callers := (s.unit, s.offset) :: s.callers })
  | .ret, _ =>
    match s.callers with
    | (unit, offset) :: callers => some (.running { s with unit, offset, callers })
    | [] => none
  | .halt, _ => some (.halted s)
  | .cas, new :: expected :: stack =>
    (Register.ofIndex? i.value).bind fun r => s.withEffect stack (I.cas r expected new s.store)
  | .cpy, len :: src :: dst :: stack => s.withEffect stack (I.cpy dst src len s.store)
  | .dbg, v :: stack => s.withEffect stack (I.dbg v s.store)
  | .int, v :: stack => s.withEffect stack (I.int v s.store)
  | .xchg, stack =>
    (Register.ofIndex? (i.value / 256)).bind fun a =>
      (Register.ofIndex? (i.value % 256)).bind fun b => s.withEffect stack (I.xchg a b s.store)
  | .neg, v :: stack | .not, v :: stack =>
    (i.op.unary?.bind (I.unary · v)).map fun result => s.withStack (result :: stack)
  | op, w :: v :: stack =>
    (op.binary?.bind (I.binary · v w)).map fun result => s.withStack (result :: stack)
  | _, _ => none

/-- One step on the code of sections; there is none where `fetch?` finds no instruction. -/
def step (image : List (List UInt8)) (s : State V W) : Option (Outcome V W) :=
  (image[s.unit]?).bind fun bytes =>
    (Instruction.fetch? bytes s.offset).bind fun i =>
      execute I i { s with offset := s.offset + i.size }

/-- The machine gets from one state to another. -/
def Reaches (image : List (List UInt8)) : State V W → State V W → Prop :=
  Relation.ReflTransGen fun s t => step I image s = some (.running t)

/--
The machine stops after finitely many steps: it `Reaches` a state in which the next one
halts.
-/
def Halts (image : List (List UInt8)) (s t : State V W) : Prop :=
  ∃ u, Reaches I image s u ∧ step I image u = some (.halted t)

/-- The machine before its first instruction, at the start of section 0. -/
def State.start (store : Store V W) : State V W := ⟨0, 0, [], [], store⟩

variable {I}

/-- A machine that stops stops in one state only: every step is determined. -/
theorem Halts.unique {image : List (List UInt8)} {s t t' : State V W} (h : Halts I image s t)
    (h' : Halts I image s t') : t = t' := by
  obtain ⟨u, hreach, hstop⟩ := h
  obtain ⟨u', hreach', hstop'⟩ := h'
  induction hreach using Relation.ReflTransGen.head_induction_on with
  | refl =>
      rcases hreach'.cases_head with rfl | ⟨v, hstep, -⟩
      · rw [hstop] at hstop'
        exact Outcome.halted.inj (Option.some.inj hstop')
      · rw [hstop] at hstep
        simp at hstep
  | head hstep _ ih =>
      rcases hreach'.cases_head with rfl | ⟨v, hstep', hrest⟩
      · rw [hstep] at hstop'
        simp at hstop'
      · rw [hstep] at hstep'
        obtain rfl := Outcome.running.inj (Option.some.inj hstep')
        exact ih hrest

end Machine

end StackCode
