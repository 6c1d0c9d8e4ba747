/-
Code that can be loaded and run without further checks.

Everything an operand names has to be there: the slot of a variable, a register, the section
of a function, the place where a jump lands.  Slots and sections were numbered by other
phases, and that their numbers fit is what `Coherent` and `Linked` say.  A jump is checked
against the code as a whole, and there it is the shapes of the stack that know where
instructions start: control can only go where a shape was found (`BlockCode.verified`).
Last, a section is left only in the way that is its own, and its last instruction leaves it.
-/
import StackCode.Image
import StackCode.Proofs.Shapes

namespace StackCode

open Instruction

/--
What an operand names exists: a slot has its eight bytes of storage, a register its
number, a called section a function.  A way out is the one of the section.
-/
def Instruction.Valid (r : Resolutions) (functions : Nat) (exit : Opcode) (i : Instruction) :
    Prop :=
  match i.op with
  | .loadVar | .storeVar =>
    i.value < r.variableCount ∧ 8 * i.value + 8 ≤ (Section.storage r.variableCount).bytes.length
  | .loadReg | .storeReg | .cas | .xchg => ∀ b ∈ i.operand, b.toNat ≤ 16
  | .call => 1 ≤ i.value ∧ i.value ≤ functions
  | .halt | .ret => i.op = exit
  | _ => True

/-- Code that stands on its own as a section. -/
structure Code.Valid (r : Resolutions) (functions : Nat) (exit : Opcode) (c : Code) : Prop where
  operands : ∀ i ∈ c, i.Valid r functions exit
  /-- A jump lands on an instruction. -/
  jumps : ∀ {offset : Nat} {i : Instruction}, c.At offset i → i.isJump = true →
    ∃ target j, i.JumpsTo offset target ∧ c.At target j ∧ target < c.size
  last : ∃ body, c = body ++ [make exit 0]

/-! ### Operands

One lemma for each way in which code is made: with a register, with a slot, with an
operator, with a number.  All of them are about `make`.
-/

section Operands

variable {r : Resolutions} {n : Nat} {exit : Opcode}

private theorem Register.toNat_toByte_le (reg : Register) : reg.toByte.toNat ≤ 16 := by
  have := reg.index_le
  rw [Register.toByte, UInt8.toNat_ofNat']
  omega

private theorem valid_make_register {op : Opcode} (reg : Register)
    (h : op = .loadReg ∨ op = .storeReg ∨ op = .cas) : (make op reg.index).Valid r n exit := by
  have hbytes : ∀ b ∈ (make op reg.index).operand, b.toNat ≤ 16 := by
    rw [operand_make_register (by rcases h with rfl | rfl | rfl <;> rfl)]
    simpa using reg.toNat_toByte_le
  rcases h with rfl | rfl | rfl <;> exact hbytes

private theorem valid_make_slot {op : Opcode} {slot : UInt16} (h : op = .loadVar ∨ op = .storeVar)
    (hlt : slot.toNat < r.variableCount) : (make op slot.toNat).Valid r n exit := by
  have hvalue : (make op slot.toNat).value = slot.toNat :=
    value_make_uint16 (by rcases h with rfl | rfl <;> rfl) slot
  have hfits : 8 * slot.toNat + 8 ≤ (Section.storage r.variableCount).bytes.length := by
    simp only [Section.storage, List.length_replicate]
    omega
  rw [← hvalue] at hlt hfits
  rcases h with rfl | rfl <;> exact ⟨hlt, hfits⟩

theorem KeptAt.slot_lt {e : Expr} {slot : UInt16} (h : KeptAt r e (.slot slot)) (hr : r.Coherent) :
    slot.toNat < r.variableCount := by
  cases h with
  | slot resolved known numbered =>
      obtain ⟨decl, hs⟩ := Resolutions.exists_of_resolveSymbol? resolved
      exact hr.slot_lt hs numbered

private theorem KeptAt.valid_loadCode {e : Expr} {place : Storage} (h : KeptAt r e place)
    (hr : r.Coherent) : place.loadCode.Valid r n exit := by
  cases place with
  | register reg => exact valid_make_register reg (.inl rfl)
  | slot slot => exact valid_make_slot (.inl rfl) (h.slot_lt hr)

private theorem KeptAt.valid_storeCode {e : Expr} {place : Storage} (h : KeptAt r e place)
    (hr : r.Coherent) : place.storeCode.Valid r n exit := by
  cases place with
  | register reg => exact valid_make_register reg (.inr (.inl rfl))
  | slot slot => exact valid_make_slot (.inr rfl) (h.slot_lt hr)

private theorem valid_of_unaryOpcode? {op : Operator} {opcode : Opcode}
    (h : op.unaryOpcode? = some opcode) : (make opcode 0).Valid r n exit := by
  cases op <;> simp only [Operator.unaryOpcode?, Option.some.injEq, reduceCtorEq] at h <;>
    subst h <;> trivial

private theorem valid_of_binaryOpcode? {op : Operator} {opcode : Opcode}
    (h : op.binaryOpcode? = some opcode) : (make opcode 0).Valid r n exit := by
  cases op <;> simp only [Operator.binaryOpcode?, Option.some.injEq, reduceCtorEq] at h <;>
    subst h <;> trivial

private theorem valid_integerCode (k : UInt64) : (integerCode k).Valid r n exit := by
  unfold integerCode
  split
  · trivial
  · split <;> trivial

private theorem valid_exit (h : exit = .halt ∨ exit = .ret) : (make exit 0).Valid r n exit := by
  rcases h with rfl | rfl <;> rfl

private theorem valid_xchg (a b : Register) :
    (make .xchg (256 * a.index + b.index)).Valid r n exit := by
  show ∀ byte ∈ (make .xchg (256 * a.index + b.index)).operand, byte.toNat ≤ 16
  rw [operand_make_registers rfl]
  simp [a.toNat_toByte_le, b.toNat_toByte_le]

end Operands

/-! ### Code

Every instruction in the code of a tree was made in one of these ways.  Jumps ask for
nothing here, since where they land is not told by their operand alone.
-/

section Code

variable {p : Program} {r : Resolutions} {table : Std.TreeMap Nat UInt16} {codes : List Code}
  {exit : Opcode} {c : Code}

private theorem ExprCode.valid {g : CodeContext} {e : Expr} (h : ExprCode g e c)
    (hr : g.resolutions.Coherent) {n : Nat} : ∀ i ∈ c, i.Valid g.resolutions n exit := by
  induction h with
  | integer k span => simpa using valid_integerCode k
  | boolean b span =>
      simp only [List.forall_mem_singleton]
      cases b <;> trivial
  | register reg span => simpa using (KeptAt.register reg span).valid_loadCode hr
  | ident kept => simpa using (CodeContext.keptAt_of_identStorage kept).valid_loadCode hr
  | unary span _ known ih =>
      simp only [List.forall_mem_append, List.forall_mem_singleton]
      exact ⟨ih, valid_of_unaryOpcode? known⟩
  | binary span _ _ known ih ih' =>
      simp only [List.forall_mem_append, List.forall_mem_singleton]
      exact ⟨ih, ih', valid_of_binaryOpcode? known⟩

private theorem IntrinsicCode.valid {g : CodeContext} {i : Intrinsic} {args : List Expr}
    (h : IntrinsicCode g i args c) (hr : g.resolutions.Coherent) {n : Nat} :
    ∀ i ∈ c, i.Valid g.resolutions n exit := by
  cases h with
  | cas named code code' =>
      simp only [List.forall_mem_append, List.forall_mem_singleton]
      exact ⟨code.valid hr, code'.valid hr, valid_make_register _ (.inr (.inr rfl))⟩
  | cpy code code' code'' =>
      simp only [List.forall_mem_append, List.forall_mem_singleton]
      exact ⟨code.valid hr, code'.valid hr, code''.valid hr, trivial⟩
  | dbg code =>
      simp only [List.forall_mem_append, List.forall_mem_singleton]
      exact ⟨code.valid hr, trivial⟩
  | int code =>
      simp only [List.forall_mem_append, List.forall_mem_singleton]
      exact ⟨code.valid hr, trivial⟩
  | xchg named named' => simpa using valid_xchg _ _

/-- A call names the section of a function, by `function_of_sectionOf`. -/
theorem Linked.valid_call (hl : Linked p r table codes) {name : Ident} {index : UInt16}
    (h : CodeContext.sectionOf ⟨r, table, exit⟩ name = .ok index) :
    (make .call index.toNat).Valid r p.functions.length exit := by
  obtain ⟨decl, k, f, -, hf, -, hindex⟩ := hl.function_of_sectionOf h
  obtain ⟨hk, -⟩ := List.getElem?_eq_some_iff.mp hf
  have hvalue : (make .call index.toNat).value = index.toNat := value_make_uint16 rfl index
  show 1 ≤ (make .call index.toNat).value ∧ (make .call index.toNat).value ≤ p.functions.length
  omega

mutual

theorem StmtCode.valid (hl : Linked p r table codes) (hr : r.Coherent)
    (hexit : exit = .halt ∨ exit = .ret) : ∀ {s : Stmt} {c : Code},
      StmtCode ⟨r, table, exit⟩ s c → ∀ i ∈ c, i.Valid r p.functions.length exit
  | _, _, .assign span kept code => by
      simp only [List.forall_mem_append, List.forall_mem_singleton]
      exact ⟨code.valid hr, (CodeContext.keptAt_of_storage kept).valid_storeCode hr⟩
  | _, _, .compound span kept known code => by
      have hkept := CodeContext.keptAt_of_storage kept
      simp only [List.forall_mem_append, List.forall_mem_cons]
      exact ⟨hkept.valid_loadCode hr, code.valid hr, valid_of_binaryOpcode? known,
        hkept.valid_storeCode hr, List.forall_mem_nil _⟩
  | _, _, .ifThen span code code' fits => by
      simp only [List.forall_mem_append, List.forall_mem_cons]
      exact ⟨code.valid hr, trivial, code'.valid hl hr hexit⟩
  | _, _, .ifElse ifSpan span code code' code'' fits fits' => by
      simp only [List.forall_mem_append, List.forall_mem_cons]
      exact ⟨code.valid hr, trivial, code'.valid hl hr hexit, trivial, code''.valid hl hr hexit⟩
  | _, _, .whileLoop span code code' fits => by
      simp only [List.forall_mem_append, List.forall_mem_cons]
      exact ⟨code.valid hr, trivial, code'.valid hl hr hexit, trivial, List.forall_mem_nil _⟩
  | _, _, .func name body span => by simp
  | _, _, .retNone span => by simpa using valid_exit hexit
  | _, _, .retSome span code => by
      simp only [List.forall_mem_append, List.forall_mem_cons]
      exact ⟨code.valid hr, valid_make_register .r0 (.inr (.inl rfl)), valid_exit hexit,
        List.forall_mem_nil _⟩
  | _, _, .intrinsic span code => code.valid hr
  | _, _, .call args span known => by simpa using hl.valid_call known

theorem BlockCode.valid (hl : Linked p r table codes) (hr : r.Coherent)
    (hexit : exit = .halt ∨ exit = .ret) : ∀ {b : Block} {c : Code},
      BlockCode ⟨r, table, exit⟩ b c → ∀ i ∈ c, i.Valid r p.functions.length exit
  | _, _, .mk decls span code => code.valid hl hr hexit

theorem StmtsCode.valid (hl : Linked p r table codes) (hr : r.Coherent)
    (hexit : exit = .halt ∨ exit = .ret) : ∀ {body : List Stmt} {c : Code},
      StmtsCode ⟨r, table, exit⟩ body c → ∀ i ∈ c, i.Valid r p.functions.length exit
  | _, _, .nil => by simp
  | _, _, .cons code code' => by
      simp only [List.forall_mem_append]
      exact ⟨code.valid hl hr hexit, code'.valid hl hr hexit⟩

end

end Code

/-! ### Listings

`listFrom` goes byte by byte and counts down the operand bytes that were shown with their
instruction.  A complete instruction always has enough of them.
-/

namespace Chunk

/-- `listFrom` passes over operand bytes. -/
theorem listFrom_skip (out : String) (operand rest : List UInt8) :
    ∀ offset, listFrom out operand.length offset (operand ++ rest) =
      listFrom out 0 (offset + operand.length) rest := by
  induction operand with
  | nil => intro offset; rfl
  | cons b operand ih =>
      intro offset
      show listFrom out operand.length (offset + 1) (operand ++ rest) = _
      rw [ih, List.length_cons, Nat.add_assoc, Nat.add_comm 1]

/-- A complete instruction can be listed: `operandText?` finds all of its operand. -/
theorem exists_operandText? (i : Instruction) (stop : Nat) (rest : List UInt8) :
    ∃ text, operandText? i.op stop (i.operand ++ rest) = some text := by
  obtain ⟨op, operand, hlen⟩ := i
  by_cases hop : op = .xchg
  · subst hop
    obtain ⟨a, b, rfl⟩ := List.length_eq_two.mp hlen
    exact ⟨_, rfl⟩
  · simp only [operandText?]
    split
    · exact ⟨_, rfl⟩
    · exact ⟨_, rfl⟩
    · split <;> exact ⟨_, rfl⟩

/-- Complete instructions can be listed one after another by `listFrom`. -/
theorem exists_listFrom_bytes (c : Code) :
    ∀ (out : String) (offset : Nat), ∃ text, listFrom out 0 offset c.bytes = some text := by
  induction c with
  | nil => intro out offset; exact ⟨out, by simp [listFrom]⟩
  | cons i c ih =>
      intro out offset
      obtain ⟨operands, hoperands⟩ := exists_operandText? i (offset + 3) (Code.bytes c)
      rw [Code.bytes_cons]
      show ∃ text, listFrom out 0 offset (i.op.toByte :: (i.operand ++ Code.bytes c)) = some text
      simp only [listFrom, Opcode.ofByte?_toByte, hoperands, ← i.complete]
      rw [listFrom_skip]
      exact ih _ _

end Chunk

/-! ### Sections

The verifier puts in that jumps land on instructions, `BlockCode.valid` that operands are in
range, and the shape of `bodies` what the way out is.
-/

/-- A section with its way out is `Code.Valid`. -/
theorem BlockCode.valid_section {p : Program} {r : Resolutions} {table : Std.TreeMap Nat UInt16}
    {codes : List Code} {b : Opcode × Block} {body : Code}
    (h : BlockCode ⟨r, table, b.1⟩ b.2 body) (hl : Linked p r table codes) (hr : p.Resolved r)
    (hb : b ∈ p.bodies) : Code.Valid r p.functions.length b.1 (body ++ [make b.1 0]) := by
  have hexit := Program.exit_of_mem_bodies hb
  have hverified := h.verified hr hb
  refine ⟨?_, ?_, ⟨body, rfl⟩⟩
  · simp only [List.forall_mem_append, List.forall_mem_singleton]
    exact ⟨h.valid hl hr.coherent hexit, valid_exit hexit⟩
  · intro offset i hat hjump
    obtain ⟨target, hto⟩ := hverified.jumps hat hjump
    obtain ⟨σ, -, hleads⟩ := hverified.step hat
    obtain ⟨-, j, hj⟩ := hleads (.inl hto)
    exact ⟨target, j, hto, hj, hj.lt⟩

/--
**Compiled code is structurally valid.**  Read from its start, each section falls
into complete instructions and nothing is left over.  What they name exists, jumps
land on instructions, and the last instruction is the way out, which is to halt in
the first section and to return in the others.  The listing of the section exists.
-/
theorem Compiles.exists_valid {source : String} {tabWidth : Nat} {o : CompileOptions} {p : Program}
    {r : Resolutions} {sections : List CodeSection} {k : Nat} {s : CodeSection}
    (h : Compiles source tabWidth o p r sections) (hs : sections[k]? = some s) :
    ∃ c, Instruction.sweep s.chunk.code.toList = some c ∧ Code.size c = s.chunk.size ∧
      Code.Valid r p.functions.length (if k = 0 then .halt else .ret) c ∧
      ∃ text, s.chunk.disassemble? = some text := by
  obtain ⟨table, codes, b, body, hl, hb, hbody, hcode⟩ := h.section_at hs
  have hvalid := hbody.valid_section hl h.resolved (List.mem_of_getElem? hb)
  rw [← Program.exit_of_getElem?_bodies hb]
  refine ⟨_, by rw [hcode, Code.sweep_bytes], ?_, hvalid, ?_⟩
  · rw [← Code.length_bytes, ← hcode]
    simp [Chunk.size]
  · rw [Chunk.disassemble?, hcode]
    exact Chunk.exists_listFrom_bytes _ "" 0

/-- The top of the countdown is valid, with its loop and its call. -/
theorem countdown_exists_valid :
    ∃ p r sections s c, Compiles countdown 4 .default p r sections ∧ sections[0]? = some s ∧
      Instruction.sweep s.chunk.code.toList = some c ∧ (c.any fun i => i.op = .loop) = true ∧
      (c.any fun i => i.op = .call) = true ∧ Code.Valid r p.functions.length .halt c := by
  have htest : Compiles.passes countdown 4 .default (fun _ _ sections =>
      sections[0]?.any fun s => (Instruction.sweep s.chunk.code.toList).any fun c =>
        (c.any fun i => i.op = .loop) && (c.any fun i => i.op = .call)) = true := by
    decide +kernel
  obtain ⟨p, r, sections, hcompiles, hsection⟩ := Compiles.of_passes htest
  obtain ⟨s, hs, hsweep⟩ := (Option.any_eq_true _ _).mp hsection
  obtain ⟨c, hc, hops⟩ := (Option.any_eq_true _ _).mp hsweep
  rw [Bool.and_eq_true] at hops
  obtain ⟨c', hc', -, hvalid, -⟩ := hcompiles.exists_valid hs
  rw [hc] at hc'
  obtain rfl := Option.some.inj hc'
  exact ⟨p, r, sections, s, c, hcompiles, hs, hc, hops.1, hops.2, hvalid⟩

end StackCode
