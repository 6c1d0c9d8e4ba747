/-
Code keeps the stack in shape.

A shape is the list of the types on the stack.  Every instruction wants operands of
certain types on top and leaves results of certain types behind.  Reading code from
its start therefore gives a shape to every instruction, as if control always fell
through; behind an instruction that does not fall through the stack is taken to be
empty.  What has to be shown is that this is no fiction: every instruction finds
what it wants, and a jump leaves the stack in just the shape that the reading has
found for the place where it lands.

`Flows` says so of a stretch of code on its own, whatever stands around it.
Stretches are put together in three ways, one behind the other, over a forward jump
and around a loop, and the statements of a program are nothing more than that.
-/
import StackCode.Proofs.Sections

namespace StackCode

open Instruction

/-! ### Instructions and shapes

`effect?` is the table of what instructions want and leave.  Where control goes is kept
apart from it: `JumpsTo` is about jumps, `fallsThrough` about going on behind.  An offset is
counted from the start of whatever code is looked at, and `JumpsTo.shift` moves it.
-/

/-- The types of the values on the stack, its top first. -/
abbrev Shape := List ValueType

/-- The type of the variable in a slot. -/
def Resolutions.slotType? (r : Resolutions) (n : Nat) : Option ValueType :=
  (r.symbols.find? fun s => s.slot? == some n).bind Symbol.type?

/-- The type of the values that a place holds. -/
def Storage.type? (r : Resolutions) : Storage → Option ValueType
  | register _ => some .integer
  | slot n => r.slotType? n.toNat

namespace Instruction

/--
What an instruction makes of a shape, if it finds the operands that it wants.
Operators want what typing wants, and a way out of the section, like a call, wants
an empty stack.
-/
def effect? (r : Resolutions) (i : Instruction) (σ : Shape) : Option Shape :=
  match i.op, σ with
  | .nop, σ | .jump, σ | .loop, σ | .xchg, σ => some σ
  | .pushZero, σ | .pushOne, σ | .pushInt, σ | .loadReg, σ => some (.integer :: σ)
  | .pushTrue, σ | .pushFalse, σ => some (.boolean :: σ)
  | .pop, _ :: σ | .dbg, _ :: σ => some σ
  | .storeReg, .integer :: σ | .int, .integer :: σ => some σ
  | .jumpIfFalse, .boolean :: σ => some σ
  | .loadVar, σ => (r.slotType? i.value).map (· :: σ)
  | .storeVar, τ :: σ => if r.slotType? i.value = some τ then some σ else none
  | .cas, .integer :: .integer :: σ => some σ
  | .cpy, .integer :: .integer :: .integer :: σ => some σ
  | .call, [] | .ret, [] | .halt, [] => some []
  | .neg, τ :: σ | .not, τ :: σ => (i.op.unary?.bind (·.unaryType? τ)).map (· :: σ)
  | op, τ' :: τ :: σ => (op.binary?.bind (·.binaryType? τ τ')).map (· :: σ)
  | _, _ => none

/-- Control may jump from the instruction at `offset` to `target`. -/
def JumpsTo (i : Instruction) (offset target : Nat) : Prop :=
  match i.op with
  | .jump | .jumpIfFalse => target = offset + i.size + i.value
  | .loop => target + i.value = offset + i.size
  | _ => False

/-- Control may go on behind the instruction. -/
def fallsThrough (i : Instruction) : Bool :=
  match i.op with
  | .jump | .loop | .ret | .halt => false
  | _ => true

/-- Is the instruction a jump? -/
def isJump (i : Instruction) : Bool :=
  match i.op with
  | .jump | .jumpIfFalse | .loop => true
  | _ => false

/-- The shape behind an instruction; empty if control does not fall through. -/
def after (r : Resolutions) (σ : Shape) (i : Instruction) : Shape :=
  if i.fallsThrough then (i.effect? r σ).getD [] else []

private theorem isJump_of_jumpsTo {i : Instruction} {offset target : Nat}
    (h : i.JumpsTo offset target) :
    i.isJump = true := by
  unfold JumpsTo at h
  unfold isJump
  split at h <;> simp_all

/-- Where a jump leads does not depend on what stands before the code. -/
theorem JumpsTo.shift {i : Instruction} {offset target : Nat} (h : i.JumpsTo offset target)
    (n : Nat) : i.JumpsTo (n + offset) (n + target) := by
  unfold JumpsTo at *
  split at h
  · omega
  · omega
  · omega
  · exact h

end Instruction

namespace Code

variable {r : Resolutions}

/-! ### Code that flows

`shape` reads code from its start.  An instruction is `Sound` if it finds its operands and
if its jump, should it be one, lands where the reading has just the shape that is left.
`Flows` asks this of all instructions, and is kept by `append`, `jumpOver` and `whileLoop`,
the three ways in which statements are made.
-/

/-- The shape behind code that is read from its start. -/
def shape (r : Resolutions) (c : Code) (σ : Shape) : Shape := c.foldl (Instruction.after r) σ

@[simp] theorem shape_nil (σ : Shape) : shape r [] σ = σ := rfl

@[simp] theorem shape_cons (i : Instruction) (c : Code) (σ : Shape) :
    shape r (i :: c) σ = shape r c (i.after r σ) := rfl

@[simp] theorem shape_append (c d : Code) (σ : Shape) :
    shape r (c ++ d) σ = shape r d (shape r c σ) := by
  simp [shape]

/-- An instruction behind `before` finds its operands, and lands in the right shape if it jumps. -/
def Sound (r : Resolutions) (whole : Code) (σ : Shape) (before : Code) (i : Instruction) : Prop :=
  ∃ υ, i.effect? r (shape r before σ) = some υ ∧
    (i.isJump = true → ∃ front back, whole = front ++ back ∧
      i.JumpsTo before.size front.size ∧ shape r front σ = υ)

/-- Code that takes one shape to another, and in which every instruction is sound. -/
structure Flows (r : Resolutions) (c : Code) (σ σ' : Shape) : Prop where
  shape_eq : shape r c σ = σ'
  sound : ∀ {before after : Code} {i : Instruction}, c = before ++ i :: after →
    Sound r c σ before i

/-- What is sound in a stretch of code is sound in the code around it. -/
theorem Sound.embed {part before : Code} {i : Instruction} {σ υ : Shape}
    (h : Sound r part υ before i) (front back : Code) (hshape : shape r front σ = υ) :
    Sound r (front ++ (part ++ back)) σ (front ++ before) i := by
  obtain ⟨υ', heffect, hjump⟩ := h
  refine ⟨υ', by rw [shape_append, hshape]; exact heffect, ?_⟩
  intro hi
  obtain ⟨front', back', rfl, hto, hlanding⟩ := hjump hi
  refine ⟨front ++ front', back' ++ back, by simp, ?_, by rw [shape_append, hshape, hlanding]⟩
  rw [size_append, size_append]
  exact hto.shift front.size

/-- An instruction of two stretches stands in the one or in the other. -/
theorem split_append {c d before after : Code} {i : Instruction}
    (h : c ++ d = before ++ i :: after) :
    (∃ after', c = before ++ i :: after') ∨ ∃ before', before = c ++ before' ∧
      d = before' ++ i :: after := by
  rcases List.append_eq_append_iff.mp h with ⟨before', hbefore, hd⟩ | ⟨rest, hc, hrest⟩
  · exact .inr ⟨before', hbefore, hd⟩
  · cases rest with
    | nil => exact .inr ⟨[], by simpa using hc.symm, by simpa using hrest.symm⟩
    | cons j rest =>
        obtain ⟨rfl, -⟩ := List.cons.inj hrest
        exact .inl ⟨rest, hc⟩

namespace Flows

variable {c d : Code} {σ σ' σ'' : Shape}

theorem nil (σ : Shape) : Flows r [] σ σ := ⟨rfl, fun h => by simp at h⟩

/-- One stretch behind another. -/
theorem append (h : Flows r c σ σ') (h' : Flows r d σ' σ'') : Flows r (c ++ d) σ σ'' := by
  refine ⟨by rw [shape_append, h.shape_eq, h'.shape_eq], ?_⟩
  intro before after i heq
  rcases split_append heq with ⟨after', hc⟩ | ⟨before', rfl, hd⟩
  · exact (h.sound hc).embed [] d rfl
  · simpa using (h'.sound hd).embed c [] h.shape_eq

/-- An instruction that does not jump. -/
theorem single {i : Instruction} {υ : Shape} (hjump : i.isJump = false)
    (heffect : i.effect? r σ = some υ) (hafter : i.after r σ = σ') : Flows r [i] σ σ' := by
  refine ⟨hafter, ?_⟩
  intro before after j heq
  obtain ⟨rfl, rfl⟩ : before = [] ∧ i = j := by
    cases before <;> simp_all
  exact ⟨υ, heffect, fun h => absurd h (by simp [hjump])⟩

/-- An instruction that control falls through, without a jump. -/
theorem step {i : Instruction} (hjump : i.isJump = false) (hfalls : i.fallsThrough = true)
    (heffect : i.effect? r σ = some σ') : Flows r [i] σ σ' :=
  single hjump heffect (by simp [Instruction.after, hfalls, heffect])

/-- A forward jump over the first part of what stands behind it. -/
theorem jumpOver {op : Opcode} {n : Nat} {υ : Shape} (hop : op = .jump ∨ op = .jumpIfFalse)
    (hsize : c.size = n) (hfits : n ≤ Chunk.maxDistance) (h : Flows r (c ++ d) σ' σ'')
    (heffect : (make op n).effect? r σ = some υ) (hafter : (make op n).after r σ = σ')
    (hland : shape r c σ' = υ) : Flows r (make op n :: (c ++ d)) σ σ'' := by
  subst hafter
  refine ⟨h.shape_eq, ?_⟩
  intro before after i heq
  cases before with
  | nil =>
      obtain ⟨rfl, -⟩ := List.cons.inj heq
      have hvalue : (make op n).value = n :=
        value_make_word (by rcases hop with rfl | rfl <;> rfl) hfits
      refine ⟨υ, heffect, fun _ => ⟨make op n :: c, d, by simp, ?_, hland⟩⟩
      rcases hop with rfl | rfl <;> simp [JumpsTo, hvalue, hsize]
  | cons j before =>
      obtain ⟨rfl, hrest⟩ := List.cons.inj heq
      simpa using (h.sound hrest).embed [make op n] [] rfl

/-- A condition, a body, and a jump back: control leaves behind it when the condition fails. -/
theorem whileLoop (hcond : Flows r c [] [.boolean]) (hbody : Flows r d [] [])
    (hfits : c.size + 3 + (d.size + 3) ≤ Chunk.maxDistance) :
    Flows r (c ++ make .jumpIfFalse (d.size + 3) ::
      (d ++ [make .loop (c.size + 3 + (d.size + 3))])) [] [] := by
  refine ⟨by simp [hcond.shape_eq, after, fallsThrough], ?_⟩
  have hexit : (make .jumpIfFalse (d.size + 3)).value = d.size + 3 := value_make_word rfl (by omega)
  have hback : (make .loop (c.size + 3 + (d.size + 3))).value = c.size + 3 + (d.size + 3) :=
    value_make_word rfl hfits
  intro before after i heq
  -- The instruction is in the condition, or it is the jump out, or in the body, or the jump back.
  rcases split_append heq with ⟨after', hc⟩ | ⟨before', rfl, hrest⟩
  · exact (hcond.sound hc).embed [] _ rfl
  cases before' with
  | nil =>
      obtain ⟨rfl, -⟩ := List.cons.inj hrest
      refine ⟨[], by rw [shape_append, hcond.shape_eq]; rfl, fun _ =>
        ⟨_, [], (List.append_nil _).symm, ?_, ?_⟩⟩
      · simp [JumpsTo, hexit, Opcode.operandSize]
        omega
      · simp [hcond.shape_eq, Instruction.after, fallsThrough]
  | cons j before' =>
      obtain ⟨rfl, htail⟩ := List.cons.inj hrest
      rcases split_append htail with ⟨after', hd⟩ | ⟨before'', rfl, hlast⟩
      · have hstart : shape r (c ++ [make .jumpIfFalse (d.size + 3)]) [] = [] := by
          simp [hcond.shape_eq, Instruction.after, fallsThrough, effect?]
        simpa using (hbody.sound hd).embed (c ++ [make .jumpIfFalse (d.size + 3)])
          [make .loop (c.size + 3 + (d.size + 3))] hstart
      · obtain ⟨rfl, rfl⟩ : before'' = [] ∧ i = make .loop (c.size + 3 + (d.size + 3)) := by
          cases before'' <;> simp_all
        refine ⟨[], ?_, fun _ => ⟨[], _, rfl, ?_, rfl⟩⟩
        · simp [hcond.shape_eq, hbody.shape_eq, Instruction.after, fallsThrough, effect?]
        · simp [JumpsTo, hback, Opcode.operandSize]
          omega

end Flows

end Code

/-! ### Expressions

An expression pushes one value and leaves alone what is below it.  Its places hold values of
the right type because a slot belongs to one variable only (`Coherent.slotType?_eq`).
-/

open Code

variable {r : Resolutions} {σ : Shape}

theorem Resolutions.exists_of_resolveSymbol? {id : Ident} {s : Symbol}
    (h : r.resolveSymbol? id = some s) : ∃ decl : Nat, r.symbols[decl]? = some s := by
  obtain ⟨decl, -, hs⟩ := Option.bind_eq_some_iff.mp h
  exact ⟨decl, hs⟩

/-- The type of a slot is the type of the one variable that is kept there. -/
theorem Resolutions.Coherent.slotType?_eq (hr : r.Coherent) {decl n : Nat} {s : Symbol}
    (hs : r.symbols[decl]? = some s) (hn : s.slot? = some n) : r.slotType? n = s.type? := by
  have hmem : s ∈ r.symbols := Array.mem_of_getElem? hs
  unfold slotType?
  cases hfind : r.symbols.find? fun t => t.slot? == some n with
  | none =>
      have := Array.find?_eq_none.mp hfind s hmem
      simp [hn] at this
  | some t =>
      have ht : t.slot? = some n := by simpa using Array.find?_some hfind
      obtain ⟨decl', hlt, rfl⟩ := Array.getElem_of_mem (Array.mem_of_find?_eq_some hfind)
      have ht' : r.symbols[decl']? = some r.symbols[decl'] := Array.getElem?_eq_getElem hlt
      obtain rfl := hr.slot_inj hs ht' hn ht
      rw [hs] at ht'
      rw [Option.some.inj ht']
      rfl

namespace KeptAt

variable {e : Expr} {place : Storage} {τ : ValueType}

/-- A place holds values of the type of the expression that names it. -/
theorem type?_eq (h : KeptAt r e place) (ht : HasType r e τ) (hr : r.Coherent) :
    place.type? r = some τ := by
  cases h with
  | register reg span =>
      cases ht
      rfl
  | named resolved known =>
      cases ht with
      | ident resolved' known' =>
          rw [resolved] at resolved'
          obtain rfl := Option.some.inj resolved'
          obtain ⟨decl, hs⟩ := Resolutions.exists_of_resolveSymbol? resolved
          exact ((hr.fits decl _ hs).type?_of_registerAlias known).symm.trans known'
  | slot resolved known numbered =>
      cases ht with
      | ident resolved' known' =>
          rw [resolved] at resolved'
          obtain rfl := Option.some.inj resolved'
          obtain ⟨decl, hs⟩ := Resolutions.exists_of_resolveSymbol? resolved
          rw [← known']
          exact hr.slotType?_eq hs numbered

private theorem load_flows (h : KeptAt r e place) (ht : HasType r e τ) (hr : r.Coherent) :
    Flows r [place.loadCode] σ (τ :: σ) := by
  have htype := h.type?_eq ht hr
  cases place with
  | register reg =>
      obtain rfl := Option.some.inj htype
      exact .step rfl rfl rfl
  | slot n =>
      have hvalue : (make .loadVar n.toNat).value = n.toNat := value_make_uint16 rfl n
      refine .step rfl rfl ?_
      show (r.slotType? (make .loadVar n.toNat).value).map (· :: σ) = _
      simp only [Storage.type?] at htype
      rw [hvalue, htype]
      rfl

private theorem store_flows (h : KeptAt r e place) (ht : HasType r e τ) (hr : r.Coherent) :
    Flows r [place.storeCode] (τ :: σ) σ := by
  have htype := h.type?_eq ht hr
  cases place with
  | register reg =>
      obtain rfl := Option.some.inj htype
      exact .step rfl rfl rfl
  | slot n =>
      have hvalue : (make .storeVar n.toNat).value = n.toNat := value_make_uint16 rfl n
      refine .step rfl rfl ?_
      show (if r.slotType? (make .storeVar n.toNat).value = some τ then some σ else none) = _
      simp only [Storage.type?] at htype
      rw [hvalue, if_pos htype]

end KeptAt

private theorem unary_flows {op : Operator} {opcode : Opcode} {τ υ : ValueType}
    (known : op.unaryOpcode? = some opcode) (result : op.unaryType? τ = some υ) :
    Flows r [make opcode 0] (τ :: σ) (υ :: σ) := by
  have hop := Operator.unaryOpcode?_eq_some_iff.mp known
  cases op <;> simp only [Operator.unaryOpcode?, Option.some.injEq, reduceCtorEq] at known <;>
    subst known <;> exact .step rfl rfl (by simp [effect?, hop, result])

private theorem binary_flows {op : Operator} {opcode : Opcode} {τ τ' υ : ValueType}
    (known : op.binaryOpcode? = some opcode) (result : op.binaryType? τ τ' = some υ) :
    Flows r [make opcode 0] (τ' :: τ :: σ) (υ :: σ) := by
  have hop := Operator.binaryOpcode?_eq_some_iff.mp known
  cases op <;> simp only [Operator.binaryOpcode?, Option.some.injEq, reduceCtorEq] at known <;>
    subst known <;> exact .step rfl rfl (by simp [effect?, hop, result])

private theorem integerCode_flows (n : UInt64) : Flows r [integerCode n] σ (.integer :: σ) := by
  unfold integerCode
  split
  · exact .step rfl rfl rfl
  · split <;> exact .step rfl rfl rfl

/-- The code of an expression pushes one value, of the expression's type. -/
theorem ExprCode.flows {g : CodeContext} {e : Expr} {c : Code} (h : ExprCode g e c)
    (hr : g.resolutions.Coherent) : ∀ {τ : ValueType} {σ : Shape}, HasType g.resolutions e τ →
      Flows g.resolutions c σ (τ :: σ) := by
  induction h with
  | integer n span =>
      intro τ σ ht
      cases ht
      exact integerCode_flows n
  | boolean b span =>
      intro τ σ ht
      cases ht
      cases b <;> exact .step rfl rfl rfl
  | register reg span =>
      intro τ σ ht
      exact (KeptAt.register reg span).load_flows ht hr
  | ident kept =>
      intro τ σ ht
      exact (CodeContext.keptAt_of_identStorage kept).load_flows ht hr
  | unary span _ known ih =>
      intro τ σ ht
      cases ht with
      | unary _ operand result => exact (ih operand).append (unary_flows known result)
  | binary span _ _ known ih ih' =>
      intro τ σ ht
      cases ht with
      | binary _ left right result =>
          exact (ih left).append ((ih' right).append (binary_flows known result))

/-! ### Statements

Between statements the stack is empty.  A way out asks for that, and so does a call, since
what is called starts with an empty stack as well.
-/

variable {g : CodeContext} {c : Code}

/-- An intrinsic finds its operands and takes them all. -/
theorem IntrinsicCode.flows {i : Intrinsic} {args : List Expr} (h : IntrinsicCode g i args c)
    (hr : g.resolutions.Coherent) (ht : List.Forall₂ (OperandTyped g.resolutions) i.operands args) :
    Flows g.resolutions c σ σ := by
  cases h with
  | cas named code code' =>
      obtain _ | ⟨-, _ | ⟨hexpected, _ | ⟨hnew, -⟩⟩⟩ := ht
      exact (code.flows hr hexpected).append ((code'.flows hr hnew).append (.step rfl rfl rfl))
  | cpy code code' code'' =>
      obtain _ | ⟨hdst, _ | ⟨hsrc, _ | ⟨hlen, -⟩⟩⟩ := ht
      exact (code.flows hr hdst).append ((code'.flows hr hsrc).append
        ((code''.flows hr hlen).append (.step rfl rfl rfl)))
  | dbg code =>
      obtain _ | ⟨⟨τ, hvalue⟩, -⟩ := ht
      exact (code.flows hr hvalue).append (.step rfl rfl rfl)
  | int code =>
      obtain _ | ⟨hvalue, -⟩ := ht
      exact (code.flows hr hvalue).append (.step rfl rfl rfl)
  | xchg named named' => exact .step rfl rfl rfl

/-- A way out wants an empty stack, and nothing is known behind it. -/
theorem exit_flows {exit : Opcode} (h : exit = .halt ∨ exit = .ret) :
    Flows r [make exit 0] [] [] := by
  rcases h with rfl | rfl <;> exact .single rfl rfl rfl

mutual

/-- **A statement finds the stack empty and leaves it empty.** -/
theorem StmtCode.flows (hr : g.resolutions.Coherent) (hexit : g.exit = .halt ∨ g.exit = .ret) :
    ∀ {s : Stmt} {c : Code}, StmtCode g s c → s.Typed g.resolutions → Flows g.resolutions c [] []
  | _, _, .assign span kept code, ht => by
      rw [Stmt.Typed] at ht
      obtain ⟨-, τ, htarget, hvalue⟩ := ht
      have hkept := CodeContext.keptAt_of_storage kept
      exact (code.flows hr hvalue).append (hkept.store_flows htarget hr)
  | _, _, .compound span kept known code, ht => by
      rw [Stmt.Typed] at ht
      obtain ⟨-, τ, υ, htarget, hvalue, hresult⟩ := ht
      have hkept := CodeContext.keptAt_of_storage kept
      exact (hkept.load_flows htarget hr).append ((code.flows hr hvalue).append
        ((binary_flows known hresult).append (hkept.store_flows htarget hr)))
  | _, _, @StmtCode.ifThen _ _ _ _ b _ code code' fits, ht => by
      rw [Stmt.Typed] at ht
      have hbody := code'.flows hr hexit ht.2
      have hwhole : Flows g.resolutions (b ++ []) [] [] := by simpa using hbody
      refine (code.flows hr ht.1).append ?_
      simpa using hwhole.jumpOver (.inr rfl) rfl fits rfl rfl hbody.shape_eq
  | _, _, @StmtCode.ifElse _ _ _ _ _ b d _ _ code code' code'' fits fits', ht => by
      rw [Stmt.Typed] at ht
      have hbody := code'.flows hr hexit ht.2.1
      have helse := code''.flows hr hexit ht.2.2
      have hwhole : Flows g.resolutions (d ++ []) [] [] := by simpa using helse
      have hskip : Flows g.resolutions (make .jump d.size :: d) [] [] := by
        simpa using hwhole.jumpOver (.inl rfl) rfl fits' rfl rfl helse.shape_eq
      -- The first jump leads over the body together with the jump that ends it.
      have hboth : Flows g.resolutions ((b ++ [make .jump d.size]) ++ d) [] [] := by
        simpa using hbody.append hskip
      have hsize : Code.size (b ++ [make .jump d.size]) = b.size + 3 := by
        simp [Opcode.operandSize]
      have hland : shape g.resolutions (b ++ [make .jump d.size]) [] = [] := by
        simp [Instruction.after, fallsThrough]
      refine (code.flows hr ht.1).append ?_
      simpa using hboth.jumpOver (.inr rfl) hsize fits rfl rfl hland
  | _, _, .whileLoop span code code' fits, ht => by
      rw [Stmt.Typed] at ht
      exact (code.flows hr ht.1).whileLoop (code'.flows hr hexit ht.2) fits
  | _, _, .func name body span, _ => .nil []
  | _, _, .retNone span, _ => exit_flows hexit
  | _, _, .retSome span code, ht => by
      rw [Stmt.Typed] at ht
      exact (code.flows hr ht).append ((Flows.step rfl rfl rfl).append (exit_flows hexit))
  | _, _, .intrinsic span code, ht => by
      rw [Stmt.Typed] at ht
      exact code.flows hr ht
  | _, _, .call args span known, _ => .step rfl rfl rfl

theorem BlockCode.flows (hr : g.resolutions.Coherent) (hexit : g.exit = .halt ∨ g.exit = .ret) :
    ∀ {b : Block} {c : Code}, BlockCode g b c → b.Typed g.resolutions → Flows g.resolutions c [] []
  | _, _, .mk decls span code, ht => by
      rw [Block.Typed] at ht
      exact code.flows hr hexit ht

theorem StmtsCode.flows (hr : g.resolutions.Coherent) (hexit : g.exit = .halt ∨ g.exit = .ret) :
    ∀ {body : List Stmt} {c : Code}, StmtsCode g body c → stmtsTyped g.resolutions body →
      Flows g.resolutions c [] []
  | _, _, .nil, _ => .nil []
  | _, _, .cons code code', ht => by
      rw [stmtsTyped] at ht
      exact (code.flows hr hexit ht.1).append (code'.flows hr hexit ht.2)

end

/-! ### Verified code

`Verified` is what a verifier of bytecode would check: a shape for every offset, such that
each instruction finds its operands and leads only to offsets with the shape that it leaves.
The shapes are those that the reading finds (`shapeAt`).
-/

namespace Instruction

/-- Control may go from the instruction at `offset` to `target`. -/
def Leads (i : Instruction) (offset target : Nat) : Prop :=
  i.JumpsTo offset target ∨ i.fallsThrough = true ∧ target = offset + i.size

theorem JumpsTo.unique {i : Instruction} {offset target target' : Nat}
    (h : i.JumpsTo offset target) (h' : i.JumpsTo offset target') : target = target' := by
  unfold JumpsTo at h h'
  split at h
  · simp_all
  · simp_all
  · simp_all
    omega
  · exact h.elim

/-- Ways out and calls are only taken with an empty stack. -/
theorem eq_nil_of_effect? {i : Instruction} {υ : Shape} (h : i.effect? r σ = some υ)
    (hop : i.op = .halt ∨ i.op = .ret ∨ i.op = .call) : σ = [] := by
  have hnone : i.op.binary? = none := by
    rcases hop with hop | hop | hop <;> rw [hop] <;> rfl
  unfold effect? at h
  rcases hop with hop | hop | hop
  all_goals
    rw [hop] at h hnone
    rcases σ with _ | ⟨τ, _ | ⟨τ', σ⟩⟩
    · rfl
    · simp at h
    · simp [hnone] at h

end Instruction

namespace Code

/-- The shape that reading from the start finds at an offset. -/
def shapeAt (r : Resolutions) : Code → Shape → Nat → Shape
  | [], σ, _ => σ
  | i :: c, σ, n => if n < i.size then σ else shapeAt r c (i.after r σ) (n - i.size)

private theorem shapeAt_size (c d : Code) (σ : Shape) :
    shapeAt r (c ++ d) σ c.size = shape r c σ := by
  induction c generalizing σ with
  | nil =>
      cases d with
      | nil => rfl
      | cons i d =>
          show (if 0 < i.size then σ else _) = σ
          rw [if_pos i.size_pos]
  | cons i c ih =>
      have hlt : ¬ i.size + size c < i.size := by omega
      show (if size (i :: c) < i.size then σ else _) = _
      rw [size_cons, if_neg hlt, Nat.add_sub_cancel_left]
      exact ih _

/-- A shape for every offset with which all instructions of the code agree. -/
structure Verified (r : Resolutions) (c : Code) (shapes : Nat → Shape) : Prop where
  start : shapes 0 = []
  /-- An instruction finds its operands, and the stack is as it leaves it wherever it leads. -/
  step : ∀ {offset : Nat} {i : Instruction}, c.At offset i →
    ∃ σ, i.effect? r (shapes offset) = some σ ∧
      ∀ {target : Nat}, i.Leads offset target → shapes target = σ ∧ ∃ j, c.At target j
  /-- A jump leads somewhere. -/
  jumps : ∀ {offset : Nat} {i : Instruction}, c.At offset i → i.isJump = true →
    ∃ target, i.JumpsTo offset target
  /-- There is nothing on the stack at a way out or a call. -/
  empty : ∀ {offset : Nat} {i : Instruction}, c.At offset i →
    i.op = .halt ∨ i.op = .ret ∨ i.op = .call → shapes offset = []

namespace Flows

variable {body before after : Code} {i : Instruction} {exit : Opcode}

/-- With a way out behind it, code leads from every instruction to one in the right shape. -/
theorem leads (h : Flows r body [] []) (hexit : exit = .halt ∨ exit = .ret)
    (heq : body ++ [make exit 0] = before ++ i :: after) :
    ∃ υ, i.effect? r (shape r before []) = some υ ∧
      ∀ {target : Nat}, i.Leads before.size target → ∃ front j back,
        body ++ [make exit 0] = front ++ j :: back ∧ front.size = target ∧
          shape r front [] = υ := by
  rcases split_append heq with ⟨after', rfl⟩ | ⟨before', rfl, hlast⟩
  · obtain ⟨υ, heffect, hjump⟩ := h.sound rfl
    refine ⟨υ, heffect, ?_⟩
    rintro target (hto | ⟨hfalls, rfl⟩)
    · obtain ⟨front, back, hfront, hto', hshape⟩ := hjump (isJump_of_jumpsTo hto)
      obtain ⟨j, back', hback⟩ := List.exists_cons_of_ne_nil
        (show back ++ [make exit 0] ≠ [] by simp)
      refine ⟨front, j, back', ?_, hto'.unique hto, hshape⟩
      rw [hfront, List.append_assoc, hback]
    · obtain ⟨j, back, hback⟩ := List.exists_cons_of_ne_nil
        (show after' ++ [make exit 0] ≠ [] by simp)
      refine ⟨before ++ [i], j, back, ?_, by simp, by simp [Instruction.after, hfalls, heffect]⟩
      rw [← hback]
      simp
  · obtain ⟨rfl, rfl⟩ : before' = [] ∧ i = make exit 0 := by
      cases before' <;> simp_all
    rw [List.append_nil, h.shape_eq]
    rcases hexit with rfl | rfl
    all_goals
      refine ⟨[], rfl, ?_⟩
      rintro target (hto | ⟨hfalls, -⟩)
      · exact hto.elim
      · simp [fallsThrough] at hfalls

theorem verified (h : Flows r body [] []) (hexit : exit = .halt ∨ exit = .ret) :
    Verified r (body ++ [make exit 0]) (shapeAt r (body ++ [make exit 0]) []) := by
  have hstep : ∀ {offset : Nat} {i : Instruction}, At (body ++ [make exit 0]) offset i →
      ∃ σ, i.effect? r (shapeAt r (body ++ [make exit 0]) [] offset) = some σ ∧
        ∀ {target : Nat}, i.Leads offset target →
          shapeAt r (body ++ [make exit 0]) [] target = σ ∧
            ∃ j, At (body ++ [make exit 0]) target j := by
    rintro offset i ⟨before, after, heq, rfl⟩
    obtain ⟨υ, heffect, hleads⟩ := h.leads hexit heq
    refine ⟨υ, by rw [heq, shapeAt_size]; exact heffect, ?_⟩
    intro target hto
    obtain ⟨front, j, back, hfront, rfl, hshape⟩ := hleads hto
    exact ⟨by rw [hfront, shapeAt_size, hshape], j, front, back, hfront, rfl⟩
  refine ⟨shapeAt_size [] _ [], hstep, ?_, ?_⟩
  · rintro offset i ⟨before, after, heq, rfl⟩ hjump
    rcases split_append heq with ⟨after', rfl⟩ | ⟨before', rfl, hlast⟩
    · obtain ⟨υ, -, hlands⟩ := h.sound rfl
      obtain ⟨front, back, -, hto, -⟩ := hlands hjump
      exact ⟨front.size, hto⟩
    · obtain ⟨-, rfl⟩ : before' = [] ∧ i = make exit 0 := by
        cases before' <;> simp_all
      rcases hexit with rfl | rfl <;> simp [isJump] at hjump
  · intro offset i hat hop
    obtain ⟨σ, heffect, -⟩ := hstep hat
    exact eq_nil_of_effect? heffect hop

end Flows

end Code

/-- The code of a section is verified by the shapes that reading finds. -/
theorem BlockCode.verified {p : Program} {table : Std.TreeMap Nat UInt16} {b : Opcode × Block}
    {body : Code} (h : BlockCode ⟨r, table, b.1⟩ b.2 body) (hr : p.Resolved r) (hb : b ∈ p.bodies) :
    Verified r (body ++ [make b.1 0]) (shapeAt r (body ++ [make b.1 0]) []) := by
  have hexit := Program.exit_of_mem_bodies hb
  exact (h.flows hr.coherent hexit (hr.typed_of_mem_bodies hb)).verified hexit

/-- **Compiled code passes a typed stack verifier.** -/
theorem Compiles.exists_verified {source : String} {tabWidth : Nat} {o : CompileOptions}
    {p : Program} {sections : List CodeSection} {k : Nat} {s : CodeSection}
    (h : Compiles source tabWidth o p r sections) (hs : sections[k]? = some s) :
    ∃ c shapes, Instruction.sweep s.chunk.code.toList = some c ∧ Verified r c shapes := by
  obtain ⟨table, codes, b, body, -, hb, hbody, hcode⟩ := h.section_at hs
  have hverified := hbody.verified h.resolved (List.mem_of_getElem? hb)
  exact ⟨_, _, by rw [hcode, sweep_bytes], hverified⟩

/-- The function of the countdown, with its early return, passes the verifier. -/
theorem countdown_exists_verified :
    ∃ p r sections s c shapes, Compiles countdown 4 .default p r sections ∧
      sections[1]? = some s ∧ Instruction.sweep s.chunk.code.toList = some c ∧ 10 < c.length ∧
      Verified r c shapes := by
  have htest : Compiles.passes countdown 4 .default (fun _ _ sections =>
      sections[1]?.any fun s =>
        (Instruction.sweep s.chunk.code.toList).any fun c => decide (10 < c.length)) = true := by
    decide +kernel
  obtain ⟨p, r, sections, hcompiles, hsection⟩ := Compiles.of_passes htest
  obtain ⟨s, hs, hsweep⟩ := (Option.any_eq_true _ _).mp hsection
  obtain ⟨c, hc, hlength⟩ := (Option.any_eq_true _ _).mp hsweep
  obtain ⟨c', shapes, hc', hverified⟩ := hcompiles.exists_verified hs
  rw [hc] at hc'
  obtain rfl := Option.some.inj hc'
  exact ⟨p, r, sections, s, c, shapes, hcompiles, hs, hc, of_decide_eq_true hlength, hverified⟩

end StackCode
