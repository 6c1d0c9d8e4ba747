/-
Code does what the tree means.

Every part of a tree has its code somewhere inside a section, and the statements here follow
the machine through that stretch.  The code of an expression pushes the value of the
expression and changes nothing else (`reaches_expr`).  The code of a statement takes the
store to where the statement takes it, and ends either behind itself or, where the statement
leaves the body, at an instruction that leaves the section (`Follows`).  Calls put the two
together: the section of the function is run as its body means, and its way out leads back
behind the call (`follows_call`).

What operators and intrinsics do is a parameter (`Interpretation`), the same for tree and
machine.
-/
import StackCode.Proofs.Evaluation
import StackCode.Proofs.Sections

namespace StackCode

open Instruction

/-! ### Where values are kept

Code speaks of places (`Storage`), and the meaning of a tree of cells in the store (`Cell`).
Both get there from the name through the same resolutions.
-/

/-- The cell of a storage place. -/
def Storage.cell : Storage → Cell
  | register r => .register r
  | slot n => .slot n.toNat

namespace CodeContext

variable {g : CodeContext}

private theorem cell?_of_storage {e : Expr} {place : Storage} (h : g.storage e = .ok place) :
    g.resolutions.cell? e = some place.cell := by
  cases keptAt_of_storage h with
  | register reg span => rfl
  | named resolved known =>
      simp [Resolutions.cell?, resolved, Symbol.cell?, known, Storage.cell]
  | slot resolved known numbered =>
      simp [Resolutions.cell?, resolved, Symbol.cell?, known, numbered, Storage.cell]

private theorem register?_of_registerOperand {e : Expr} {r : Register}
    (h : g.registerOperand e = .ok r) :
    g.resolutions.register? e = some r := by
  simp only [registerOperand] at h
  split at h
  · simp at h
  · rename_i r' hstorage
    simp only [Except.ok.injEq] at h
    subst h
    simp [Resolutions.register?, cell?_of_storage hstorage, Storage.cell]
  · simp at h

end CodeContext

namespace Machine

variable {V W : Type} {I : Interpretation V W} {codes : List Code} {k offset : Nat} {c : Code}
  {stack : List V} {callers : List (Nat × Nat)} {store : Store V W}

/-! ### Single instructions

`execute` is unfolded here, once for each kind of instruction that is written for
expressions and assignments.  Operators are translated by a table, so one lemma speaks of
all of them at once; what they do is left to the `Interpretation`.
-/

private theorem execute_unary {op : Operator} {opcode : Opcode} (h : op.unaryOpcode? = some opcode)
    (v : V) : execute I (make opcode 0) ⟨k, offset, v :: stack, callers, store⟩ =
      (I.unary op v).map fun w => .running ⟨k, offset, w :: stack, callers, store⟩ := by
  have hop := Operator.unaryOpcode?_eq_some_iff.mp h
  cases opcode <;> cases hop <;> rfl

private theorem execute_binary {op : Operator} {opcode : Opcode}
    (h : op.binaryOpcode? = some opcode) (v w : V) :
    execute I (make opcode 0) ⟨k, offset, w :: v :: stack, callers, store⟩ =
      (I.binary op v w).map fun u => .running ⟨k, offset, u :: stack, callers, store⟩ := by
  have hop := Operator.binaryOpcode?_eq_some_iff.mp h
  cases opcode <;> cases hop <;> rfl

private theorem execute_integerCode (n : UInt64) :
    execute I (integerCode n) ⟨k, offset, stack, callers, store⟩ =
      some (.running ⟨k, offset, I.integer n :: stack, callers, store⟩) := by
  unfold integerCode
  split
  · rename_i h
    subst h
    rfl
  · split
    · rename_i h
      subst h
      rfl
    · have hvalue : (make .pushInt n.toNat).value = n.toNat := value_make_of_lt n.toNat_lt
      have hword : UInt64.ofNat n.toNat = n := by simp
      show some (Outcome.running ⟨k, offset,
        I.integer (UInt64.ofNat (make .pushInt n.toNat).value) :: stack, callers, store⟩) = _
      rw [hvalue, hword]

private theorem execute_booleanCode (b : Bool) :
    execute I (booleanCode b) ⟨k, offset, stack, callers, store⟩ =
      some (.running ⟨k, offset, I.boolean b :: stack, callers, store⟩) := by
  cases b <;> rfl

private theorem execute_loadCode (place : Storage) :
    execute I place.loadCode ⟨k, offset, stack, callers, store⟩ =
      some (.running ⟨k, offset, store.read place.cell :: stack, callers, store⟩) := by
  cases place with
  | register r =>
      show (Register.ofIndex? (make .loadReg r.index).value).map _ = _
      rw [value_make_register rfl, Register.ofIndex?_index]
      rfl
  | slot n =>
      show some (Outcome.running ⟨k, offset, store.read (.slot (make .loadVar n.toNat).value) ::
        stack, callers, store⟩) = _
      rw [value_make_uint16 rfl]
      rfl

private theorem execute_storeCode (place : Storage) (v : V) :
    execute I place.storeCode ⟨k, offset, v :: stack, callers, store⟩ =
      some (.running ⟨k, offset, stack, callers, store.write place.cell v⟩) := by
  cases place with
  | register r =>
      show (Register.ofIndex? (make .storeReg r.index).value).bind _ = _
      rw [value_make_register rfl, Register.ofIndex?_index]
      rfl
  | slot n =>
      show some (Outcome.running ⟨k, offset, stack, callers,
        store.write (.slot (make .storeVar n.toNat).value) v⟩) = _
      rw [value_make_uint16 rfl]
      rfl

/-- The next step is the one of the instruction that stands there. -/
theorem step_eq_execute {i : Instruction} (hc : codes[k]? = some c) (hi : c.At offset i) :
    step I (codes.map Code.bytes) ⟨k, offset, stack, callers, store⟩ =
      execute I i ⟨k, offset + i.size, stack, callers, store⟩ := by
  simp [step, hc, Code.fetch?_bytes hi]

/-- One instruction, if the machine goes on after it. -/
theorem reaches_of_execute {i : Instruction} {t : State V W} (hc : codes[k]? = some c)
    (hi : c.At offset i)
    (h : execute I i ⟨k, offset + i.size, stack, callers, store⟩ = some (.running t)) :
    Reaches I (codes.map Code.bytes) ⟨k, offset, stack, callers, store⟩ t :=
  .single ((step_eq_execute hc hi).trans h)

/-! ### Expressions

The induction is on `ExprCode`, with the offset and the stack general: the right operand
finds the value of the left one on the stack.
-/

/-- **The code of an expression pushes its value.** -/
theorem reaches_expr {g : CodeContext} {e : Expr} {part : Code} (hcode : ExprCode g e part)
    (hc : codes[k]? = some c) : ∀ {offset : Nat} {stack : List V} {v : V}, c.Holds offset part →
      e.eval I g.resolutions store = some v →
      Reaches I (codes.map Code.bytes) ⟨k, offset, stack, callers, store⟩
        ⟨k, offset + part.size, v :: stack, callers, store⟩ := by
  induction hcode with
  | integer n span =>
      intro offset stack v hpart h
      obtain rfl : I.integer n = v := by simpa [Expr.eval] using h
      exact reaches_of_execute hc hpart.head (execute_integerCode n)
  | boolean b span =>
      intro offset stack v hpart h
      obtain rfl : I.boolean b = v := by simpa [Expr.eval] using h
      exact reaches_of_execute hc hpart.head (execute_booleanCode b)
  | register r span =>
      intro offset stack v hpart h
      obtain rfl : store.registers r = v := by
        simpa [Expr.eval, Resolutions.cell?, Store.read] using h
      exact reaches_of_execute hc hpart.head (execute_loadCode _)
  | ident kept =>
      intro offset stack v hpart h
      rename_i id place
      have hcell := CodeContext.cell?_of_storage (e := .ident id) kept
      obtain rfl : store.read place.cell = v := by simpa [Expr.eval, hcell] using h
      exact reaches_of_execute hc hpart.head (execute_loadCode place)
  | unary span code known ih =>
      intro offset stack v hpart h
      simp only [Expr.eval, Option.bind_eq_bind, Option.bind_eq_some_iff] at h
      obtain ⟨w, hw, hv⟩ := h
      refine (ih hpart.left hw).trans ?_
      rw [Code.size_append, ← Nat.add_assoc]
      refine reaches_of_execute hc hpart.right.head ?_
      rw [execute_unary known, hv]
      rfl
  | binary span code code' known ih ih' =>
      intro offset stack v hpart h
      simp only [Expr.eval, Option.bind_eq_bind, Option.bind_eq_some_iff] at h
      obtain ⟨u, hu, w, hw, hv⟩ := h
      -- The right operand is run with the value of the left one on the stack below it.
      refine (ih hpart.left hu).trans ((ih' hpart.right.left hw).trans ?_)
      rw [Code.size_append, Code.size_append, ← Nat.add_assoc, ← Nat.add_assoc]
      refine reaches_of_execute hc hpart.right.right.head ?_
      rw [execute_binary known, hv]
      rfl

/-! ### Intrinsics

Arguments are evaluated from the left, so the last of them is on top.  Registers are no
values and stand in the operand bytes; for `xchg` both stand in one number.
-/

private theorem execute_cas (r : Register) (v w : V) :
    execute I (make .cas r.index) ⟨k, offset, w :: v :: stack, callers, store⟩ =
      (I.cas r v w store).map fun t => .running ⟨k, offset, stack, callers, t⟩ := by
  show (Register.ofIndex? (make .cas r.index).value).bind _ = _
  rw [value_make_register rfl, Register.ofIndex?_index]
  rfl

private theorem execute_xchg (a b : Register) :
    execute I (make .xchg (256 * a.index + b.index)) ⟨k, offset, stack, callers, store⟩ =
      (I.xchg a b store).map fun t => .running ⟨k, offset, stack, callers, t⟩ := by
  have ha := a.index_le
  have hb := b.index_le
  have hvalue : (make .xchg (256 * a.index + b.index)).value = 256 * a.index + b.index :=
    value_make_word rfl (by simp only [Chunk.maxDistance]; omega)
  have hdiv : (256 * a.index + b.index) / 256 = a.index := by omega
  have hmod : (256 * a.index + b.index) % 256 = b.index := by omega
  show (Register.ofIndex? ((make .xchg (256 * a.index + b.index)).value / 256)).bind _ = _
  rw [hvalue, hdiv, hmod, Register.ofIndex?_index, Option.bind_some, Register.ofIndex?_index]
  rfl

/-- The code of an intrinsic does what the intrinsic does. -/
theorem reaches_intrinsic {g : CodeContext} {i : Intrinsic} {args : List Expr} {part : Code}
    {store' : Store V W} (hcode : IntrinsicCode g i args part) (hc : codes[k]? = some c)
    (hpart : c.Holds offset part) (h : i.perform I g.resolutions store args = some store') :
    Reaches I (codes.map Code.bytes) ⟨k, offset, stack, callers, store⟩
      ⟨k, offset + part.size, stack, callers, store'⟩ := by
  cases hcode with
  | cas named code code' =>
      simp only [Intrinsic.perform, CodeContext.register?_of_registerOperand named,
        Option.bind_eq_bind, Option.bind_some, Option.bind_eq_some_iff] at h
      obtain ⟨v, hv, w, hw, h⟩ := h
      refine (reaches_expr code hc hpart.left hv).trans
        ((reaches_expr code' hc hpart.right.left hw).trans ?_)
      rw [Code.size_append, Code.size_append, ← Nat.add_assoc, ← Nat.add_assoc]
      refine reaches_of_execute hc hpart.right.right.head ?_
      rw [execute_cas, h]
      rfl
  | cpy code code' code'' =>
      simp only [Intrinsic.perform, Option.bind_eq_bind, Option.bind_eq_some_iff] at h
      obtain ⟨u, hu, v, hv, w, hw, h⟩ := h
      refine (reaches_expr code hc hpart.left hu).trans
        ((reaches_expr code' hc hpart.right.left hv).trans
          ((reaches_expr code'' hc hpart.right.right.left hw).trans ?_))
      rw [Code.size_append, Code.size_append, Code.size_append, ← Nat.add_assoc, ← Nat.add_assoc,
        ← Nat.add_assoc]
      refine reaches_of_execute hc hpart.right.right.right.head ?_
      show (I.cpy u v w store).map _ = _
      rw [h]
      rfl
  | dbg code =>
      simp only [Intrinsic.perform, Option.bind_eq_bind, Option.bind_eq_some_iff] at h
      obtain ⟨v, hv, h⟩ := h
      refine (reaches_expr code hc hpart.left hv).trans ?_
      rw [Code.size_append, ← Nat.add_assoc]
      refine reaches_of_execute hc hpart.right.head ?_
      show (I.dbg v store).map _ = _
      rw [h]
      rfl
  | int code =>
      simp only [Intrinsic.perform, Option.bind_eq_bind, Option.bind_eq_some_iff] at h
      obtain ⟨v, hv, h⟩ := h
      refine (reaches_expr code hc hpart.left hv).trans ?_
      rw [Code.size_append, ← Nat.add_assoc]
      refine reaches_of_execute hc hpart.right.head ?_
      show (I.int v store).map _ = _
      rw [h]
      rfl
  | xchg named named' =>
      simp only [Intrinsic.perform, CodeContext.register?_of_registerOperand named,
        CodeContext.register?_of_registerOperand named', Option.bind_eq_bind,
        Option.bind_some] at h
      refine reaches_of_execute hc hpart.head ?_
      rw [execute_xchg, h]
      rfl

/-! ### Jumps, calls and the way out

`Follows` is what is proved of statements.  Its `bind` is how a statement goes on with
another: where the first one has left the body, the second is never come to.
-/

private theorem reaches_jumpIfFalse {distance : Nat} {v : V} (hc : codes[k]? = some c)
    (hi : c.At offset (make .jumpIfFalse distance)) (hfits : distance ≤ Chunk.maxDistance) :
    Reaches I (codes.map Code.bytes) ⟨k, offset, v :: stack, callers, store⟩
      ⟨k, if I.isFalse v then offset + 3 + distance else offset + 3, stack, callers, store⟩ := by
  refine reaches_of_execute hc hi ?_
  show some (Outcome.running ⟨k, if I.isFalse v then offset + 3 + (make .jumpIfFalse distance).value
    else offset + 3, stack, callers, store⟩) = _
  rw [value_make_word rfl hfits]

private theorem reaches_jump {distance : Nat} (hc : codes[k]? = some c)
    (hi : c.At offset (make .jump distance)) (hfits : distance ≤ Chunk.maxDistance) :
    Reaches I (codes.map Code.bytes) ⟨k, offset, stack, callers, store⟩
      ⟨k, offset + 3 + distance, stack, callers, store⟩ := by
  refine reaches_of_execute hc hi ?_
  show some (Outcome.running ⟨k, offset + 3 + (make .jump distance).value, stack, callers,
    store⟩) = _
  rw [value_make_word rfl hfits]

private theorem reaches_loop {distance : Nat} (hc : codes[k]? = some c)
    (hi : c.At (offset + distance) (make .loop (distance + 3)))
    (hfits : distance + 3 ≤ Chunk.maxDistance) :
    Reaches I (codes.map Code.bytes) ⟨k, offset + distance, stack, callers, store⟩
      ⟨k, offset, stack, callers, store⟩ := by
  refine reaches_of_execute hc hi ?_
  have hvalue : (make .loop (distance + 3)).value = distance + 3 := value_make_word rfl hfits
  show (if (make .loop (distance + 3)).value ≤ offset + distance + 3 then
    some (Outcome.running ⟨k, offset + distance + 3 - (make .loop (distance + 3)).value, stack,
      callers, store⟩) else none) = _
  have hback : offset + distance + 3 - (distance + 3) = offset := by omega
  rw [hvalue, if_pos (by omega), hback]

private theorem reaches_call {index : UInt16} (hc : codes[k]? = some c)
    (hi : c.At offset (make .call index.toNat)) :
    Reaches I (codes.map Code.bytes) ⟨k, offset, stack, callers, store⟩
      ⟨index.toNat, 0, stack, (k, offset + 3) :: callers, store⟩ := by
  refine reaches_of_execute hc hi ?_
  show some (Outcome.running ⟨(make .call index.toNat).value, 0, stack, (k, offset + 3) :: callers,
    store⟩) = _
  rw [value_make_uint16 rfl]

private theorem reaches_ret {caller : Nat × Nat} (hc : codes[k]? = some c)
    (hi : c.At offset (make .ret 0)) :
    Reaches I (codes.map Code.bytes) ⟨k, offset, stack, caller :: callers, store⟩
      ⟨caller.1, caller.2, stack, callers, store⟩ :=
  reaches_of_execute hc hi rfl

/-- Where the code of a statement ends: behind itself, or at an instruction that leaves. -/
def Ends (c : Code) (exit : Opcode) (stop : Nat) : Flow → Nat → Prop
  | .next, offset => offset = stop
  | .left, offset => c.At offset (make exit 0)

/-- The machine gets to where a result says, with the stack and the callers as they were. -/
def Follows (I : Interpretation V W) (codes : List Code) (c : Code) (exit : Opcode)
    (s : State V W) (stop : Nat) (result : Flow × Store V W) : Prop :=
  ∃ offset, Ends c exit stop result.1 offset ∧
    Reaches I (codes.map Code.bytes) s { s with offset, store := result.2 }

namespace Follows

variable {exit : Opcode} {stop stop' : Nat} {result : Flow × Store V W}

private theorem of_reaches {offset' : Nat} {store' : Store V W}
    (h : Reaches I (codes.map Code.bytes) ⟨k, offset, stack, callers, store⟩
      ⟨k, offset', stack, callers, store'⟩)
    (h' : Follows I codes c exit ⟨k, offset', stack, callers, store'⟩ stop result) :
    Follows I codes c exit ⟨k, offset, stack, callers, store⟩ stop result := by
  obtain ⟨last, hends, hreaches⟩ := h'
  exact ⟨last, hends, h.trans hreaches⟩

theorem next {store' : Store V W}
    (h : Reaches I (codes.map Code.bytes) ⟨k, offset, stack, callers, store⟩
      ⟨k, stop, stack, callers, store'⟩) :
    Follows I codes c exit ⟨k, offset, stack, callers, store⟩ stop (.next, store') :=
  ⟨stop, rfl, h⟩

/-- What follows a part that does not leave. -/
theorem bind {store' : Store V W} {flow : Flow}
    (h : Follows I codes c exit ⟨k, offset, stack, callers, store⟩ stop (flow, store'))
    (hleft : flow = .left → result = (.left, store'))
    (hnext : flow = .next →
      Follows I codes c exit ⟨k, stop, stack, callers, store'⟩ stop' result) :
    Follows I codes c exit ⟨k, offset, stack, callers, store⟩ stop' result := by
  cases flow with
  | left =>
      obtain ⟨last, hends, hreaches⟩ := h
      rw [hleft rfl]
      exact ⟨last, hends, hreaches⟩
  | next =>
      obtain ⟨last, rfl, hreaches⟩ := h
      exact of_reaches hreaches (hnext rfl)

end Follows

/-! ### Statements

The induction is on the budget, because a loop runs itself again and a call runs code
of another section.  The lemmas below are its steps: what holds of everything with a
smaller budget is assumed, for all sections at once.
-/

section Statements

variable {p : Program} {r : Resolutions} {table : Std.TreeMap Nat UInt16}

/-- Whatever a budget lets a statement do, its code does. -/
def StmtSimulates (I : Interpretation V W) (p : Program) (r : Resolutions)
    (table : Std.TreeMap Nat UInt16) (codes : List Code) (budget : Nat) : Prop :=
  ∀ {exit : Opcode} {k offset : Nat} {c part : Code} {st : Stmt} {stack : List V}
    {callers : List (Nat × Nat)} {store : Store V W} {result : Flow × Store V W},
    codes[k]? = some c → StmtCode ⟨r, table, exit⟩ st part → c.Holds offset part →
    st.exec I p r budget store = some result →
      Follows I codes c exit ⟨k, offset, stack, callers, store⟩ (offset + part.size) result

/-- Whatever a budget lets statements in a row do, their code does. -/
def StmtsSimulates (I : Interpretation V W) (p : Program) (r : Resolutions)
    (table : Std.TreeMap Nat UInt16) (codes : List Code) (budget : Nat) : Prop :=
  ∀ {exit : Opcode} {k offset : Nat} {c part : Code} {body : List Stmt} {stack : List V}
    {callers : List (Nat × Nat)} {store : Store V W} {result : Flow × Store V W},
    codes[k]? = some c → StmtsCode ⟨r, table, exit⟩ body part → c.Holds offset part →
    stmtsExec I p r budget body store = some result →
      Follows I codes c exit ⟨k, offset, stack, callers, store⟩ (offset + part.size) result

variable {budget : Nat} {exit : Opcode} {result : Flow × Store V W}

private theorem stmtsCode_of_blockCode {g : CodeContext} {body : Block} {part : Code}
    (h : BlockCode g body part) : StmtsCode g body.stmts part := by
  cases h with
  | mk decls span code => exact code

private theorem follows_assign {target value : Expr} {place : Storage} {part : Code} {span : Span}
    {g : CodeContext} (hc : codes[k]? = some c) (kept : g.storage target = .ok place)
    (code : ExprCode g value part) (hpart : c.Holds offset (part ++ [place.storeCode]))
    (h : (Stmt.assign target value span).exec I p g.resolutions (budget + 1) store =
      some result) :
    Follows I codes c exit ⟨k, offset, stack, callers, store⟩
      (offset + (part ++ [place.storeCode]).size) result := by
  simp only [Stmt.exec, CodeContext.cell?_of_storage kept, Option.bind_eq_bind,
    Option.bind_eq_some_iff, Option.pure_def, Option.some.injEq, exists_eq_left'] at h
  obtain ⟨v, hv, rfl⟩ := h
  refine .next ((reaches_expr code hc hpart.left hv).trans ?_)
  rw [Code.size_append, ← Nat.add_assoc]
  exact reaches_of_execute hc hpart.right.head (execute_storeCode place v)

private theorem follows_compound {op : Operator} {opcode : Opcode} {target value : Expr}
    {place : Storage} {part : Code} {span : Span} {g : CodeContext} (hc : codes[k]? = some c)
    (kept : g.storage target = .ok place) (known : op.binaryOpcode? = some opcode)
    (code : ExprCode g value part)
    (hpart : c.Holds offset (place.loadCode :: (part ++ [make opcode 0, place.storeCode])))
    (h : (Stmt.compound op target value span).exec I p g.resolutions (budget + 1) store =
      some result) :
    Follows I codes c exit ⟨k, offset, stack, callers, store⟩
      (offset + Code.size (place.loadCode :: (part ++ [make opcode 0, place.storeCode])))
      result := by
  simp only [Stmt.exec, CodeContext.cell?_of_storage kept, Option.bind_eq_bind,
    Option.bind_eq_some_iff, Option.pure_def, Option.some.injEq, exists_eq_left'] at h
  obtain ⟨v, hv, w, hw, rfl⟩ := h
  have hcombine : execute I (make opcode 0)
      ⟨k, offset + place.loadCode.size + part.size + (make opcode 0).size,
        v :: store.read place.cell :: stack, callers, store⟩ =
      some (.running ⟨k, offset + place.loadCode.size + part.size + (make opcode 0).size,
        w :: stack, callers, store⟩) := by
    rw [execute_binary known, hw]
    rfl
  refine .next ((reaches_of_execute hc hpart.head (execute_loadCode place)).trans
    ((reaches_expr code hc hpart.tail.left hv).trans
      ((reaches_of_execute hc hpart.tail.right.head hcombine).trans ?_)))
  rw [Code.size_cons, Code.size_append, Code.size_cons, Code.size_cons, Code.size_nil,
    Nat.add_zero, ← Nat.add_assoc, ← Nat.add_assoc, ← Nat.add_assoc]
  exact reaches_of_execute hc hpart.tail.right.tail.head (execute_storeCode place w)

private theorem follows_ret {value : Expr} {part : Code} {span : Span} {g : CodeContext}
    (hc : codes[k]? = some c) (code : ExprCode g value part)
    (hpart : c.Holds offset (part ++ [(Storage.register .r0).storeCode, make g.exit 0]))
    (h : (Stmt.ret (some value) span).exec I p g.resolutions (budget + 1) store = some result) :
    Follows I codes c g.exit ⟨k, offset, stack, callers, store⟩
      (offset + (part ++ [(Storage.register .r0).storeCode, make g.exit 0]).size) result := by
  simp only [Stmt.exec, Option.bind_eq_bind, Option.bind_eq_some_iff, Option.pure_def,
    Option.some.injEq] at h
  obtain ⟨v, hv, rfl⟩ := h
  refine ⟨_, hpart.right.tail.head, (reaches_expr code hc hpart.left hv).trans ?_⟩
  exact reaches_of_execute hc hpart.right.head (execute_storeCode (.register .r0) v)

/-- What a conditional jump does after its condition. -/
theorem reaches_condition {g : CodeContext} {cond : Expr} {part : Code} {distance : Nat} {v : V}
    (hc : codes[k]? = some c) (code : ExprCode g cond part) (hpart : c.Holds offset part)
    (hjump : c.At (offset + part.size) (make .jumpIfFalse distance))
    (hfits : distance ≤ Chunk.maxDistance) (hv : cond.eval I g.resolutions store = some v) :
    Reaches I (codes.map Code.bytes) ⟨k, offset, stack, callers, store⟩
      ⟨k, if I.isFalse v then offset + part.size + 3 + distance else offset + part.size + 3, stack,
        callers, store⟩ :=
  (reaches_expr code hc hpart hv).trans (reaches_jumpIfFalse hc hjump hfits)

private theorem follows_ifThen {cond : Expr} {body : Block} {d b : Code} {span : Span}
    (ih : StmtsSimulates I p r table codes budget) (hc : codes[k]? = some c)
    (code : ExprCode ⟨r, table, exit⟩ cond d) (code' : BlockCode ⟨r, table, exit⟩ body b)
    (fits : b.size ≤ Chunk.maxDistance)
    (hpart : c.Holds offset (d ++ make .jumpIfFalse b.size :: b))
    (h : (Stmt.ifThen cond body span).exec I p r (budget + 1) store = some result) :
    Follows I codes c exit ⟨k, offset, stack, callers, store⟩
      (offset + (d ++ make .jumpIfFalse b.size :: b).size) result := by
  simp only [Stmt.exec, Option.bind_eq_bind, Option.bind_eq_some_iff] at h
  obtain ⟨v, hv, h⟩ := h
  refine .of_reaches (reaches_condition hc code hpart.left hpart.right.head fits hv) ?_
  have hstop : offset + (d ++ make .jumpIfFalse b.size :: b).size =
      offset + d.size + 3 + b.size := by
    simp only [Code.size_append, Code.size_cons, size_make, Opcode.operandSize]
    omega
  rw [hstop]
  split at h
  · rename_i hfalse
    obtain rfl := Option.some.inj h
    rw [if_pos hfalse]
    exact .next .refl
  · rename_i htrue
    rw [if_neg htrue]
    exact ih hc (stmtsCode_of_blockCode code') hpart.right.tail h

private theorem follows_ifElse {cond : Expr} {body elseBody : Block} {d b e : Code}
    {ifSpan span : Span}
    (ih : StmtsSimulates I p r table codes budget) (hc : codes[k]? = some c)
    (code : ExprCode ⟨r, table, exit⟩ cond d) (code' : BlockCode ⟨r, table, exit⟩ body b)
    (code'' : BlockCode ⟨r, table, exit⟩ elseBody e) (fits : b.size + 3 ≤ Chunk.maxDistance)
    (fits' : e.size ≤ Chunk.maxDistance)
    (hpart : c.Holds offset
      (d ++ make .jumpIfFalse (b.size + 3) :: (b ++ make .jump e.size :: e)))
    (h : (Stmt.ifElse cond body ifSpan elseBody span).exec I p r (budget + 1) store =
      some result) :
    Follows I codes c exit ⟨k, offset, stack, callers, store⟩
      (offset + (d ++ make .jumpIfFalse (b.size + 3) :: (b ++ make .jump e.size :: e)).size)
      result := by
  simp only [Stmt.exec, Option.bind_eq_bind, Option.bind_eq_some_iff] at h
  obtain ⟨v, hv, h⟩ := h
  refine .of_reaches (reaches_condition hc code hpart.left hpart.right.head fits hv) ?_
  have hstop :
      offset + (d ++ make .jumpIfFalse (b.size + 3) :: (b ++ make .jump e.size :: e)).size =
      offset + d.size + 3 + b.size + 3 + e.size := by
    simp only [Code.size_append, Code.size_cons, size_make, Opcode.operandSize]
    omega
  rw [hstop]
  split at h
  · -- The jump leads behind the jump at the end of the first body, to the second one.
    rename_i hfalse
    rw [if_pos hfalse]
    exact ih hc (stmtsCode_of_blockCode code'') hpart.right.tail.right.tail h
  · rename_i htrue
    rw [if_neg htrue]
    obtain ⟨flow, store'⟩ := result
    refine (ih hc (stmtsCode_of_blockCode code') hpart.right.tail.left h).bind ?_ ?_
    · rintro rfl
      rfl
    · rintro rfl
      exact .next (reaches_jump hc hpart.right.tail.right.head fits')

private theorem follows_whileLoop {cond : Expr} {body : Block} {d b : Code} {span : Span}
    (ih : StmtsSimulates I p r table codes budget)
    (ihLoop : StmtSimulates I p r table codes budget) (hc : codes[k]? = some c)
    (code : ExprCode ⟨r, table, exit⟩ cond d) (code' : BlockCode ⟨r, table, exit⟩ body b)
    (fits : d.size + 3 + (b.size + 3) ≤ Chunk.maxDistance)
    (hpart : c.Holds offset (d ++ make .jumpIfFalse (b.size + 3) ::
      (b ++ [make .loop (d.size + 3 + (b.size + 3))])))
    (h : (Stmt.whileLoop cond body span).exec I p r (budget + 1) store = some result) :
    Follows I codes c exit ⟨k, offset, stack, callers, store⟩
      (offset + (d ++ make .jumpIfFalse (b.size + 3) ::
        (b ++ [make .loop (d.size + 3 + (b.size + 3))])).size) result := by
  simp only [Stmt.exec, Option.bind_eq_bind, Option.bind_eq_some_iff] at h
  obtain ⟨v, hv, h⟩ := h
  have hdistance : b.size + 3 ≤ Chunk.maxDistance := by omega
  refine .of_reaches (reaches_condition hc code hpart.left hpart.right.head hdistance hv) ?_
  split at h
  · rename_i hfalse
    obtain rfl := Option.some.inj h
    rw [if_pos hfalse]
    have hstop : offset + (d ++ make .jumpIfFalse (b.size + 3) ::
        (b ++ [make .loop (d.size + 3 + (b.size + 3))])).size =
        offset + d.size + 3 + (b.size + 3) := by
      simp only [Code.size_append, Code.size_cons, Code.size_nil, size_make, Opcode.operandSize]
      omega
    rw [hstop]
    exact .next .refl
  · rename_i htrue
    rw [if_neg htrue]
    obtain ⟨⟨flow, store'⟩, hbody, h⟩ := Option.bind_eq_some_iff.mp h
    refine (ih hc (stmtsCode_of_blockCode code') hpart.right.tail.left hbody).bind ?_ ?_
    · rintro rfl
      exact (Option.some.inj h).symm
    · rintro rfl
      -- Behind the body the jump leads back to the condition, with one step of budget less.
      have hoffset : offset + d.size + 3 + b.size = offset + (d.size + 3 + b.size) := by omega
      have hback :
          c.At (offset + (d.size + 3 + b.size)) (make .loop (d.size + 3 + b.size + 3)) := by
        rw [← hoffset]
        exact hpart.right.tail.right.head
      show Follows I codes c exit ⟨k, offset + d.size + 3 + b.size, stack, callers, store'⟩ _ result
      rw [hoffset]
      exact .of_reaches (reaches_loop hc hback fits)
        (ihLoop hc (.whileLoop span code code' fits) hpart h)

/-- A call runs the section of the function that the name resolves to, and comes back. -/
theorem follows_call (hl : Linked p r table codes) (hr : p.Resolved r) {name : Ident}
    {args : Arguments} {index : UInt16} {span : Span}
    (ih : StmtsSimulates I p r table codes budget) (hc : codes[k]? = some c)
    (known : CodeContext.sectionOf ⟨r, table, exit⟩ name = .ok index)
    (hpart : c.Holds offset [make .call index.toNat])
    (h : (Stmt.call name args span).exec I p r (budget + 1) store = some result) :
    Follows I codes c exit ⟨k, offset, stack, callers, store⟩
      (offset + Code.size [make .call index.toNat]) result := by
  simp only [Stmt.exec, Option.bind_eq_bind, Option.bind_eq_some_iff] at h
  obtain ⟨f, hf, ⟨flow, store'⟩, hbody, h⟩ := h
  obtain rfl := Option.some.inj h
  obtain ⟨decl, i, f', hdecl, hi, hname, hindex⟩ := hl.function_of_sectionOf known
  -- The symbol belongs to one function only.
  obtain rfl : f = f' := by
    simp only [Program.callee?, hdecl, Option.bind_some] at hf
    have hfound : r.declaration? f.name = some decl := by simpa using List.find?_some hf
    exact List.inj_on_of_nodup_map hr.distinct (List.mem_of_find?_eq_some hf)
      (List.mem_of_getElem? hi) (hfound.trans hname.symm)
  have hsection : p.bodies[i + 1]? = some (.ret, f.body) := by
    simp [Program.bodies, hi]
  obtain ⟨callee, hcallee, body, hcode, rfl⟩ := hl.code_at hsection
  rw [← hindex] at hcallee
  have hwhole := Code.Holds.self (body ++ [make .ret 0])
  obtain ⟨last, hends, hrun⟩ := ih hcallee (stmtsCode_of_blockCode hcode) hwhole.left hbody
  have hlast : Code.At (body ++ [make .ret 0]) last (make .ret 0) := by
    cases flow with
    | next =>
        obtain rfl := hends
        exact hwhole.right.head
    | left => exact hends
  exact .next ((reaches_call hc hpart.head).trans (hrun.trans (reaches_ret hcallee hlast)))

private theorem stmtSimulates_succ (hl : Linked p r table codes) (hr : p.Resolved r)
    (ih : StmtsSimulates I p r table codes budget) (ih' : StmtSimulates I p r table codes budget) :
    StmtSimulates I p r table codes (budget + 1) := by
  intro exit k offset c part st stack callers store result hc hcode hpart h
  cases hcode with
  | assign span kept code => exact follows_assign hc kept code hpart h
  | compound span kept known code => exact follows_compound hc kept known code hpart h
  | ifThen span code code' fits => exact follows_ifThen ih hc code code' fits hpart h
  | ifElse ifSpan span code code' code'' fits fits' =>
      exact follows_ifElse ih hc code code' code'' fits fits' hpart h
  | whileLoop span code code' fits => exact follows_whileLoop ih ih' hc code code' fits hpart h
  | func name body span =>
      obtain rfl := Option.some.inj h
      exact .next .refl
  | retNone span =>
      obtain rfl := Option.some.inj h
      exact ⟨offset, hpart.head, .refl⟩
  | retSome span code => exact follows_ret hc code hpart h
  | intrinsic span code =>
      simp only [Stmt.exec, Option.bind_eq_bind, Option.bind_eq_some_iff] at h
      obtain ⟨store', hperform, h⟩ := h
      obtain rfl := Option.some.inj h
      exact .next (reaches_intrinsic code hc hpart hperform)
  | call args span known => exact follows_call hl hr ih hc known hpart h

private theorem stmtsSimulates_succ (ih : StmtsSimulates I p r table codes budget)
    (ih' : StmtSimulates I p r table codes budget) :
    StmtsSimulates I p r table codes (budget + 1) := by
  intro exit k offset c part body stack callers store result hc hcode hpart h
  cases hcode with
  | nil =>
      obtain rfl := Option.some.inj h
      exact .next .refl
  | cons code code' =>
      simp only [stmtsExec, Option.bind_eq_bind, Option.bind_eq_some_iff] at h
      obtain ⟨⟨flow, store'⟩, hfirst, h⟩ := h
      refine (ih' hc code hpart.left hfirst).bind ?_ ?_
      · rintro rfl
        exact (Option.some.inj h).symm
      · rintro rfl
        rw [Code.size_append, ← Nat.add_assoc]
        exact ih hc code' hpart.right h

/-- **Code does what statements mean, whatever the budget.** -/
theorem simulates (hl : Linked p r table codes) (hr : p.Resolved r) (budget : Nat) :
    StmtsSimulates I p r table codes budget ∧ StmtSimulates I p r table codes budget := by
  induction budget with
  | zero =>
      refine ⟨?_, ?_⟩
      · intro exit k offset c part body stack callers store result _ _ _ h
        simp [stmtsExec] at h
      · intro exit k offset c part st stack callers store result _ _ _ h
        simp [Stmt.exec] at h
  | succ budget ih =>
      exact ⟨stmtsSimulates_succ ih.1 ih.2, stmtSimulates_succ hl hr ih.1 ih.2⟩

/-- The machine halts in the store that the program evaluates to, with nothing left over. -/
theorem halts_of_evaluates (hl : Linked p r table codes) (hr : p.Resolved r)
    {store store' : Store V W} (h : p.Evaluates I r store store') :
    ∃ t, Halts I (codes.map Code.bytes) (.start store) t ∧ t.store = store' ∧ t.stack = [] ∧
      t.callers = [] := by
  obtain ⟨budget, flow, h⟩ := h
  have hfirst : p.bodies[0]? = some (.halt, p.block) := rfl
  obtain ⟨c, hc, body, hcode, rfl⟩ := hl.code_at hfirst
  have hwhole := Code.Holds.self (body ++ [make .halt 0])
  obtain ⟨last, hends, hrun⟩ :=
    (simulates hl hr budget).1 hc (stmtsCode_of_blockCode hcode) hwhole.left h
  have hlast : Code.At (body ++ [make .halt 0]) last (make .halt 0) := by
    cases flow with
    | next =>
        obtain rfl := hends
        exact hwhole.right.head
    | left => exact hends
  exact ⟨⟨0, last + 1, [], [], store'⟩, ⟨_, hrun, step_eq_execute hc hlast⟩, rfl, rfl, rfl⟩

end Statements

end Machine

/--
**Compiled code simulates the program.**  Whatever the operators and intrinsics mean
and whatever the machine starts with: if the program evaluates to a store, its code
halts in that store, with nothing on the stack and no call open, and in no other
state.
-/
theorem Compiles.halts_as_evaluated {source : String} {tabWidth : Nat} {o : CompileOptions}
    {p : Program} {r : Resolutions} {sections : List CodeSection}
    (h : Compiles source tabWidth o p r sections) {V W : Type} (I : Interpretation V W)
    (s t : Store V W) (heval : p.Evaluates I r s t) :
    ∃ m, Machine.Halts I (sections.map (·.chunk.code.toList)) (.start s) m ∧ m.store = t ∧
      m.stack = [] ∧ m.callers = [] ∧
      ∀ m', Machine.Halts I (sections.map (·.chunk.code.toList)) (.start s) m' → m' = m := by
  obtain ⟨table, codes, hl, hcodes⟩ := Codegen.linked_of_codeSections h.generated
  rw [hcodes]
  obtain ⟨m, hhalts, hstore, hstack, hcallers⟩ := Machine.halts_of_evaluates hl h.resolved heval
  exact ⟨m, hhalts, hstore, hstack, hcallers, fun m' hm' => hm'.unique hhalts⟩

/-- Natural numbers as values, and a list of what was printed as the world. -/
def Interpretation.naturals : Interpretation Nat (List Nat) where
  integer n := n.toNat
  boolean b := b.toNat
  isFalse v := v == 0
  binary op v w :=
    match op with
    | .add => some (v + w)
    | .sub => some (v - w)
    | .equal => some (v == w).toNat
    | .greater => some (decide (v > w)).toNat
    | _ => none
  unary _ _ := none
  cas _ _ _ _ := none
  cpy _ _ _ _ := none
  dbg v s := some { s with world := v :: s.world }
  int _ _ := none
  xchg _ _ _ := none

/-- The countdown prints 2 and 0, returns 7 in between, and its code halts so. -/
theorem countdown_halts_as_evaluated :
    ∃ p r sections t m, Compiles countdown 4 .default p r sections ∧
      p.Evaluates .naturals r ⟨fun _ => 0, fun _ => 0, []⟩ t ∧
      Machine.Halts .naturals (sections.map (·.chunk.code.toList))
        (.start ⟨fun _ => 0, fun _ => 0, []⟩) m ∧ m.store = t ∧
      t.world = [0, 2] ∧ t.registers .r0 = 7 := by
  have htest : Compiles.passes countdown 4 .default (fun p r _ =>
      (stmtsExec .naturals p r 30 p.block.stmts ⟨fun _ => 0, fun _ => 0, []⟩).any fun result =>
        result.2.world == [0, 2] && result.2.registers .r0 == 7) = true := by
    decide +kernel
  obtain ⟨p, r, sections, hcompiles, hresult⟩ := Compiles.of_passes htest
  obtain ⟨⟨flow, t⟩, hexec, hanswer⟩ := (Option.any_eq_true _ _).mp hresult
  simp only [Bool.and_eq_true, beq_iff_eq] at hanswer
  have heval : p.Evaluates .naturals r ⟨fun _ => 0, fun _ => 0, []⟩ t := ⟨30, flow, hexec⟩
  obtain ⟨m, hhalts, hstore, -⟩ := hcompiles.halts_as_evaluated .naturals _ t heval
  exact ⟨p, r, sections, t, m, hcompiles, heval, hhalts, hstore, hanswer.1, hanswer.2⟩

end StackCode
