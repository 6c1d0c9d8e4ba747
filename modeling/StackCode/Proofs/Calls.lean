/-
Calls and the sections that they reach.

A function is three things: a statement somewhere in the tree, a symbol that names resolve
to, and a section of code.  The statements number the sections in the order of the text, and
each declares a symbol of its own, so the three correspond one to one
(`existsUnique_symbol`, `Resolved.existsUnique_section`).

A call is written as one instruction in the section of the block that it stands in, and no
other instruction is a call.  So the calls of a block and the calls in its section can be
put side by side in order, and what is said of each pair is that the instruction names the
section of the function that the name resolves to.  `Reaches` says this of one pair and
`StmtCode.reaches` of a statement and its code.
-/
import StackCode.Proofs.Sections

namespace StackCode

open Instruction

/-! ### Calls in a tree

`Stmt.calls` stops at functions and `Stmt.allCalls` does not, since the code of a function
that stands inside a block is not in the section of the block.  That nothing is lost in
between is a permutation and no equality: a function in the middle of a block has its calls
there in `allCalls`, and behind those of the whole block where the bodies are taken one
after another.
-/

mutual

/-- The names that a statement calls, outside of functions that stand in it. -/
def Stmt.calls : Stmt → List Ident
  | .call name _ _ => [name]
  | .ifThen _ body _ => body.calls
  | .ifElse _ body _ elseBody _ => body.calls ++ elseBody.calls
  | .whileLoop _ body _ => body.calls
  | .assign .. | .compound .. | .func .. | .ret .. | .intrinsic .. => []

def Block.calls : Block → List Ident
  | ⟨_, body, _⟩ => stmtsCalls body

def stmtsCalls : List Stmt → List Ident
  | [] => []
  | s :: rest => s.calls ++ stmtsCalls rest

end

mutual

/-- The names that a statement calls, wherever in it. -/
def Stmt.allCalls : Stmt → List Ident
  | .call name _ _ => [name]
  | .ifThen _ body _ => body.allCalls
  | .ifElse _ body _ elseBody _ => body.allCalls ++ elseBody.allCalls
  | .whileLoop _ body _ => body.allCalls
  | .func _ body _ => body.allCalls
  | .assign .. | .compound .. | .ret .. | .intrinsic .. => []

def Block.allCalls : Block → List Ident
  | ⟨_, body, _⟩ => stmtsAllCalls body

def stmtsAllCalls : List Stmt → List Ident
  | [] => []
  | s :: rest => s.allCalls ++ stmtsAllCalls rest

end

/-- The names that functions call, each outside of functions that stand in it. -/
def funcsCalls (fs : List Func) : List Ident := fs.flatMap fun f => f.body.calls

private theorem funcsCalls_append (fs gs : List Func) :
    funcsCalls (fs ++ gs) = funcsCalls fs ++ funcsCalls gs :=
  List.flatMap_append

/-- Two blocks in a row, each with its functions. -/
theorem perm_append_append {α : Type} {l l' a a' b b' : List α} (h : l.Perm (a ++ b))
    (h' : l'.Perm (a' ++ b')) : (l ++ l').Perm ((a ++ a') ++ (b ++ b')) := by
  refine (h.append h').trans ?_
  rw [List.append_assoc, List.append_assoc]
  exact (List.perm_append_comm_assoc b a' b').append_left a

mutual

theorem Stmt.allCalls_perm :
    ∀ s : Stmt, s.allCalls.Perm (s.calls ++ funcsCalls s.functions)
  | .call name args span => by
      rw [Stmt.allCalls, Stmt.calls, Stmt.functions]
      exact .refl _
  | .ifThen cond body span => by
      rw [Stmt.allCalls, Stmt.calls, Stmt.functions]
      exact body.allCalls_perm
  | .ifElse cond body ifSpan elseBody span => by
      rw [Stmt.allCalls, Stmt.calls, Stmt.functions, funcsCalls_append]
      exact perm_append_append body.allCalls_perm elseBody.allCalls_perm
  | .whileLoop cond body span => by
      rw [Stmt.allCalls, Stmt.calls, Stmt.functions]
      exact body.allCalls_perm
  | .func name body span => by
      rw [Stmt.allCalls, Stmt.calls, Stmt.functions]
      exact body.allCalls_perm
  | .assign .. | .compound .. | .ret .. | .intrinsic .. => by
      rw [Stmt.allCalls, Stmt.calls, Stmt.functions]
      exact .refl _

theorem Block.allCalls_perm :
    ∀ b : Block, b.allCalls.Perm (b.calls ++ funcsCalls b.functions)
  | ⟨_, body, _⟩ => by
      rw [Block.allCalls, Block.calls, Block.functions]
      exact stmtsAllCalls_perm body

theorem stmtsAllCalls_perm :
    ∀ body : List Stmt,
      (stmtsAllCalls body).Perm (stmtsCalls body ++ funcsCalls (stmtsFunctions body))
  | [] => by
      rw [stmtsAllCalls, stmtsCalls, stmtsFunctions]
      exact .refl _
  | s :: rest => by
      rw [stmtsAllCalls, stmtsCalls, stmtsFunctions, funcsCalls_append]
      exact perm_append_append s.allCalls_perm (stmtsAllCalls_perm rest)

end

/-- Every call of a program stands in just one of the blocks that get a section. -/
theorem Program.allCalls_perm (p : Program) :
    p.block.allCalls.Perm (p.bodies.flatMap fun b => b.2.calls) := by
  rw [Program.bodies, List.flatMap_cons, List.flatMap_map, p.functions_eq]
  exact p.block.allCalls_perm

/-! ### Calls in code

`Code.calls` picks the calls out of a list of instructions.  Jumps and loads of constants
have operands that look like anything, but these are no instructions of their own, so
`calls` is taken of `Code` and not of bytes.  Every operator has an opcode other than
`call`, which is all that is used of the tables of operators here.
-/

/-- The calls in code. -/
def Code.calls (c : Code) : List Instruction := c.filter fun i => i.op = .call

@[simp] theorem Code.calls_append (c d : Code) : Code.calls (c ++ d) = c.calls ++ d.calls :=
  List.filter_append ..

private theorem Code.calls_cons_of_ne {i : Instruction} (h : i.op ≠ .call) (c : Code) :
    Code.calls (i :: c) = c.calls :=
  List.filter_cons_of_neg (by simpa using h)

section Code

variable {g : CodeContext} {c : Code}

private theorem op_loadCode_ne_call (place : Storage) : place.loadCode.op ≠ .call := by
  cases place <;> simp [Storage.loadCode]

private theorem op_storeCode_ne_call (place : Storage) : place.storeCode.op ≠ .call := by
  cases place <;> simp [Storage.storeCode]

private theorem ne_call_of_unaryOpcode? {op : Operator} {opcode : Opcode}
    (h : op.unaryOpcode? = some opcode) : opcode ≠ .call := by
  rintro rfl
  cases op <;> simp [Operator.unaryOpcode?] at h

private theorem ne_call_of_binaryOpcode? {op : Operator} {opcode : Opcode}
    (h : op.binaryOpcode? = some opcode) : opcode ≠ .call := by
  rintro rfl
  cases op <;> simp [Operator.binaryOpcode?] at h

/-- An expression calls nothing. -/
theorem ExprCode.calls_eq_nil {e : Expr} (h : ExprCode g e c) : c.calls = [] := by
  induction h with
  | integer n span =>
      refine (Code.calls_cons_of_ne ?_ _).trans rfl
      unfold integerCode
      split
      · simp
      · split <;> simp
  | boolean b span =>
      refine (Code.calls_cons_of_ne ?_ _).trans rfl
      cases b <;> simp [booleanCode]
  | register r span => exact Code.calls_cons_of_ne (op_loadCode_ne_call _) _
  | ident kept => exact Code.calls_cons_of_ne (op_loadCode_ne_call _) _
  | unary span code known ih =>
      rw [Code.calls_append, ih, Code.calls_cons_of_ne (ne_call_of_unaryOpcode? known)]
      rfl
  | binary span code code' known ih ih' =>
      rw [Code.calls_append, Code.calls_append, ih, ih',
        Code.calls_cons_of_ne (ne_call_of_binaryOpcode? known)]
      rfl

private theorem IntrinsicCode.calls_eq_nil {i : Intrinsic} {args : List Expr}
    (h : IntrinsicCode g i args c) : c.calls = [] := by
  cases h with
  | cas named code code' =>
      rw [Code.calls_append, Code.calls_append, code.calls_eq_nil, code'.calls_eq_nil]
      rfl
  | cpy code code' code'' =>
      rw [Code.calls_append, Code.calls_append, Code.calls_append, code.calls_eq_nil,
        code'.calls_eq_nil, code''.calls_eq_nil]
      rfl
  | dbg code =>
      rw [Code.calls_append, code.calls_eq_nil]
      rfl
  | int code =>
      rw [Code.calls_append, code.calls_eq_nil]
      rfl
  | xchg named named' => rfl

end Code

/-! ### Which section a call reaches

A call mentions a section by its number.  `Program.SectionOf` says what the number means:
section `k` has the code of the function that declares the symbol, counted from 1 since
section 0 is the program itself.  `Linked` has the table from symbols to sections that the
code was written with.
-/

/-- The symbol is a function. -/
def Resolutions.IsFunc (r : Resolutions) (decl : Nat) : Prop :=
  ∃ s, r.symbols[decl]? = some s ∧ s.kind = .func

/-- The section is that of the function that declares the symbol. -/
def Program.SectionOf (p : Program) (r : Resolutions) (decl k : Nat) : Prop :=
  ∃ j f, k = j + 1 ∧ p.functions[j]? = some f ∧ r.declaration? f.name = some decl

/-- The instruction calls the section of the function that the name resolves to. -/
def Reaches (p : Program) (r : Resolutions) (name : Ident) (i : Instruction) : Prop :=
  i.op = .call ∧ ∃ decl, r.resolve? name = some decl ∧ p.SectionOf r decl i.value

section Reaches

variable {p : Program} {r : Resolutions} {table : Std.TreeMap Nat UInt16} {codes : List Code}
  {exit : Opcode} {c : Code}

private theorem Linked.reaches (hl : Linked p r table codes) {name : Ident} {index : UInt16}
    (h : CodeContext.sectionOf ⟨r, table, exit⟩ name = .ok index) :
    Reaches p r name (make .call index.toNat) := by
  obtain ⟨decl, k, f, hresolve, hf, hdecl, hk⟩ := hl.function_of_sectionOf h
  refine ⟨rfl, decl, hresolve, k, f, ?_, hf, hdecl⟩
  rw [value_make_uint16 rfl, hk]

mutual

theorem StmtCode.reaches (hl : Linked p r table codes) (hexit : exit ≠ .call) {s : Stmt} {c : Code}
    (h : StmtCode ⟨r, table, exit⟩ s c) : List.Forall₂ (Reaches p r) s.calls c.calls := by
  cases h with
  | assign span kept code =>
      rw [Code.calls_append, code.calls_eq_nil, Code.calls_cons_of_ne (op_storeCode_ne_call _)]
      exact .nil
  | compound span kept known code =>
      rw [Code.calls_cons_of_ne (op_loadCode_ne_call _), Code.calls_append, code.calls_eq_nil,
        Code.calls_cons_of_ne (ne_call_of_binaryOpcode? known),
        Code.calls_cons_of_ne (op_storeCode_ne_call _)]
      exact .nil
  | ifThen span code code' fits =>
      rw [Code.calls_append, code.calls_eq_nil, Code.calls_cons_of_ne (by simp), Stmt.calls]
      exact code'.reaches hl hexit
  | ifElse ifSpan span code code' code'' fits fits' =>
      rw [Code.calls_append, code.calls_eq_nil, Code.calls_cons_of_ne (by simp),
        Code.calls_append, Code.calls_cons_of_ne (by simp), Stmt.calls]
      exact List.rel_append (code'.reaches hl hexit) (code''.reaches hl hexit)
  | whileLoop span code code' fits =>
      rw [Code.calls_append, code.calls_eq_nil, Code.calls_cons_of_ne (by simp),
        Code.calls_append, Code.calls_cons_of_ne (by simp), Stmt.calls]
      exact (List.append_nil _).symm ▸ code'.reaches hl hexit
  | func name body span => exact .nil
  | retNone span =>
      rw [Code.calls_cons_of_ne hexit]
      exact .nil
  | retSome span code =>
      rw [Code.calls_append, code.calls_eq_nil, Code.calls_cons_of_ne (op_storeCode_ne_call _),
        Code.calls_cons_of_ne hexit]
      exact .nil
  | intrinsic span code =>
      rw [code.calls_eq_nil]
      exact .nil
  | call args span known => exact .cons (hl.reaches known) .nil

theorem BlockCode.reaches (hl : Linked p r table codes) (hexit : exit ≠ .call) {b : Block}
    {c : Code} (h : BlockCode ⟨r, table, exit⟩ b c) :
    List.Forall₂ (Reaches p r) b.calls c.calls := by
  cases h with
  | mk decls span code =>
      rw [Block.calls]
      exact code.reaches hl hexit

theorem StmtsCode.reaches (hl : Linked p r table codes) (hexit : exit ≠ .call) {body : List Stmt}
    {c : Code} (h : StmtsCode ⟨r, table, exit⟩ body c) :
    List.Forall₂ (Reaches p r) (stmtsCalls body) c.calls := by
  cases h with
  | nil => exact .nil
  | cons code code' =>
      rw [stmtsCalls, Code.calls_append]
      exact List.rel_append (code.reaches hl hexit) (code'.reaches hl hexit)

end

end Reaches

/-! ### Functions, symbols and sections

From a section to its symbol there is nothing but the record of the declaration, and the
walk of the analysis has left one for the name of every function (`isFunc_of_analyze`).  Back
from a symbol to its section it takes more: a symbol that is a function was declared by a
function of the program (`Resolved.defined`), and by only one of them (`Resolved.distinct`).
-/

namespace Program

variable {p : Program} {r : Resolutions}

/-- A function declares a symbol that is a function. -/
theorem isFunc_of_analyze (hnamed : p.WellNamed) (h : p.analyze = .ok r) {f : Func}
    (hf : f ∈ p.functions) : ∃ decl, r.declaration? f.name = some decl ∧ r.IsFunc decl := by
  obtain ⟨events, rfl, hacc⟩ := analyze_traces h
  obtain ⟨before, after, rfl⟩ := List.append_of_mem (hnamed.declare_mem hacc hf)
  refine ⟨_, hnamed.declaration?_of_split hacc,
    ⟨f.name.name, .func, f.name.span, none, none, false⟩, ?_, rfl⟩
  rw [Resolutions.replay_append, Resolutions.replay_cons]
  -- A function has no type that could still be found out, so its symbol stays as it is.
  refine Resolutions.getElem?_replay after (Symbol.settled_of_func rfl) ?_
  exact Array.getElem?_push_size

/-- A section of a function belongs to one symbol. -/
theorem existsUnique_symbol (hfunc : ∀ f ∈ p.functions,
    ∃ decl, r.declaration? f.name = some decl ∧ r.IsFunc decl) {k : Nat} (hpos : 0 < k)
    (hk : k ≤ p.functions.length) : ∃! decl, r.IsFunc decl ∧ p.SectionOf r decl k := by
  obtain ⟨j, rfl⟩ : ∃ j, k = j + 1 := ⟨k - 1, by omega⟩
  have hj : p.functions[j]? = some p.functions[j] := List.getElem?_eq_getElem hk
  obtain ⟨decl, hdecl, hkind⟩ := hfunc _ (List.mem_of_getElem? hj)
  refine ⟨decl, ⟨hkind, j, _, rfl, hj, hdecl⟩, ?_⟩
  rintro decl' ⟨-, j', f, hjj', hf, hdecl'⟩
  obtain rfl := Nat.succ.inj hjj'
  obtain rfl := Option.some.inj (hj.symm.trans hf)
  exact Option.some.inj (hdecl'.symm.trans hdecl)

/-- A symbol that is a function has one section. -/
theorem Resolved.existsUnique_section (hr : p.Resolved r) {decl : Nat} (h : r.IsFunc decl) :
    ∃! k, (0 < k ∧ k ≤ p.functions.length) ∧ p.SectionOf r decl k := by
  obtain ⟨s, hs, hkind⟩ := h
  obtain ⟨f, hf, hdecl⟩ := hr.defined hs hkind
  obtain ⟨j, hj⟩ := List.getElem?_of_mem hf
  obtain ⟨hlt, -⟩ := List.getElem?_eq_some_iff.mp hj
  refine ⟨j + 1, ⟨⟨Nat.succ_pos j, hlt⟩, j, f, rfl, hj, hdecl⟩, ?_⟩
  rintro _ ⟨-, j', f', rfl, hj', hdecl'⟩
  have hsame : (p.functions.map fun f => r.declaration? f.name)[j]? =
      (p.functions.map fun f => r.declaration? f.name)[j']? := by
    rw [List.getElem?_map, List.getElem?_map, hj, hj', Option.map_some, Option.map_some, hdecl,
      hdecl']
  rw [(List.getElem?_inj (by simpa using hlt) hr.distinct).mp hsame]

end Program

namespace Compiles

variable {source : String} {tabWidth : Nat} {o : CompileOptions} {p : Program} {r : Resolutions}
  {sections : List CodeSection}

/--
**Functions and sections correspond one to one, and calls reach the right section.**  Section 0
has the code of the top of the program and section `k + 1` that of function `k`; each section of
a function belongs to one symbol and each symbol that is a function has one section; every call
stands in one of the blocks, and the calls in its section are, in order, those of the block.
-/
theorem calls_reach_sections (h : Compiles source tabWidth o p r sections) :
    (∃ table, List.Forall₂ (fun b s => Codegen.sectionCode ⟨r, table, b.1⟩ b.2 = .ok s.chunk)
      p.bodies sections) ∧
    (∀ k, 0 < k → k < sections.length → ∃! decl, r.IsFunc decl ∧ p.SectionOf r decl k) ∧
    (∀ decl, r.IsFunc decl →
      ∃! k, (0 < k ∧ k < sections.length) ∧ p.SectionOf r decl k) ∧
    p.block.allCalls.Perm (p.bodies.flatMap fun b => b.2.calls) ∧
    List.Forall₂ (fun b s => ∃ c, Instruction.sweep s.chunk.code.toList = some c ∧
      List.Forall₂ (Reaches p r) b.2.calls (c.filter fun i => i.op = .call)) p.bodies sections := by
  obtain ⟨-, table, -, hall⟩ := Codegen.codeSections_eq_ok h.generated
  obtain ⟨table', codes, hl, hbytes⟩ := Codegen.linked_of_codeSections h.generated
  have hnamed := Program.wellNamed_of_parse h.parsed
  have hlength := Codegen.length_of_codeSections h.generated
  refine ⟨⟨table, hall⟩, ?_, ?_, p.allCalls_perm, ?_⟩
  · intro k hpos hk
    rw [hlength] at hk
    exact Program.existsUnique_symbol (fun _ hf => Program.isFunc_of_analyze hnamed h.analyzed hf)
      hpos (Nat.le_of_lt_succ hk)
  · intro decl hdecl
    simp only [hlength, Nat.lt_succ_iff]
    exact h.resolved.existsUnique_section hdecl
  · have hcodes : List.Forall₂ (fun b bytes => ∃ c, Instruction.sweep bytes = some c ∧
        List.Forall₂ (Reaches p r) b.2.calls (Code.calls c)) p.bodies (codes.map Code.bytes) := by
      rw [List.forall₂_map_right_iff]
      have hexits := (List.forall₂_and_left _ _).mpr
        ⟨fun b hb => Program.exit_of_mem_bodies hb, hl.code⟩
      refine hexits.imp ?_
      rintro ⟨exit, b⟩ c ⟨hexit, body, hbody, rfl⟩
      have hne : exit ≠ .call := by rcases hexit with rfl | rfl <;> simp
      refine ⟨_, Code.sweep_bytes _, ?_⟩
      rw [Code.calls_append, Code.calls_cons_of_ne hne]
      exact (List.append_nil _).symm ▸ hbody.reaches hl hne
    rw [← hbytes, List.forall₂_map_right_iff] at hcodes
    exact hcodes

/-- A call ahead of its function, functions of one name in two blocks, and one that calls itself. -/
def namesakes : String :=
  "g(); if true { func f { f(); g(); } f(); } else { func f { g(); } f(); } func g { }"

/-- The calls of the namesakes are to sections 3, 1 and 2, and in the functions to 1, 3 and 3. -/
theorem namesakes_calls_reach_sections :
    ∃ p r sections, Compiles namesakes 4 .default p r sections ∧
      sections.map (fun s => ((Instruction.sweep s.chunk.code.toList).map fun c =>
        (Code.calls c).map Instruction.value)) = [some [3, 1, 2], some [1, 3], some [3], some []] ∧
      (∀ decl, r.IsFunc decl → ∃! k, (0 < k ∧ k < sections.length) ∧ p.SectionOf r decl k) ∧
      List.Forall₂ (fun b s => ∃ c, Instruction.sweep s.chunk.code.toList = some c ∧
        List.Forall₂ (Reaches p r) b.2.calls (c.filter fun i => i.op = .call)) p.bodies
        sections := by
  have htest : Compiles.passes namesakes 4 .default (fun _ _ sections =>
      decide (sections.map (fun s => ((Instruction.sweep s.chunk.code.toList).map fun c =>
        (Code.calls c).map Instruction.value)) =
          [some [3, 1, 2], some [1, 3], some [3], some []])) = true := by
    decide +kernel
  obtain ⟨p, r, sections, hcompiles, hcalls⟩ := Compiles.of_passes htest
  obtain ⟨-, -, hsymbols, -, hreaches⟩ := hcompiles.calls_reach_sections
  exact ⟨p, r, sections, hcompiles, of_decide_eq_true hcalls, hsymbols, hreaches⟩

end Compiles

end StackCode
