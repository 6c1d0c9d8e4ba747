/-
Programs that differ in their layout only are put into the same code.

Code is written from the shape of the tree, from what names stand for, and from how much was
written before; places only go into errors and, as lines, into the line of every byte.  So
the bytes are the same, and where lines are kept the whole chunk is.  `EmitterAlike` has
both: the code is equal, and if the matching keeps lines the emitters are.

From there it goes up by `Codegen.Agrees` to sections (`sectionCode_alike`) and by
`ExceptAlike` to whole images.
-/
import StackCode.Proofs.Likeness.Analysis
import StackCode.Proofs.Sections

namespace StackCode

open Sequencing

/-- Errors that differ in their places only. -/
def CodegenError.Same (e e' : CodegenError) : Prop := e.unplaced = e'.unplaced

/-- Chunks with the same code, and the same lines if lines are kept. -/
structure ChunkAlike (M : Matching) (c c' : Chunk) : Prop where
  code : c.code = c'.code
  same : M.lines → c = c'

/-- Emitters that have written the same. -/
structure EmitterAlike (M : Matching) (e e' : Emitter) : Prop where
  code : e.chunk.code = e'.chunk.code
  same : M.lines → e = e'

/-- What is written behind the same is the same. -/
theorem EmitterAlike.written {M : Matching} {f : Emitter → Emitter} {bs : List UInt8}
    {e e' : Emitter} (h : EmitterAlike M e e') (hf : ∀ e, (f e).bytes = e.bytes ++ bs) :
    EmitterAlike M (f e) (f e') := by
  refine ⟨?_, fun hlines => congrArg f (h.same hlines)⟩
  have hbytes : e.bytes = e'.bytes := congrArg Array.toList h.code
  have hwritten : (f e).bytes = (f e').bytes := by rw [hf, hf, hbytes]
  exact Array.toList_inj.mp hwritten

/-- Code for two programs that are alike depends on the same things. -/
structure ContextAlike (M : Matching) (g g' : CodeContext) : Prop where
  resolutions : ResolvedAlike M g.resolutions g'.resolutions
  sections : g.sections = g'.sections
  exit : g.exit = g'.exit

/-! ### What names and expressions stand for

`ContextAlike` is what code depends on besides the tree.  The section table has numbers of
symbols in it and no places, so it is equal.  What is looked up is the symbol of a name up
to its place, and neither its kind nor its slot has one.
-/

section Places

variable {M : Matching} {g g' : CodeContext} {id id' : Ident} {e e' : Expr}

theorem ResolvedAlike.resolveSymbol? {r r' : Resolutions} (h : ResolvedAlike M r r')
    (hid : M.Name id id') :
    (r.resolveSymbol? id).map Symbol.unplaced = (r'.resolveSymbol? id').map Symbol.unplaced := by
  unfold Resolutions.resolveSymbol?
  rw [h.references hid]
  cases r'.resolve? id' with
  | none => rfl
  | some n => exact h.getElem?_eq n

private theorem unresolved_same (hid : M.Name id id') :
    CodegenError.Same (CodeContext.unresolved id) (CodeContext.unresolved id') := by
  unfold CodeContext.unresolved
  rw [M.name_eq hid]
  rfl

namespace ContextAlike

theorem identStorage (hg : ContextAlike M g g') (hid : M.Name id id') :
    ExceptAlike CodegenError.Same Eq (g.identStorage id) (g'.identStorage id') := by
  have hsymbol := hg.resolutions.resolveSymbol? hid
  unfold CodeContext.identStorage
  generalize g.resolutions.resolveSymbol? id = s, g'.resolutions.resolveSymbol? id' = s' at hsymbol
  cases s with
  | none =>
      cases s' with
      | none => exact .error (unresolved_same hid)
      | some s' => simp at hsymbol
  | some s =>
      cases s' with
      | none => simp at hsymbol
      | some s' =>
          have hs : s.Same s' := Option.some.inj hsymbol
          dsimp only
          rw [hs.kind, hs.slot?, M.name_eq hid]
          cases s'.kind with
          | registerAlias r => exact .ok rfl
          | func => exact .error (by rfl)
          | var =>
              cases s'.slot? with
              | none => exact .error (by rfl)
              | some slot =>
                  dsimp only
                  by_cases hlt : slot < CodeContext.maxVariables
                  · rw [if_pos hlt, if_pos hlt]
                    exact .ok rfl
                  · rw [if_neg hlt, if_neg hlt]
                    exact .error (by rfl)

theorem storage (hg : ContextAlike M g g') (he : ExprAlike M e e') :
    ExceptAlike CodegenError.Same Eq (g.storage e) (g'.storage e') := by
  cases he with
  | register => exact .ok rfl
  | ident hid => exact hg.identStorage hid
  | binary | unary | integer | boolean => exact .error (by rfl)

theorem registerOperand (hg : ContextAlike M g g') (he : ExprAlike M e e') :
    ExceptAlike CodegenError.Same Eq (g.registerOperand e) (g'.registerOperand e') := by
  have hplace := hg.storage he
  unfold CodeContext.registerOperand
  generalize g.storage e = x, g'.storage e' = x' at hplace
  cases hplace with
  | error h => exact .error h
  | @ok place place' h =>
      subst h
      cases place with
      | register r => exact .ok rfl
      | slot n => exact .error (by rfl)

theorem sectionOf (hg : ContextAlike M g g') (hid : M.Name id id') :
    ExceptAlike CodegenError.Same Eq (g.sectionOf id) (g'.sectionOf id') := by
  unfold CodeContext.sectionOf
  rw [hg.resolutions.references hid, hg.sections]
  cases (g'.resolutions.resolve? id').bind fun decl => g'.sections[decl]? with
  | some index => exact .ok rfl
  | none => exact .error (unresolved_same hid)

end ContextAlike

end Places

namespace Codegen

/-- Two steps write the same behind what is the same. -/
def Agrees {α : Type} (M : Matching) (x x' : Generating α) : Prop :=
  Lockstep CodegenError.Same (EmitterAlike M) x x' Eq (EmitterAlike M)

/-! ### Steps

What is written depends on the emitter in two ways, by the line that is set and by the size
for jumps.  The former is an instance of `EmitterAlike.same`, the latter follows from
`code`, and `get_then` is for steps that ask for it.
-/

section Steps

variable {M : Matching} {α β : Type}

theorem Agrees.then {x x' : Generating α} {f f' : α → Generating β} (hx : Agrees M x x')
    (hf : ∀ a, Agrees M (f a) (f' a)) : Agrees M (x >>= f) (x' >>= f') := by
  refine Lockstep.bind hx ?_
  rintro a _ rfl
  exact hf a

theorem agrees_throw {e e' : CodegenError} (he : CodegenError.Same e e') :
    Agrees M (throw e : Generating α) (throw e') := .throw he

private theorem ofExcept_agrees {x x' : Except CodegenError α}
    (h : ExceptAlike CodegenError.Same Eq x x') : Agrees M (ofExcept x) (ofExcept x') := by
  cases h with
  | ok ha => exact .pure ha id
  | error he => exact agrees_throw he

private theorem opcodeOr_agrees (op? : Option Opcode) (span span' : Span) (message : String) :
    Agrees M (opcodeOr op? span message) (opcodeOr op? span' message) := by
  cases op? with
  | some op => exact .pure rfl id
  | none => exact agrees_throw (by rfl)

private theorem emit_agrees {f : Emitter → Emitter} {bs : List UInt8}
    (hf : ∀ e, (f e).bytes = e.bytes ++ bs) : Agrees M (emit f) (emit f) :=
  fun _ _ he => .ok rfl (he.written hf)

private theorem emit_op_agrees (op : Opcode) : Agrees M (emit (·.op op)) (emit (·.op op)) :=
  emit_agrees (Emitter.bytes_op · op)

private theorem load_agrees (place : Storage) : Agrees M (load place) (load place) := by
  cases place with
  | register r => exact emit_agrees (Emitter.opByte_wrote · r rfl)
  | slot n => exact emit_agrees (Emitter.opU16_wrote · n rfl)

private theorem store_agrees (place : Storage) : Agrees M (store place) (store place) := by
  cases place with
  | register r => exact emit_agrees (Emitter.opByte_wrote · r rfl)
  | slot n => exact emit_agrees (Emitter.opU16_wrote · n rfl)

private theorem setLine_agrees {span span' : Span} (h : SpanAlike M span span') :
    Agrees M (emit (·.setLine span.line)) (emit (·.setLine span'.line)) := by
  intro e e' he
  refine .ok rfl ⟨he.code, fun hlines => ?_⟩
  rw [he.same hlines, h hlines]

private theorem jump_agrees (op : Opcode) : Agrees M (jump op) (jump op) := by
  intro e e' he
  have hsize : e.chunk.size + 1 = e'.chunk.size + 1 := by
    unfold Chunk.size
    rw [he.code]
  exact .ok hsize (he.written (Emitter.bytes_opU16 · op 0xFFFF))

/-- A step may depend on how much was written. -/
theorem get_then {f f' : Emitter → Generating β}
    (hf : ∀ e e', e.size = e'.size → Agrees M (f e) (f' e')) :
    Agrees M (get >>= f) (get >>= f') :=
  fun e e' he => hf e e' (congrArg Array.size he.code) he

theorem patch_agrees (offset : Nat) (span span' : Span) :
    Agrees M (patch offset span) (patch offset span') := by
  intro e e' he
  have hsize : e.size = e'.size := congrArg Array.size he.code
  rw [patch_eq, patch_eq, hsize]
  by_cases hfits : e'.size - offset - 2 ≤ Chunk.maxDistance
  · rw [if_pos hfits, if_pos hfits]
    refine .ok rfl ⟨?_, fun hlines => by rw [he.same hlines]⟩
    simp only [Chunk.setDistance, he.code]
  · rw [if_neg hfits, if_neg hfits]
    exact .error (by rfl)

theorem loop_agrees (start : Nat) (span span' : Span) :
    Agrees M (loop start span) (loop start span') := by
  intro e e' he
  have hsize : e.size = e'.size := congrArg Array.size he.code
  rw [loop_eq, loop_eq, hsize]
  by_cases hfits : e'.size + 3 - start ≤ Chunk.maxDistance
  · rw [if_pos hfits, if_pos hfits]
    exact .ok rfl (he.written (Emitter.bytes_opU16 · .loop _))
  · rw [if_neg hfits, if_neg hfits]
    exact .error (by rfl)

end Steps

/-! ### Expressions and simple statements

Each lemma follows its definition in `Codegen` and uses one of the lookups above where the
definition does.
-/

section Simple

variable {M : Matching} {g g' : CodeContext} {e e' : Expr}

private theorem expr_agrees (hg : ContextAlike M g g') (h : ExprAlike M e e') :
    Agrees M (expr g e) (expr g' e') := by
  induction h with
  | integer => exact emit_agrees (Emitter.int_wrote · _)
  | boolean => exact emit_agrees (Emitter.bool_wrote · _)
  | register => exact emit_agrees (Emitter.opByte_wrote · _ rfl)
  | ident hid => exact (ofExcept_agrees (hg.identStorage hid)).then fun place => load_agrees place
  | unary _ _ ih =>
      refine ih.then fun _ => (opcodeOr_agrees ..).then fun opcode => ?_
      exact emit_op_agrees opcode
  | binary _ _ _ ihl ihr =>
      refine ihl.then fun _ => ihr.then fun _ => (opcodeOr_agrees ..).then fun opcode => ?_
      exact emit_op_agrees opcode

theorem assign_agrees {v v' : Expr} (hg : ContextAlike M g g') (ht : ExprAlike M e e')
    (hv : ExprAlike M v v') : Agrees M (assign g e v) (assign g' e' v') := by
  refine (ofExcept_agrees (hg.storage ht)).then fun place => ?_
  exact (expr_agrees hg hv).then fun _ => store_agrees place

theorem compound_agrees {v v' : Expr} (op : Operator) (hg : ContextAlike M g g')
    (ht : ExprAlike M e e') (hv : ExprAlike M v v') (span span' : Span) :
    Agrees M (compound g op e v span) (compound g' op e' v' span') := by
  refine (ofExcept_agrees (hg.storage ht)).then fun place => ?_
  refine (opcodeOr_agrees ..).then fun opcode => ?_
  refine (load_agrees place).then fun _ => (expr_agrees hg hv).then fun _ => ?_
  exact (emit_op_agrees opcode).then fun _ => store_agrees place

private theorem ret_agrees {v v' : Option Expr} (hg : ContextAlike M g g')
    (hv : Option.Rel (ExprAlike M) v v') : Agrees M (ret g v) (ret g' v') := by
  cases hv with
  | none =>
      simp only [ret, hg.exit]
      exact emit_op_agrees _
  | some hv =>
      simp only [ret, hg.exit]
      refine (expr_agrees hg hv).then fun _ => ?_
      exact Agrees.then (emit_agrees (Emitter.opByte_wrote · _ rfl)) fun _ => emit_op_agrees _

theorem intrinsic_agrees {args args' : List Expr} (i : Intrinsic) (hg : ContextAlike M g g')
    (h : List.Forall₂ (ExprAlike M) args args') (span span' : Span) :
    Agrees M (intrinsic g i args span) (intrinsic g' i args' span') := by
  -- With too few arguments both sides stop, with errors that differ in their places only.
  have hmissing : Agrees M (throw (missingArguments i span) : Generating Unit)
      (throw (missingArguments i span')) := agrees_throw (by rfl)
  cases i with
  | cas =>
      rcases h with _ | ⟨h₁, _ | ⟨h₂, _ | ⟨h₃, -⟩⟩⟩
      · exact hmissing
      · exact hmissing
      · exact hmissing
      · refine (ofExcept_agrees (hg.registerOperand h₁)).then fun r => ?_
        refine (expr_agrees hg h₂).then fun _ => (expr_agrees hg h₃).then fun _ => ?_
        exact emit_agrees (Emitter.opByte_wrote · r rfl)
  | cpy =>
      rcases h with _ | ⟨h₁, _ | ⟨h₂, _ | ⟨h₃, -⟩⟩⟩
      · exact hmissing
      · exact hmissing
      · exact hmissing
      · refine (expr_agrees hg h₁).then fun _ => (expr_agrees hg h₂).then fun _ => ?_
        exact (expr_agrees hg h₃).then fun _ => emit_op_agrees .cpy
  | dbg =>
      rcases h with _ | ⟨h₁, -⟩
      · exact hmissing
      · exact (expr_agrees hg h₁).then fun _ => emit_op_agrees .dbg
  | int =>
      rcases h with _ | ⟨h₁, -⟩
      · exact hmissing
      · exact (expr_agrees hg h₁).then fun _ => emit_op_agrees .int
  | xchg =>
      rcases h with _ | ⟨h₁, _ | ⟨h₂, -⟩⟩
      · exact hmissing
      · exact hmissing
      · refine (ofExcept_agrees (hg.registerOperand h₁)).then fun a => ?_
        refine (ofExcept_agrees (hg.registerOperand h₂)).then fun b => ?_
        exact emit_agrees (Emitter.xchg_wrote · a b)

theorem call_agrees {id id' : Ident} (hg : ContextAlike M g g') (hid : M.Name id id') :
    Agrees M (call g id) (call g' id') := by
  refine (ofExcept_agrees (hg.sectionOf hid)).then fun index => ?_
  exact emit_agrees (Emitter.bytes_opU16 · .call index)

end Simple

/-! ### Statements

A statement sets its own line first, so the rule for it has the step with the line in front
(`CodeAgrees`), and the rules of the general walk are then one line each.
-/

section Statements

variable {M : Matching} {g g' : CodeContext}

private theorem ifThen_agrees {cond cond' body body' : Generating Unit}
    (hcond : Agrees M cond cond') (hbody : Agrees M body body') (span span' : Span) :
    Agrees M (ifThen cond body span) (ifThen cond' body' span') :=
  hcond.then fun _ => (jump_agrees .jumpIfFalse).then fun _ => hbody.then fun _ => patch_agrees ..

private theorem ifElse_agrees {cond cond' body body' other other' : Generating Unit}
    (hcond : Agrees M cond cond') (hbody : Agrees M body body') (hother : Agrees M other other')
    {otherSpan otherSpan' : Span} (hspan : SpanAlike M otherSpan otherSpan') (span span' : Span) :
    Agrees M (ifElse cond body other otherSpan.line span)
      (ifElse cond' body' other' otherSpan'.line span') := by
  refine hcond.then fun _ => (jump_agrees .jumpIfFalse).then fun toElse => hbody.then fun _ => ?_
  refine (setLine_agrees hspan).then fun _ => (jump_agrees .jump).then fun toEnd => ?_
  exact (patch_agrees ..).then fun _ => hother.then fun _ => patch_agrees ..

private theorem whileLoop_agrees {cond cond' body body' : Generating Unit}
    (hcond : Agrees M cond cond')
    (hbody : Agrees M body body') {span span' : Span} (hspan : SpanAlike M span span') :
    Agrees M (whileLoop cond body span) (whileLoop cond' body' span') := by
  refine get_then fun e e' hsize => ?_
  dsimp only
  rw [hsize]
  refine hcond.then fun _ => (jump_agrees .jumpIfFalse).then fun toEnd => hbody.then fun _ => ?_
  exact (setLine_agrees hspan).then fun _ => (loop_agrees ..).then fun _ => patch_agrees ..

/-- The step for a statement, once its line is set, does what the same statement asks for. -/
abbrev CodeAgrees (M : Matching) (g' : CodeContext) (s : Stmt) (x : Generating Unit) : Prop :=
  ∀ ⦃s'⦄, StmtAlike M s s' → Agrees M (emit (·.setLine s.span.line) >>= fun _ => x) (stmt g' s')

/-- Each part of a program is put into the code of the same part of a program that is alike. -/
abbrev agreement (M : Matching) (g' : CodeContext) : Claim where
  code := CodeAgrees M g'
  stmt s x := ∀ ⦃s'⦄, StmtAlike M s s' → Agrees M x (stmt g' s')
  block b x := ∀ ⦃b'⦄, BlockAlike M b b' → Agrees M x (block g' b')
  stmts body x := ∀ ⦃body'⦄, StmtsAlike M body body' → Agrees M x (stmts g' body')

theorem agreement_rules (hg : ContextAlike M g g') : (agreement M g').Rules g where
  assign _ _ _ _
    | .assign ht hv hs => (setLine_agrees hs).then fun _ => assign_agrees hg ht hv
  compound _ _ _ _ _
    | .compound ht hv hs => (setLine_agrees hs).then fun _ => compound_agrees _ hg ht hv ..
  ifThen _ _ _ hbody _
    | .ifThen hc hb hs =>
      (setLine_agrees hs).then fun _ => ifThen_agrees (expr_agrees hg hc) (hbody hb) ..
  ifElse _ _ _ _ _ hbody helse _
    | .ifElse hc hb he hs => (setLine_agrees hs).then fun _ =>
      ifElse_agrees (expr_agrees hg hc) (hbody hb) (helse he) he.span ..
  whileLoop _ _ _ hbody _
    | .whileLoop hc hb hs =>
      (setLine_agrees hs).then fun _ => whileLoop_agrees (expr_agrees hg hc) (hbody hb) hs
  func _ _ _ _
    | .func _ _ hs => (setLine_agrees hs).then fun _ => .pure rfl id
  ret _ _ _
    | .ret hv hs => (setLine_agrees hs).then fun _ => ret_agrees hg hv
  intrinsic _ _ _ _
    | .intrinsic ha hs => (setLine_agrees hs).then fun _ => intrinsic_agrees _ hg ha ..
  call _ _ _ _
    | .call hn _ hs => (setLine_agrees hs).then fun _ => call_agrees hg hn
  line _ _ hx := hx
  block _ _ _ hbody _
    | .mk _ hb _ => hbody hb
  nil _
    | .nil => .pure rfl id
  cons _ _ hs hrest _
    | .cons h h' => (hs h).then fun _ => hrest h'

theorem block_agrees (hg : ContextAlike M g g') {b b' : Block} (h : BlockAlike M b b') :
    Agrees M (block g b) (block g' b') := (agreement_rules hg).blocks b h

private theorem sectionCode_alike (hg : ContextAlike M g g') {b b' : Block}
    (h : BlockAlike M b b') :
    ExceptAlike CodegenError.Same (ChunkAlike M) (sectionCode g b) (sectionCode g' b') := by
  have hstart : EmitterAlike M .start .start := ⟨rfl, fun _ => rfl⟩
  have hwritten : Agrees M (block g b >>= fun _ => emit (·.op g.exit))
      (block g' b' >>= fun _ => emit (·.op g'.exit)) := by
    rw [hg.exit]
    exact (block_agrees hg h).then fun _ => emit_op_agrees _
  have hends := hwritten hstart
  simp only [sectionCode]
  generalize (block g b >>= fun _ => emit (·.op g.exit)) Emitter.start = r,
    (block g' b' >>= fun _ => emit (·.op g'.exit)) Emitter.start = r' at hends
  cases hends with
  | ok _ he => exact .ok ⟨he.code, fun hlines => by rw [he.same hlines]⟩
  | error he => exact .error he

end Statements

/-! ### Images

Names of sections come from names of functions and their order, numbers from the order
alone.  Tables of lines are packed only if they are asked for, and then `package_eq` needs
that lines are kept.
-/

/-- The same function in two texts. -/
structure FuncAlike (M : Matching) (f f' : Func) : Prop where
  name : M.Name f.name f'.name
  body : BlockAlike M f.body f'.body

section Functions

variable {M : Matching}

mutual

theorem functions_of_stmtAlike {s s' : Stmt} (h : StmtAlike M s s') :
    List.Forall₂ (FuncAlike M) s.functions s'.functions := by
  cases h with
  | assign | compound | ret | intrinsic | call =>
      rw [Stmt.functions, Stmt.functions]
      exact .nil
  | ifThen _ hb _ =>
      rw [Stmt.functions, Stmt.functions]
      exact functions_of_blockAlike hb
  | ifElse _ hb he _ =>
      rw [Stmt.functions, Stmt.functions]
      exact List.rel_append (functions_of_blockAlike hb) (functions_of_blockAlike he)
  | whileLoop _ hb _ =>
      rw [Stmt.functions, Stmt.functions]
      exact functions_of_blockAlike hb
  | func hn hb _ =>
      rw [Stmt.functions, Stmt.functions]
      exact .cons ⟨hn, hb⟩ (functions_of_blockAlike hb)

theorem functions_of_blockAlike {b b' : Block} (h : BlockAlike M b b') :
    List.Forall₂ (FuncAlike M) b.functions b'.functions := by
  cases h with
  | mk _ hb _ =>
      rw [Block.functions, Block.functions]
      exact functions_of_stmtsAlike hb

theorem functions_of_stmtsAlike {b b' : List Stmt} (h : StmtsAlike M b b') :
    List.Forall₂ (FuncAlike M) (stmtsFunctions b) (stmtsFunctions b') := by
  cases h with
  | nil =>
      rw [stmtsFunctions]
      exact .nil
  | cons hs hb =>
      rw [stmtsFunctions, stmtsFunctions]
      exact List.rel_append (functions_of_stmtAlike hs) (functions_of_stmtsAlike hb)

end

private theorem sectionNames_eq {fs fs' : List Func} (h : List.Forall₂ (FuncAlike M) fs fs') :
    sectionNames fs = sectionNames fs' := by
  have hnames : fs.map (·.name.name) = fs'.map (·.name.name) := by
    induction h with
    | nil => rfl
    | cons hf _ ih => rw [List.map_cons, List.map_cons, ih, M.name_eq hf.name]
  rw [sectionNames, sectionNames, hnames]

private theorem zip_alike {fs fs' : List Func} (h : List.Forall₂ (FuncAlike M) fs fs') :
    ∀ names : List String, List.Forall₂ (fun x x' => FuncAlike M x.1 x'.1 ∧ x.2 = x'.2)
      (fs.zip names) (fs'.zip names) := by
  induction h with
  | nil => exact fun _ => .nil
  | cons hf _ ih =>
      intro names
      cases names with
      | nil => exact .nil
      | cons name names => exact .cons ⟨hf, rfl⟩ (ih names)

end Functions

/-- Options that differ in the tab width only. -/
structure OptionsAlike (o o' : CompileOptions) : Prop where
  debugLines : o.debugLines = o'.debugLines
  maxSections : o.maxSections = o'.maxSections

/-- The same code section, and the same lines if lines are kept. -/
structure CodeAlike (M : Matching) (s s' : CodeSection) : Prop where
  name : s.name = s'.name
  chunk : ChunkAlike M s.chunk s'.chunk

section Images

variable {M : Matching} {o o' : CompileOptions} {r r' : Resolutions} {p p' : Program}

private theorem limit?_alike (ho : OptionsAlike o o') (hr : ResolvedAlike M r r') (p p' : Program)
    (n : Nat) : Option.Rel CodegenError.Same (limit? o r p n) (limit? o' r' p' n) := by
  have hcount : sectionCount o n = sectionCount o' n := by
    unfold sectionCount
    rw [ho.debugLines]
  unfold limit?
  rw [hcount, hr.variableCount, ho.maxSections]
  by_cases hslots : CodeContext.maxVariables < r'.variableCount
  · rw [if_pos hslots, if_pos hslots]
    exact .some (by rfl)
  · rw [if_neg hslots, if_neg hslots]
    by_cases hsections : o'.maxSections.toNat < sectionCount o' n r'.variableCount
    · rw [if_pos hsections, if_pos hsections]
      exact .some (by rfl)
    · rw [if_neg hsections, if_neg hsections]
      exact .none

/-- Functions are numbered alike under the same names. -/
theorem numberSections_alike (ho : OptionsAlike o o') (hr : ResolvedAlike M r r')
    {named named' : List (Func × String)}
    (h : List.Forall₂ (fun x x' => FuncAlike M x.1 x'.1 ∧ x.2 = x'.2) named named') :
    ∀ (table : Std.TreeMap Nat UInt16) (index : Nat),
      ExceptAlike CodegenError.Same Eq (numberSections o r table index named)
        (numberSections o' r' table index named') := by
  have hbytes : maxNameBytes o = maxNameBytes o' := by
    unfold maxNameBytes
    rw [ho.debugLines]
  induction h with
  | nil =>
      intro table index
      exact .ok rfl
  | @cons x x' _ _ hx _ ih =>
      intro table index
      obtain ⟨f, name⟩ := x
      obtain ⟨f', name'⟩ := x'
      obtain ⟨hf, rfl⟩ : FuncAlike M f f' ∧ name = name' := hx
      rw [numberSections, numberSections, hbytes]
      by_cases hlong : maxNameBytes o' < name.utf8ByteSize
      · rw [if_pos hlong, if_pos hlong]
        exact .error (by rfl)
      · rw [if_neg hlong, if_neg hlong, hr.declarations hf.name]
        cases r'.declaration? f'.name with
        | none => exact .error (unresolved_same hf.name)
        | some decl => exact ih _ _

private theorem codeSections_alike (ho : OptionsAlike o o') (hr : ResolvedAlike M r r')
    (hp : BlockAlike M p.block p'.block) :
    ExceptAlike CodegenError.Same (List.Forall₂ (CodeAlike M)) (codeSections o r p)
      (codeSections o' r' p') := by
  have hfunctions : List.Forall₂ (FuncAlike M) p.functions p'.functions := by
    rw [p.functions_eq, p'.functions_eq]
    exact functions_of_blockAlike hp
  have hnamed : List.Forall₂ (fun x x' => FuncAlike M x.1 x'.1 ∧ x.2 = x'.2)
      (p.functions.zip (sectionNames p.functions))
      (p'.functions.zip (sectionNames p'.functions)) := by
    rw [sectionNames_eq hfunctions]
    exact zip_alike hfunctions _
  have hlimit := limit?_alike ho hr p p' p.functions.length
  simp only [codeSections]
  rw [← hfunctions.length_eq]
  generalize limit? o r p p.functions.length = e?,
    limit? o' r' p' p.functions.length = e?' at hlimit
  cases hlimit with
  | some he => exact .error he
  | none =>
      refine (numberSections_alike ho hr hnamed ∅ 1).bind ?_
      rintro table _ rfl
      have hcontext : ∀ exit : Opcode, ContextAlike M ⟨r, table, exit⟩ ⟨r', table, exit⟩ :=
        fun _ => ⟨hr, rfl, rfl⟩
      refine (sectionCode_alike (hcontext _) hp).bind fun hmain => ?_
      refine (ExceptAlike.mapM hnamed ?_).bind fun hrest => .ok (.cons ⟨rfl, hmain⟩ hrest)
      rintro ⟨f, name⟩ ⟨f', _⟩ ⟨hf, rfl⟩
      refine (sectionCode_alike (hcontext _) hf.body).bind fun hchunk => ?_
      exact .ok ⟨rfl, hchunk⟩

/-- Line tables are only packed if they are asked for, and then lines must be kept. -/
theorem package_eq (ho : OptionsAlike o o') (hlines : o.debugLines = true → M.lines)
    {code code' : List CodeSection} (h : List.Forall₂ (CodeAlike M) code code') (slots : Nat) :
    package o slots code = package o' slots code' := by
  have hcode : code.map (fun s => Section.code s.name s.chunk.code.toList) =
      code'.map fun s => Section.code s.name s.chunk.code.toList := by
    induction h with
    | nil => rfl
    | cons hs _ ih => rw [List.map_cons, List.map_cons, ih, hs.name, hs.chunk.code]
  unfold package
  rw [hcode, ← ho.debugLines]
  by_cases hdebug : o.debugLines = true
  · -- With the lines kept not only the bytes but whole sections are the same.
    have hsame : code = code' := by
      clear hcode
      induction h with
      | nil => rfl
      | @cons s s' _ _ hs _ ih =>
          obtain ⟨name, chunk⟩ := s
          obtain ⟨name', chunk'⟩ := s'
          obtain rfl : name = name' := hs.name
          obtain rfl : chunk = chunk' := hs.chunk.same (hlines hdebug)
          rw [ih]
    rw [hsame]
  · simp only [if_neg hdebug]

/-- **Programs that are alike have the same image.** -/
theorem generate_alike (ho : OptionsAlike o o') (hlines : o.debugLines = true → M.lines)
    (hr : ResolvedAlike M r r') (hp : BlockAlike M p.block p'.block) :
    ExceptAlike CodegenError.Same Eq (generate o r p) (generate o' r' p') := by
  refine (codeSections_alike ho hr hp).bind fun hcode => ?_
  refine .ok ?_
  rw [package_eq ho hlines hcode, hr.variableCount]

end Images

end Codegen

end StackCode
