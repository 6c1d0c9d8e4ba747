/-
Analysis is enough for writing code.

Writing code looks every name up again and may find that it is unresolved, that it is no
place to store to, that an operator has no instruction, and so on.  None of this happens to
a program that passed analysis: what is looked up was recorded, and what was recorded is of
the right kind (`Program.Resolved`).  All that can still go wrong is that the program is too
large, in one of four ways, and `TooLarge` lists them.

Two kinds of steps are told apart.  Code is written by steps with a state, and the only
error that is left for these is a jump that is too long (`Delivers`).  Sections are laid out
by functions without one, and these may fail in several ways (`FailsOnly`).
-/
import StackCode.Proofs.Sections

namespace StackCode

open Sequencing

/-- The limits of the encoding that a program can exceed. -/
inductive TooLarge (o : CompileOptions) (r : Resolutions) (p : Program) : CodegenError → Prop where
  /-- Slots have numbers of two bytes. -/
  | variables (span : Span) (more : 65536 < r.variableCount) :
      TooLarge o r p (.limitExceeded span "variables" 65536)
  /-- The sections of the image are counted, and the options limit them. -/
  | sections
      (more : o.maxSections.toNat < Codegen.sectionCount o p.functions.length r.variableCount) :
      TooLarge o r p (.limitExceeded p.span "sections" o.maxSections.toNat)
  /-- The length of a name has two bytes. -/
  | nameBytes (f : Func) (mem : f ∈ p.functions) (name : String)
      (used : name ∈ Codegen.sectionNames p.functions)
      (more : Codegen.maxNameBytes o < name.utf8ByteSize) :
      TooLarge o r p
        (.limitExceeded f.name.span "section name bytes" (Codegen.maxNameBytes o))
  /-- Distances have two bytes. -/
  | jump (span : Span) : TooLarge o r p (.limitExceeded span "bytes in a jump" 65535)

/-- Everything that code looks up is there. -/
structure CodeContext.Ready (g : CodeContext) : Prop where
  coherent : g.resolutions.Coherent
  small : g.resolutions.variableCount ≤ CodeContext.maxVariables
  /-- Every function has a section. -/
  callable : ∀ {decl : Nat} {s : Symbol}, g.resolutions.symbols[decl]? = some s →
    s.kind = .func → ∃ index, g.sections[decl]? = some index

namespace CodeContext.Ready

variable {g : CodeContext}

private theorem identStorage_eq_ok (hg : g.Ready) {id : Ident} {s : Symbol} {τ : ValueType}
    (resolved : g.resolutions.resolveSymbol? id = some s) (known : s.type? = some τ) :
    ∃ place, g.identStorage id = .ok place := by
  obtain ⟨decl, -, hsym⟩ := Option.bind_eq_some_iff.mp resolved
  have hfits : s.FitsKind := hg.coherent.fits decl s hsym
  simp only [identStorage, resolved]
  cases hkind : s.kind with
  | registerAlias reg => exact ⟨_, rfl⟩
  | func => cases known.symm.trans (hfits.type?_of_func hkind)
  | var =>
      obtain ⟨slot, hslot⟩ := hfits.slot?_of_var hkind
      have hlt : slot < maxVariables :=
        Nat.lt_of_lt_of_le (hg.coherent.slot_lt hsym hslot) hg.small
      rw [hslot]
      exact ⟨_, if_pos hlt⟩

/-- A typed target is a place. -/
theorem storage_eq_ok (hg : g.Ready) {e : Expr} {τ : ValueType} (htarget : e.target?.isSome)
    (ht : HasType g.resolutions e τ) : ∃ place, g.storage e = .ok place := by
  cases ht with
  | register reg span => exact ⟨_, rfl⟩
  | ident resolved known => exact hg.identStorage_eq_ok resolved known
  | integer n span => simp [Expr.target?] at htarget
  | boolean b span => simp [Expr.target?] at htarget
  | unary span operand result => simp [Expr.target?] at htarget
  | binary span left right result => simp [Expr.target?] at htarget

theorem registerOperand_eq_ok {e : Expr} (h : NamesRegister g.resolutions e) :
    ∃ reg, g.registerOperand e = .ok reg := by
  cases h with
  | register reg span => exact ⟨reg, rfl⟩
  | @ident id s reg resolved known =>
      exact ⟨reg, by simp only [registerOperand, storage, identStorage, resolved, known]⟩

theorem sectionOf_eq_ok (hg : g.Ready) {name : Ident} {s : Symbol}
    (resolved : g.resolutions.resolveSymbol? name = some s) (hfunc : s.kind = .func) :
    ∃ index, g.sectionOf name = .ok index := by
  obtain ⟨decl, hdecl, hsym⟩ := Option.bind_eq_some_iff.mp resolved
  obtain ⟨index, hindex⟩ := hg.callable hsym hfunc
  exact ⟨index, by simp [sectionOf, hdecl, hindex]⟩

end CodeContext.Ready

namespace Codegen

/-! ### Steps that can only be stopped by a jump

`Delivers` says for every state that a step finishes or stops at a jump, so it is stronger
than naming the errors: a step that delivers does one or the other.  It goes through `bind`,
and it asks something only where code looks something up, of `ofExcept` and of `opcodeOr`.
-/

/-- The step finishes, or a jump in it is too long. -/
def Delivers {α : Type} (x : Generating α) : Prop :=
  ∀ s, (∃ a t, x s = .ok a t) ∨ ∃ span t, x s = .error (jumpTooLong span) t

namespace Delivers

variable {α β : Type}

theorem bind {x : Generating α} {f : α → Generating β} (hx : Delivers x)
    (hf : ∀ a, Delivers (f a)) : Delivers (x >>= f) := by
  intro s
  rcases hx s with ⟨a, t, h⟩ | ⟨span, t, h⟩
  · rcases hf a t with ⟨b, u, h'⟩ | ⟨span, u, h'⟩
    · exact .inl ⟨b, u, bind_eq_ok.mpr ⟨a, t, h, h'⟩⟩
    · exact .inr ⟨span, u, bind_eq_error.mpr (.inr ⟨a, t, h, h'⟩)⟩
  · exact .inr ⟨span, t, bind_eq_error.mpr (.inl h)⟩

theorem pure (a : α) : Delivers (pure a) := fun s => .inl ⟨a, s, rfl⟩

theorem emit (f : Emitter → Emitter) : Delivers (emit f) := fun s => .inl ⟨(), f s, rfl⟩

theorem ofExcept {x : Except CodegenError α} (h : ∃ a, x = .ok a) : Delivers (ofExcept x) := by
  obtain ⟨a, rfl⟩ := h
  exact .pure a

theorem opcodeOr {op? : Option Opcode} (h : op?.isSome = true) (span : Span) (message : String) :
    Delivers (opcodeOr op? span message) := by
  obtain ⟨op, rfl⟩ := Option.isSome_iff_exists.mp h
  exact .pure op

theorem get : Delivers (MonadStateOf.get : Generating Emitter) := fun s => .inl ⟨s, s, rfl⟩

theorem jump (op : Opcode) : Delivers (jump op) := fun _ => .inl ⟨_, _, rfl⟩

theorem patch (offset : Nat) (span : Span) : Delivers (patch offset span) := by
  intro s
  rw [patch_eq]
  split
  · exact .inl ⟨_, _, rfl⟩
  · exact .inr ⟨span, _, rfl⟩

theorem loop (start : Nat) (span : Span) : Delivers (loop start span) := by
  intro s
  rw [loop_eq]
  split
  · exact .inl ⟨_, _, rfl⟩
  · exact .inr ⟨span, _, rfl⟩

theorem load (place : Storage) : Delivers (load place) := by
  cases place <;> exact .emit _

theorem store (place : Storage) : Delivers (store place) := by
  cases place <;> exact .emit _

end Delivers

/-! ### Typed trees

Here is what analysis is good for.  `HasType` has the facts that `CodeContext.storage` and
the tables of opcodes ask for, rule by rule, and `Ready` has those that do not depend on the
tree.  The walk over statements is the general one, with `delivery` as its claim.
-/

variable {g : CodeContext}

private theorem expr_delivers (hg : g.Ready) {e : Expr} {τ : ValueType}
    (ht : HasType g.resolutions e τ) : Delivers (expr g e) := by
  induction ht with
  | integer n span => exact .emit _
  | boolean b span => exact .emit _
  | register reg span => exact .emit _
  | ident resolved known =>
      exact (Delivers.ofExcept (hg.identStorage_eq_ok resolved known)).bind fun place => .load place
  | unary span operand result ih =>
      have hop := Operator.unaryOpcode?_isSome_of_unaryType? result
      exact ih.bind fun _ => (Delivers.opcodeOr hop _ _).bind fun _ => .emit _
  | binary span left right result ih ih' =>
      have hop := Operator.binaryOpcode?_isSome_of_binaryType? result
      exact ih.bind fun _ => ih'.bind fun _ => (Delivers.opcodeOr hop _ _).bind fun _ => .emit _

private theorem assign_delivers (hg : g.Ready) {target value : Expr} {span : Span}
    (ht : (Stmt.assign target value span).Typed g.resolutions) :
    Delivers (assign g target value) := by
  rw [Stmt.Typed] at ht
  obtain ⟨htarget, τ, hl, hv⟩ := ht
  exact (Delivers.ofExcept (hg.storage_eq_ok htarget hl)).bind fun place =>
    (expr_delivers hg hv).bind fun _ => .store place

private theorem compound_delivers (hg : g.Ready) {op : Operator} {target value : Expr} {span : Span}
    (ht : (Stmt.compound op target value span).Typed g.resolutions) :
    Delivers (compound g op target value span) := by
  rw [Stmt.Typed] at ht
  obtain ⟨htarget, τ, σ, hl, hv, hresult⟩ := ht
  have hop := Operator.binaryOpcode?_isSome_of_binaryType? hresult
  exact (Delivers.ofExcept (hg.storage_eq_ok htarget hl)).bind fun place =>
    (Delivers.opcodeOr hop _ _).bind fun _ => (Delivers.load place).bind fun _ =>
      (expr_delivers hg hv).bind fun _ => (Delivers.emit _).bind fun _ => .store place

/-- The arguments that analysis accepts are those that the code needs. -/
theorem intrinsic_delivers (hg : g.Ready) {i : Intrinsic} {args : List Expr} {span : Span}
    (ht : List.Forall₂ (OperandTyped g.resolutions) i.operands args) :
    Delivers (intrinsic g i args span) := by
  cases i with
  | cas =>
      rcases ht with _ | ⟨htarget, _ | ⟨hexpected, _ | ⟨hnew, _ | _⟩⟩⟩
      exact (Delivers.ofExcept (CodeContext.Ready.registerOperand_eq_ok htarget)).bind fun _ =>
        (expr_delivers hg hexpected).bind fun _ => (expr_delivers hg hnew).bind fun _ => .emit _
  | cpy =>
      rcases ht with _ | ⟨hdst, _ | ⟨hsrc, _ | ⟨hlen, _ | _⟩⟩⟩
      exact (expr_delivers hg hdst).bind fun _ => (expr_delivers hg hsrc).bind fun _ =>
        (expr_delivers hg hlen).bind fun _ => .emit _
  | dbg =>
      rcases ht with _ | ⟨⟨τ, hvalue⟩, _ | _⟩
      exact (expr_delivers hg hvalue).bind fun _ => .emit _
  | int =>
      rcases ht with _ | ⟨hvalue, _ | _⟩
      exact (expr_delivers hg hvalue).bind fun _ => .emit _
  | xchg =>
      rcases ht with _ | ⟨hleft, _ | ⟨hright, _ | _⟩⟩
      exact (Delivers.ofExcept (CodeContext.Ready.registerOperand_eq_ok hleft)).bind fun _ =>
        (Delivers.ofExcept (CodeContext.Ready.registerOperand_eq_ok hright)).bind fun _ => .emit _

private theorem ret_delivers (hg : g.Ready) {value : Option Expr} {span : Span}
    (ht : (Stmt.ret value span).Typed g.resolutions) : Delivers (ret g value) := by
  cases value with
  | none => exact .emit _
  | some value =>
      rw [Stmt.Typed] at ht
      exact (expr_delivers hg ht).bind fun _ => (Delivers.emit _).bind fun _ => .emit _

private theorem call_delivers (hg : g.Ready) {name : Ident} {args : Arguments} {span : Span}
    (ht : (Stmt.call name args span).Typed g.resolutions) : Delivers (call g name) := by
  rw [Stmt.Typed] at ht
  obtain ⟨⟨s, hres, hfunc⟩, -⟩ := ht
  exact (Delivers.ofExcept (hg.sectionOf_eq_ok hres hfunc)).bind fun _ => .emit _

namespace Delivers

variable {cond body otherwise : Generating Unit}

theorem ifThen (hcond : Delivers cond) (hbody : Delivers body) (span : Span) :
    Delivers (ifThen cond body span) :=
  hcond.bind fun _ => (jump _).bind fun _ => hbody.bind fun _ => patch _ _

theorem ifElse (hcond : Delivers cond) (hbody : Delivers body) (hotherwise : Delivers otherwise)
    (otherLine : Nat) (span : Span) : Delivers (ifElse cond body otherwise otherLine span) :=
  hcond.bind fun _ => (jump _).bind fun _ => hbody.bind fun _ => (emit _).bind fun _ =>
    (jump _).bind fun _ => (patch _ _).bind fun _ => hotherwise.bind fun _ => patch _ _

theorem whileLoop (hcond : Delivers cond) (hbody : Delivers body) (span : Span) :
    Delivers (whileLoop cond body span) :=
  get.bind fun _ => hcond.bind fun _ => (jump _).bind fun _ => hbody.bind fun _ =>
    (emit _).bind fun _ => (loop _ _).bind fun _ => patch _ _

end Delivers

/-- Each typed part of a program gets code, unless a jump in it is too long. -/
abbrev delivery (r : Resolutions) : Claim where
  code s x := s.Typed r → Delivers x
  stmt s x := s.Typed r → Delivers x
  block b x := b.Typed r → Delivers x
  stmts body x := stmtsTyped r body → Delivers x

private theorem delivery_rules (hg : g.Ready) : (delivery g.resolutions).Rules g where
  assign _ _ _ ht := assign_delivers hg ht
  compound _ _ _ _ ht := compound_delivers hg ht
  ifThen _ _ span hbody ht := (expr_delivers hg ht.1).ifThen (hbody ht.2) span
  ifElse _ _ _ elseBody span hbody helse ht :=
    (expr_delivers hg ht.1).ifElse (hbody ht.2.1) (helse ht.2.2) elseBody.span.line span
  whileLoop _ _ span hbody ht := (expr_delivers hg ht.1).whileLoop (hbody ht.2) span
  func _ _ _ _ := .pure ()
  ret _ _ ht := ret_delivers hg ht
  intrinsic _ _ _ ht := intrinsic_delivers hg ht
  call _ _ _ ht := call_delivers hg ht
  line _ _ hx ht := (Delivers.emit _).bind fun _ => hx ht
  block _ _ _ hbody ht := hbody ht
  nil _ := .pure ()
  cons _ _ hs hrest ht := (hs ht.1).bind fun _ => hrest ht.2

/-- **A typed block gets code, unless a jump in it is too long.** -/
theorem block_delivers (hg : g.Ready) {b : Block} (ht : b.Typed g.resolutions) :
    Delivers (block g b) := (delivery_rules hg).blocks b ht

/-! ### Answers that can only be one kind of error

The same for functions without a state.  `FailsOnly kind` is stated of errors alone, so that
`kind` can say more of an error than that a jump is too long; `bind` may use that the first
part has succeeded.
-/

variable {o : CompileOptions} {r : Resolutions} {p : Program}

/-- There is an answer, or an error of this kind. -/
def FailsOnly {α : Type} (kind : CodegenError → Prop) (x : Except CodegenError α) : Prop :=
  ∀ e, x = .error e → kind e

namespace FailsOnly

variable {α β : Type} {kind : CodegenError → Prop}

theorem pure (a : α) : FailsOnly kind (pure a) := by
  intro e h
  exact absurd h (by rintro ⟨⟩)

theorem error {e : CodegenError} (h : kind e) :
    FailsOnly kind (.error e : Except CodegenError α) := by
  intro e' he
  obtain rfl := Except.error.inj he
  exact h

theorem bind {x : Except CodegenError α} {f : α → Except CodegenError β} (hx : FailsOnly kind x)
    (hf : ∀ a, x = .ok a → FailsOnly kind (f a)) : FailsOnly kind (x >>= f) := by
  intro e h
  cases x with
  | ok a => exact hf a rfl e h
  | error e' =>
      obtain rfl : e' = e := by injection h
      exact hx _ rfl

theorem mapM {f : α → Except CodegenError β} {xs : List α}
    (h : ∀ x ∈ xs, FailsOnly kind (f x)) : FailsOnly kind (xs.mapM f) := by
  induction xs with
  | nil => exact .pure _
  | cons x xs ih =>
      rw [List.mapM_cons]
      exact (h x List.mem_cons_self).bind fun _ _ =>
        (ih fun x' hx' => h x' (List.mem_cons_of_mem _ hx')).bind fun _ _ => .pure _

end FailsOnly

private theorem sectionCode_failsOnly (hg : g.Ready) {body : Block}
    (ht : body.Typed g.resolutions) :
    FailsOnly (TooLarge o r p) (sectionCode g body) := by
  have hwritten : Delivers (do
      block g body
      emit (·.op g.exit)) := (block_delivers hg ht).bind fun _ => .emit _
  intro e h
  rcases hwritten .start with ⟨_, t, hok⟩ | ⟨span, t, herror⟩
  · simp [sectionCode, hok] at h
  · obtain rfl : jumpTooLong span = e := by simpa [sectionCode, herror] using h
    exact .jump span

/-! ### Numbering

`numberSections` enters a section number for every function.  It fails if a name is too
long, and, as far as the text of the function goes, if there is no declaration on record;
the latter is excluded by `Resolved.declared`.  What was entered stays, so at the end every
function has a number (`numberSections_mem`).
-/

/-- Numbering fails only on a name that is too long. -/
theorem numberSections_failsOnly (hr : p.Resolved r) :
    ∀ {named : List (Func × String)} {start : Nat} {sections : Std.TreeMap Nat UInt16},
      (∀ x ∈ named, x.1 ∈ p.functions ∧ x.2 ∈ sectionNames p.functions) →
        FailsOnly (TooLarge o r p) (numberSections o r sections start named)
  | [], start, sections, _ => .pure sections
  | (f, name) :: rest, start, sections, hnamed => by
      obtain ⟨hf, hname⟩ := hnamed (f, name) List.mem_cons_self
      obtain ⟨decl, hdecl⟩ := hr.declared f hf
      rw [numberSections]
      split
      · rename_i hlong
        exact .error (.nameBytes f hf name hname hlong)
      · rw [hdecl]
        exact numberSections_failsOnly hr fun x hx => hnamed x (List.mem_cons_of_mem _ hx)

/-- What is numbered stays in the table. -/
theorem numberSections_mem :
    ∀ {named : List (Func × String)} {start : Nat} {sections table : Std.TreeMap Nat UInt16},
      numberSections o r sections start named = .ok table →
      ∀ {decl : Nat}, (decl ∈ sections ∨ ∃ x ∈ named, r.declaration? x.1.name = some decl) →
        decl ∈ table
  | [], start, sections, table, h, decl, hmem => by
      simp only [numberSections, Except.ok.injEq] at h
      subst h
      simpa using hmem
  | (f, name) :: rest, start, sections, table, h, decl, hmem => by
      simp only [numberSections] at h
      split at h
      · simp at h
      · split at h
        · simp at h
        · rename_i decl' hdecl
          refine numberSections_mem h ?_
          rcases hmem with hold | ⟨x, hx, hname⟩
          · exact .inl (by simp [hold])
          · rcases List.mem_cons.mp hx with rfl | hx
            · obtain rfl := Option.some.inj (hdecl.symm.trans hname)
              exact .inl (by simp)
            · exact .inr ⟨x, hx, hname⟩

/-! ### Whole programs

`FailsOnly.codeSections` follows `codeSections` through its three parts and is stated for
any kind of error.  For `TooLarge` each part is one of the lemmas above.
-/

private theorem tooLarge_of_limit? {e : CodegenError}
    (h : limit? o r p p.functions.length = some e) :
    TooLarge o r p e := by
  simp only [limit?] at h
  split at h
  · rename_i hmore
    obtain rfl := Option.some.inj h
    exact .variables _ hmore
  · split at h
    · rename_i hmore
      obtain rfl := Option.some.inj h
      exact .sections hmore
    · simp at h

private theorem variableCount_le_of_limit? (h : limit? o r p p.functions.length = none) :
    r.variableCount ≤ CodeContext.maxVariables := by
  simp only [limit?] at h
  split at h
  · simp at h
  · rename_i hfew
    exact Nat.le_of_not_lt hfew

/-- With all functions numbered, code finds what it looks up. -/
theorem ready_of_numberSections (hr : p.Resolved r) {table : Std.TreeMap Nat UInt16}
    (hsmall : r.variableCount ≤ CodeContext.maxVariables)
    (h : numberSections o r ∅ 1 (p.functions.zip (sectionNames p.functions)) = .ok table)
    (exit : Opcode) : CodeContext.Ready ⟨r, table, exit⟩ := by
  refine ⟨hr.coherent, hsmall, ?_⟩
  intro decl s hs hfunc
  obtain ⟨f, hf, hdecl⟩ := hr.defined hs hfunc
  rw [← map_fst_zip_sectionNames p.functions] at hf
  obtain ⟨x, hx, rfl⟩ := List.mem_map.mp hf
  have hmem := numberSections_mem h (.inr ⟨x, hx, hdecl⟩)
  exact ⟨table[decl], Std.TreeMap.getElem?_eq_some_getElem hmem⟩

/-- The sections can fail in the ways that their parts can: limits, numbers, codes. -/
theorem FailsOnly.codeSections {kind : CodegenError → Prop}
    (hlimit : ∀ e, limit? o r p p.functions.length = some e → kind e)
    (hnumber : FailsOnly kind
      (numberSections o r ∅ 1 (p.functions.zip (sectionNames p.functions))))
    (hcode : limit? o r p p.functions.length = none → ∀ table,
      numberSections o r ∅ 1 (p.functions.zip (sectionNames p.functions)) = .ok table →
        ∀ b ∈ p.bodies, FailsOnly kind (sectionCode ⟨r, table, b.1⟩ b.2)) :
    FailsOnly kind (codeSections o r p) := by
  simp only [Codegen.codeSections]
  split
  · rename_i e hsome
    exact .error (hlimit e hsome)
  · rename_i hnone
    refine hnumber.bind fun table htable => ?_
    have hbodies := hcode hnone table htable
    refine (hbodies (.halt, p.block) List.mem_cons_self).bind fun main _ => ?_
    refine (FailsOnly.mapM fun x hx => ?_).bind fun rest _ => .pure _
    have hf : (Opcode.ret, x.1.body) ∈ p.bodies :=
      List.mem_cons_of_mem _ (List.mem_map.mpr ⟨x.1, (List.of_mem_zip hx).1, rfl⟩)
    exact (hbodies _ hf).bind fun _ _ => .pure _

/-- **A resolved program gets its sections, unless it is too large.** -/
theorem codeSections_failsOnly (hr : p.Resolved r) (o : CompileOptions) :
    FailsOnly (TooLarge o r p) (codeSections o r p) := by
  refine .codeSections (fun e => tooLarge_of_limit?)
    (numberSections_failsOnly hr fun x hx => List.of_mem_zip hx) fun hlimit table htable b hb => ?_
  have hready := ready_of_numberSections hr (variableCount_le_of_limit? hlimit) htable b.1
  exact sectionCode_failsOnly hready (hr.typed_of_mem_bodies hb)

end Codegen

/--
**Analysis is enough for code generation.**  A source text that is read and analysed
gives an image under any options, or an error that says in which of four ways the
program is too large; never an internal error.
-/
theorem generate_ok_or_tooLarge {source : String} {tabWidth : Nat} {p : Program} {r : Resolutions}
    (hparse : Program.parse source tabWidth = .ok p) (hanalyze : p.analyze = .ok r)
    (o : CompileOptions) :
    (∃ image, Codegen.generate o r p = .ok image) ∨
      ∃ e, Codegen.generate o r p = .error e ∧ TooLarge o r p e := by
  have hr := Program.resolved_of_analyze (Program.wellNamed_of_parse hparse) hanalyze
  have hfails : Codegen.FailsOnly (TooLarge o r p) (Codegen.generate o r p) :=
    (Codegen.codeSections_failsOnly hr o).bind fun _ _ => .pure _
  cases h : Codegen.generate o r p with
  | ok image => exact .inl ⟨image, rfl⟩
  | error e => exact .inr ⟨e, rfl, hfails e h⟩

/-- The countdown needs three sections: it fits the usual limit, and not a limit of two. -/
theorem countdown_generate_ok_or_tooLarge :
    ∃ p r, Program.parse countdown 4 = .ok p ∧ p.analyze = .ok r ∧
      (∃ image, Codegen.generate .default r p = .ok image) ∧
      ∃ e, Codegen.generate ⟨4, false, 2⟩ r p = .error e ∧ TooLarge ⟨4, false, 2⟩ r p e := by
  have htest : Compiles.passes countdown 4 .default (fun p r _ =>
      (Codegen.generate .default r p).toBool && !(Codegen.generate ⟨4, false, 2⟩ r p).toBool) =
        true := by
    decide +kernel
  obtain ⟨p, r, sections, hcompiles, hresult⟩ := Compiles.of_passes htest
  simp only [Bool.and_eq_true, Bool.not_eq_true'] at hresult
  refine ⟨p, r, hcompiles.parsed, hcompiles.analyzed, ?_, ?_⟩
  · rcases generate_ok_or_tooLarge hcompiles.parsed hcompiles.analyzed .default with
      hok | ⟨e, herror, -⟩
    · exact hok
    · simp [herror, Except.toBool] at hresult
  · rcases generate_ok_or_tooLarge hcompiles.parsed hcompiles.analyzed ⟨4, false, 2⟩ with
      ⟨image, hok⟩ | herror
    · simp [hok, Except.toBool] at hresult
    · exact herror

end StackCode
