/-
Later errors point at nodes.

Analysis and the writing of code take a tree apart and stop at a part that is wrong, with
the span of that part.  So whatever holds of the spans of all nodes holds of the span of
an error; `Blames` is this, as a rule that goes through step by step.  It is followed
through analysis (`Analysis.blaming`) and through the writing of code (`Codegen.blaming`).

Two errors look back.  Too many variables are reported at the variable that is one too
many, so analysis also keeps that symbols are where their names are.  And what is wrong
with the whole program is reported at the whole program.
-/
import StackCode.Proofs.Extents
import StackCode.Proofs.Generation
import StackCode.Proofs.Steps
import StackCode.Proofs.Traversal

namespace StackCode

open Sequencing

/-! ### Steps and whom they blame

`P` is any property of spans, and in the end it will be that a token starts there.  `Blames`
has an invariant besides, which analysis needs for the spans of its symbols.  `AllAt P` is
that `P` holds of all nodes of a list, and it goes to the parts of a tree by `allAt_cons`
and `allAt_append`, both of them tagged for `simp`.
-/

/-- The step keeps `inv`, and stops only with errors that are `bad`. -/
structure Blames {ε σ α : Type} (inv : σ → Prop) (bad : ε → Prop) (x : EStateM ε σ α) : Prop where
  keeps : ∀ {s t : σ} {a : α}, inv s → x s = .ok a t → inv t
  error : ∀ {s t : σ} {e : ε}, inv s → x s = .error e t → bad e

namespace Blames

variable {ε σ α β : Type} {inv : σ → Prop} {bad : ε → Prop} {x : EStateM ε σ α}

theorem bind {f : α → EStateM ε σ β} (hx : Blames inv bad x) (hf : ∀ a, Blames inv bad (f a)) :
    Blames inv bad (x >>= f) := by
  constructor
  · intro s t b hs hok
    obtain ⟨a, m, hxm, hfm⟩ := bind_eq_ok.mp hok
    exact (hf a).keeps (hx.keeps hs hxm) hfm
  · intro s t e hs herror
    rcases bind_eq_error.mp herror with h | ⟨a, m, hxm, hfm⟩
    · exact hx.error hs h
    · exact (hf a).error (hx.keeps hs hxm) hfm

theorem pure (a : α) : Blames inv bad (pure a) := by
  constructor
  · intro s t b hs hok
    obtain ⟨-, rfl⟩ := pure_eq_ok.mp hok
    exact hs
  · intro s t e hs herror
    cases herror

theorem throw {e : ε} (h : bad e) : Blames inv bad (throw e : EStateM ε σ α) := by
  constructor
  · intro s t a _ hok
    cases hok
  · intro s t e' _ herror
    have hsame : EStateM.Result.error e s = .error e' t := herror
    obtain ⟨rfl, -⟩ := EStateM.Result.error.inj hsame
    exact h

theorem get : Blames inv bad (MonadStateOf.get : EStateM ε σ σ) := by
  constructor
  · intro s t a hs hok
    obtain ⟨-, rfl⟩ := EStateM.Result.ok.inj hok
    exact hs
  · intro s t e _ herror
    cases herror

theorem modify {f : σ → σ} (h : ∀ s, inv s → inv (f s)) :
    Blames inv bad (modify f : EStateM ε σ PUnit) := by
  constructor
  · intro s t u hs hok
    obtain rfl := modify_eq_ok.mp hok
    exact h s hs
  · intro s t e _ herror
    cases herror

end Blames

/-- All of the nodes are where `P` holds. -/
def AllAt (P : Span → Prop) (ns : List Node) : Prop := ∀ n ∈ ns, P n.span

section AllAt

variable {P : Span → Prop}

@[simp] theorem allAt_cons {n : Node} {ns : List Node} :
    AllAt P (n :: ns) ↔ P n.span ∧ AllAt P ns := List.forall_mem_cons

@[simp] theorem allAt_append {as bs : List Node} :
    AllAt P (as ++ bs) ↔ AllAt P as ∧ AllAt P bs := List.forall_mem_append

theorem Expr.at_of_nodes {e : Expr} (h : AllAt P e.nodes) : P e.span := by
  cases e with
  | binary | unary => exact (allAt_cons.mp h).1
  | integer | boolean | register | ident => exact (allAt_cons.mp h).1

theorem Stmt.at_of_nodes {s : Stmt} (h : AllAt P s.nodes) : P s.span := by
  cases s with
  | ret value span => cases value <;> exact (allAt_cons.mp (by rwa [Stmt.nodes] at h)).1
  | assign | compound | ifThen | ifElse | whileLoop | func | intrinsic | call =>
      exact (allAt_cons.mp (by rwa [Stmt.nodes] at h)).1

theorem Block.at_of_nodes {b : Block} (h : AllAt P b.nodes) : P b.span := by
  obtain ⟨decls, body, span⟩ := b
  exact (allAt_cons.mp (by rwa [Block.nodes] at h)).1

private theorem allAt_of_mem {es : List Expr} (h : AllAt P (exprsNodes es)) :
    ∀ e ∈ es, AllAt P e.nodes := by
  induction es with
  | nil => simp
  | cons e rest ih =>
      obtain ⟨he, hrest⟩ := allAt_append.mp h
      exact List.forall_mem_cons.mpr ⟨he, ih hrest⟩

end AllAt

/-! ### Analysis

Each step is given what it needs to know of the spans that it may report: `P` of the span of
a name or of a statement, or `AllAt P` of the nodes of an expression.  The invariant
`SymbolsAt` changes only where a symbol is added, and the span that it is added with is that
of the name.
-/

namespace Analysis

variable {P : Span → Prop}

/-- Every symbol is where `P` holds. -/
def SymbolsAt (P : Span → Prop) (r : Resolutions) : Prop :=
  ∀ (n : Nat) (s : Symbol), r.symbols[n]? = some s → P s.span

/-- Symbols and errors are where `P` holds. -/
abbrev BlamesAt (P : Span → Prop) {α : Type} (x : Analyzing α) : Prop :=
  Blames (fun a : Analysis => SymbolsAt P a.resolutions) (fun e => P e.span) x

theorem SymbolsAt.setType {r : Resolutions} (h : SymbolsAt P r) (decl : Nat) (τ : ValueType) :
    SymbolsAt P (r.setType decl τ) := by
  intro n s hs
  rw [Resolutions.setType, Array.getElem?_modify] at hs
  split at hs
  · obtain ⟨old, hold, rfl⟩ := Option.map_eq_some_iff.mp hs
    exact h n old hold
  · exact h n s hs

theorem SymbolsAt.addSymbol {r : Resolutions} (h : SymbolsAt P r) {id : Ident} (hid : P id.span)
    (kind : DeclKind) (implicit : Bool) : SymbolsAt P (r.addSymbol id kind implicit) := by
  obtain ⟨new, hsymbols, -, -, hspan, -⟩ := r.addSymbol_symbols id kind implicit
  intro n s hs
  rw [hsymbols, Array.getElem?_push] at hs
  split at hs
  · obtain rfl := Option.some.inj hs
    rw [hspan]
    exact hid
  · exact h n s hs

private theorem update_blames {f : Resolutions → Resolutions}
    (h : ∀ r, SymbolsAt P r → SymbolsAt P (f r)) : BlamesAt P (update f) :=
  .modify fun a => h a.resolutions

private theorem symbol_blames (decl : Nat) :
    BlamesAt P (symbol decl) := Blames.get.bind fun _ => .pure _

private theorem use_blames (id : Ident) (decl : Nat) :
    BlamesAt P (update (·.bindReference id.span decl)) :=
  update_blames fun _ hr => hr

private theorem enter_blames {id : Ident} (h : P id.span) (decl : Nat) :
    BlamesAt P (enter id decl) := by
  constructor
  · intro a b u ha hok
    simp only [enter] at hok
    split at hok
    · obtain ⟨-, rfl⟩ := EStateM.Result.ok.inj hok
      exact ha
    · cases hok
  · intro a b e _ herror
    simp only [enter] at herror
    split at herror
    · cases herror
    · obtain ⟨rfl, -⟩ := EStateM.Result.error.inj herror
      exact h

private theorem declare_blames {id : Ident} (h : P id.span) (kind : DeclKind) (implicit : Bool) :
    BlamesAt P (declare id kind implicit) := by
  refine Blames.get.bind fun a => (enter_blames h _).bind fun _ => ?_
  refine (update_blames fun r hr => hr.addSymbol h kind implicit).bind fun _ => ?_
  have hbound : BlamesAt P (update (·.bindDeclaration id.span a.resolutions.symbols.size)) :=
    update_blames fun _ hr => hr
  exact hbound.bind fun _ => .pure _

private theorem lookup_blames {id : Ident} (h : P id.span) : BlamesAt P (lookup id) := by
  refine Blames.get.bind fun a => ?_
  split
  · exact .throw h
  · exact (use_blames id _).bind fun _ => .pure _

private theorem inScope_blames {body : Analyzing Unit} (h : BlamesAt P body) :
    BlamesAt P (inScope body) := by
  constructor
  · intro a b u ha hok
    simp only [inScope] at hok
    split at hok
    · rename_i m hbody
      obtain ⟨-, rfl⟩ := EStateM.Result.ok.inj hok
      have hkept : SymbolsAt P m.resolutions :=
        h.keeps (s := { a with scopes := a.scopes.push }) ha hbody
      exact hkept
    · cases hok
  · intro a b e ha herror
    simp only [inScope] at herror
    split at herror
    · cases herror
    · rename_i e' m hbody
      obtain ⟨rfl, -⟩ := EStateM.Result.error.inj herror
      exact h.error (s := { a with scopes := a.scopes.push }) ha hbody

/-! #### Expressions

The span of an expression is blamed for its type, and the span of a name for what is wrong
with the name.
-/

private theorem expectType_blames (expected found : ValueType) {span : Span} (h : P span)
    (what : String) : BlamesAt P (expectType expected found span what) := by
  unfold expectType
  split
  · exact .pure _
  · exact .throw h

private theorem readType_blames (decl : Nat) : BlamesAt P (readType decl) := by
  refine (symbol_blames decl).bind fun s => ?_
  split
  · exact .pure _
  · exact (update_blames fun r hr => hr.setType decl _).bind fun _ => .pure _

private theorem identType_blames {id : Ident} (h : P id.span) : BlamesAt P (identType id) := by
  refine (lookup_blames h).bind fun decl => (symbol_blames decl).bind fun s => ?_
  split
  · exact readType_blames _
  · exact .pure _
  · exact .throw h

private theorem binaryResult_blames (op : Operator) (left right : ValueType) {span : Span}
    (h : P span) :
    BlamesAt P (binaryResult op left right span) := by
  unfold binaryResult
  split
  · exact .pure _
  · exact .throw h

private theorem unaryResult_blames (op : Operator) (operand : ValueType) {span : Span}
    (h : P span) :
    BlamesAt P (unaryResult op operand span) := by
  unfold unaryResult
  split
  · exact .pure _
  · exact .throw h

private theorem exprType_blames {e : Expr} (h : AllAt P e.nodes) : BlamesAt P (exprType e) := by
  induction e with
  | integer | boolean | register => exact .pure _
  | ident id => exact identType_blames (Expr.at_of_nodes h)
  | unary op operand span ih =>
      obtain ⟨hspan, hoperand⟩ := allAt_cons.mp h
      exact (ih hoperand).bind fun _ => unaryResult_blames op _ hspan
  | binary op left right span ihl ihr =>
      obtain ⟨hspan, hparts⟩ := allAt_cons.mp h
      obtain ⟨hleft, hright⟩ := allAt_append.mp hparts
      exact (ihl hleft).bind fun _ => (ihr hright).bind fun _ => binaryResult_blames op _ _ hspan

private theorem checkExpr_blames (expected : ValueType) {e : Expr} (h : AllAt P e.nodes)
    (what : String) :
    BlamesAt P (checkExpr expected e what) :=
  (exprType_blames h).bind fun _ => expectType_blames _ _ (Expr.at_of_nodes h) what

/-! #### Statements

An assignment blames its value if the types do not fit, and its target if nothing can be
written to it.  A statement as a whole is blamed for a wrong number of arguments and for the
result of a compound assignment.
-/

/-- A name that is a target is where the target is. -/
theorem target_blames {β : Type} {e : Expr} {f : Target → Analyzing β} (h : P e.span)
    (hregister : ∀ r, BlamesAt P (f (.register r)))
    (hident : ∀ id : Ident, P id.span → BlamesAt P (f (.ident id))) :
    BlamesAt P (target e >>= f) := by
  have hthrow : BlamesAt P (throw (.expectedLValue e.span) : Analyzing β) := .throw h
  cases e with
  | register r span => exact hregister r
  | ident id => exact hident id h
  | integer | boolean | unary | binary => exact hthrow

private theorem assignIdent_blames {id : Ident} (h : P id.span) (τ : ValueType) {valueSpan : Span}
    (hvalue : P valueSpan) : BlamesAt P (assignIdent id τ valueSpan) := by
  refine Blames.get.bind fun a => ?_
  split
  · refine (declare_blames h _ _).bind fun decl => (use_blames id decl).bind fun _ => ?_
    exact update_blames fun r hr => hr.setType decl τ
  · rename_i decl _
    refine (use_blames id decl).bind fun _ => (symbol_blames decl).bind fun s => ?_
    split
    · exact .throw h
    · exact expectType_blames _ _ hvalue _
    · refine (symbol_blames decl).bind fun s => ?_
      split
      · exact update_blames fun r hr => hr.setType _ _
      · exact expectType_blames _ _ hvalue _

private theorem assign_blames {left value : Expr} (hleft : AllAt P left.nodes)
    (hvalue : AllAt P value.nodes) : BlamesAt P (assign left value) := by
  have hspan : P value.span := Expr.at_of_nodes hvalue
  refine target_blames (Expr.at_of_nodes hleft) (fun r => ?_) fun id hid => ?_
  · exact (exprType_blames hvalue).bind fun τ => expectType_blames _ _ hspan _
  · exact (exprType_blames hvalue).bind fun τ => assignIdent_blames hid τ hspan

private theorem compoundTargetType_blames {id : Ident} (h : P id.span) :
    BlamesAt P (compoundTargetType (.ident id)) := by
  refine (lookup_blames h).bind fun decl => (symbol_blames decl).bind fun s => ?_
  split
  · exact .throw h
  · exact .pure _
  · exact readType_blames _

private theorem compound_blames (op : Operator) {left value : Expr} {span : Span} (h : P span)
    (hleft : AllAt P left.nodes) (hvalue : AllAt P value.nodes) :
    BlamesAt P (compound op left value span) := by
  have hrest : ∀ τ : ValueType, BlamesAt P (do
      let valueType ← exprType value
      let result ← binaryResult op τ valueType span
      expectType τ result span ("result of '" ++ op.text ++ "='")) := fun τ =>
    (exprType_blames hvalue).bind fun _ => (binaryResult_blames op _ _ h).bind fun _ =>
      expectType_blames _ _ h _
  refine target_blames (Expr.at_of_nodes hleft) (fun r => ?_) fun id hid => ?_
  · exact (Blames.pure ValueType.integer).bind hrest
  · exact (compoundTargetType_blames hid).bind hrest

private theorem isRegister_blames {e : Expr} (h : P e.span) : BlamesAt P (isRegister e) := by
  cases e with
  | ident id =>
      exact (lookup_blames h).bind fun decl => (symbol_blames decl).bind fun _ => .pure _
  | register | integer | boolean | unary | binary => exact .pure _

private theorem checkOperand_blames (i : Intrinsic) (index : Nat) {arg : Expr}
    (h : AllAt P arg.nodes) (operand : Operand) :
    BlamesAt P (checkOperand i index arg operand) := by
  have hspan := Expr.at_of_nodes h
  cases operand with
  | register =>
      refine (isRegister_blames hspan).bind fun found => ?_
      split
      · exact .pure _
      · exact .throw hspan
  | integer => exact checkExpr_blames _ h _
  | any => exact (exprType_blames h).bind fun _ => .pure _

private theorem checkOperands_blames (i : Intrinsic) : ∀ (index : Nat)
    {args : List (Expr × Operand)},
    (∀ a ∈ args, AllAt P a.1.nodes) → BlamesAt P (checkOperands i index args)
  | _, [], _ => .pure _
  | index, (arg, operand) :: rest, h => by
      obtain ⟨harg, hrest⟩ := List.forall_mem_cons.mp h
      exact (checkOperand_blames i index harg operand).bind fun _ =>
        checkOperands_blames i (index + 1) hrest

private theorem intrinsic_blames (i : Intrinsic) {args : List Expr} {span : Span} (h : P span)
    (hargs : AllAt P (exprsNodes args)) : BlamesAt P (intrinsic i args span) := by
  unfold intrinsic
  split
  · exact checkOperands_blames i 1 fun a ha => allAt_of_mem hargs a.1 (List.of_mem_zip ha).1
  · exact .throw h

private theorem call_blames {name : Ident} (args : List Expr) {span : Span} (h : P span)
    (hname : P name.span) : BlamesAt P (call name args span) := by
  refine (lookup_blames hname).bind fun decl => (symbol_blames decl).bind fun s => ?_
  split
  · split
    · exact .pure _
    · exact .throw h
  · exact .throw hname

private theorem declareAll_blames : ∀ {decls : List Decl}, AllAt P (decls.map (.name ·.name)) →
    BlamesAt P (declareAll decls)
  | [], _ => .pure _
  | d :: rest, h => by
      obtain ⟨hd, hrest⟩ := allAt_cons.mp h
      exact (declare_blames hd d.kind false).bind fun _ => declareAll_blames hrest

/-- An error in a part of a program is where a node of that part is. -/
abbrev blaming (P : Span → Prop) : Claim where
  stmt s x := AllAt P s.nodes → BlamesAt P x
  block b x := AllAt P b.nodes → BlamesAt P x
  stmts body x := AllAt P (stmtsNodes body) → BlamesAt P x

/-- The places of a statement are those of its parts, with its own in front. -/
private theorem blaming_rules : (blaming P).Rules where
  assign _ _ _ h := by
    simp only [Stmt.nodes, allAt_cons, allAt_append] at h
    exact assign_blames h.2.1 h.2.2
  compound op _ _ _ h := by
    simp only [Stmt.nodes, allAt_cons, allAt_append] at h
    exact compound_blames op h.1 h.2.1 h.2.2
  ifThen _ _ _ hbody h := by
    simp only [Stmt.nodes, allAt_cons, allAt_append] at h
    exact (checkExpr_blames _ h.2.1 _).bind fun _ => hbody h.2.2
  ifElse _ _ _ _ _ hbody helse h := by
    simp only [Stmt.nodes, allAt_cons, allAt_append] at h
    exact (checkExpr_blames _ h.2.2.1 _).bind fun _ => (hbody h.2.2.2.1).bind fun _ =>
      helse h.2.2.2.2
  whileLoop _ _ _ hbody h := by
    simp only [Stmt.nodes, allAt_cons, allAt_append] at h
    exact (checkExpr_blames _ h.2.1 _).bind fun _ => hbody h.2.2
  func _ _ _ hbody h := by
    simp only [Stmt.nodes, allAt_cons] at h
    exact hbody h.2.2
  ret _ _ := .pure ()
  retValue _ _ h := by
    simp only [Stmt.nodes, allAt_cons] at h
    exact checkExpr_blames _ h.2 _
  intrinsic i _ _ h := by
    simp only [Stmt.nodes, Arguments.nodes, allAt_cons] at h
    exact intrinsic_blames i h.1 h.2.2
  call _ args _ h := by
    simp only [Stmt.nodes, allAt_cons] at h
    exact call_blames args.args h.1 h.2.1
  block _ _ _ hbody h := by
    simp only [Block.nodes, allAt_cons, allAt_append] at h
    exact inScope_blames ((declareAll_blames h.2.1).bind fun _ => hbody h.2.2)
  nil _ := .pure ()
  cons _ _ hs hrest h := by
    simp only [stmtsNodes, allAt_append] at h
    exact (hs h.1).bind fun _ => hrest h.2

/-- **An error in a block is where a node of it is.** -/
theorem block_blames {b : Block} (h : AllAt P b.nodes) : BlamesAt P (block b) :=
  blaming_rules.blocks b h

end Analysis

/-! ### Code

Writing code keeps no invariant that would matter here.  What it looks up is done by
functions without a state, for which `FailsAt` is the same property.
-/

namespace Codegen

variable {P : Span → Prop} {g : CodeContext}

/-- Errors are where `P` holds. -/
abbrev BlamesAt (P : Span → Prop) {α : Type} (x : Generating α) : Prop :=
  Blames (fun _ => True) (fun e => P e.span) x

/-- The error of an answer is where `P` holds. -/
abbrev FailsAt (P : Span → Prop) {α : Type} (x : Except CodegenError α) : Prop :=
  FailsOnly (fun e => P e.span) x

private theorem emit_blames (f : Emitter → Emitter) :
    BlamesAt P (emit f) := .modify fun _ _ => trivial

private theorem ofExcept_blames {α : Type} {x : Except CodegenError α} (h : FailsAt P x) :
    BlamesAt P (ofExcept x) := by
  cases x with
  | ok a => exact .pure a
  | error e => exact .throw (h e rfl)

private theorem opcodeOr_blames (op? : Option Opcode) {span : Span} (h : P span)
    (message : String) :
    BlamesAt P (opcodeOr op? span message) := by
  cases op? with
  | some op => exact .pure op
  | none => exact .throw h

private theorem jump_blames (op : Opcode) : BlamesAt P (jump op) :=
  ⟨fun _ _ => trivial, fun _ herror => by cases herror⟩

private theorem patch_blames (offset : Nat) {span : Span} (h : P span) :
    BlamesAt P (patch offset span) := by
  refine ⟨fun _ _ => trivial, fun _ herror => ?_⟩
  rw [patch_eq] at herror
  split at herror
  · cases herror
  · obtain ⟨rfl, -⟩ := EStateM.Result.error.inj herror
    exact h

private theorem loop_blames (start : Nat) {span : Span} (h : P span) :
    BlamesAt P (loop start span) := by
  refine ⟨fun _ _ => trivial, fun _ herror => ?_⟩
  rw [loop_eq] at herror
  split at herror
  · cases herror
  · obtain ⟨rfl, -⟩ := EStateM.Result.error.inj herror
    exact h

private theorem load_blames (place : Storage) : BlamesAt P (load place) := by
  cases place <;> exact emit_blames _

private theorem store_blames (place : Storage) : BlamesAt P (store place) := by
  cases place <;> exact emit_blames _

/-! #### Looking up

All four lookups report the span of the name or of the expression that they were given.
-/

private theorem identStorage_failsAt {id : Ident} (h : P id.span) :
    FailsAt P (g.identStorage id) := by
  unfold CodeContext.identStorage
  split
  · exact .error h
  · split
    · exact .pure _
    · split
      · exact .pure _
      · exact .error h
    · exact .error h

private theorem storage_failsAt {e : Expr} (h : P e.span) : FailsAt P (g.storage e) := by
  cases e with
  | register r span => exact .pure _
  | ident id => exact identStorage_failsAt h
  | integer | boolean | unary | binary => exact .error h

private theorem registerOperand_failsAt {e : Expr} (h : P e.span) :
    FailsAt P (g.registerOperand e) := by
  unfold CodeContext.registerOperand
  split
  · rename_i err herror
    exact .error (storage_failsAt h err herror)
  · exact .pure _
  · exact .error h

private theorem sectionOf_failsAt {id : Ident} (h : P id.span) : FailsAt P (g.sectionOf id) := by
  unfold CodeContext.sectionOf
  split
  · exact .pure _
  · exact .error h

/-! #### Expressions and statements

Jumps that are too long are blamed on the statement that jumps, so its span is asked for
where `patch` and `loop` are.
-/

private theorem expr_blames {e : Expr} (h : AllAt P e.nodes) : BlamesAt P (expr g e) := by
  induction e with
  | integer | boolean | register => exact emit_blames _
  | ident id =>
      exact (ofExcept_blames (identStorage_failsAt (Expr.at_of_nodes h))).bind fun place =>
        load_blames place
  | unary op operand span ih =>
      obtain ⟨hspan, hoperand⟩ := allAt_cons.mp h
      exact (ih hoperand).bind fun _ => (opcodeOr_blames _ hspan _).bind fun _ => emit_blames _
  | binary op left right span ihl ihr =>
      obtain ⟨hspan, hparts⟩ := allAt_cons.mp h
      obtain ⟨hleft, hright⟩ := allAt_append.mp hparts
      exact (ihl hleft).bind fun _ => (ihr hright).bind fun _ =>
        (opcodeOr_blames _ hspan _).bind fun _ => emit_blames _

private theorem assign_blames {target value : Expr} (htarget : AllAt P target.nodes)
    (hvalue : AllAt P value.nodes) : BlamesAt P (assign g target value) :=
  (ofExcept_blames (storage_failsAt (Expr.at_of_nodes htarget))).bind fun place =>
    (expr_blames hvalue).bind fun _ => store_blames place

private theorem compound_blames (op : Operator) {target value : Expr} {span : Span} (h : P span)
    (htarget : AllAt P target.nodes) (hvalue : AllAt P value.nodes) :
    BlamesAt P (compound g op target value span) :=
  (ofExcept_blames (storage_failsAt (Expr.at_of_nodes htarget))).bind fun place =>
    (opcodeOr_blames _ h _).bind fun _ => (load_blames place).bind fun _ =>
      (expr_blames hvalue).bind fun _ => (emit_blames _).bind fun _ => store_blames place

private theorem ret_blames {value : Option Expr} (h : ∀ e ∈ value, AllAt P e.nodes) :
    BlamesAt P (ret g value) := by
  cases value with
  | none => exact emit_blames _
  | some e =>
      exact (expr_blames (h e rfl)).bind fun _ => (emit_blames _).bind fun _ => emit_blames _

private theorem intrinsic_blames (i : Intrinsic) {args : List Expr} {span : Span} (h : P span)
    (hargs : AllAt P (exprsNodes args)) : BlamesAt P (intrinsic g i args span) := by
  have harg : ∀ e ∈ args, AllAt P e.nodes := allAt_of_mem hargs
  have hregister : ∀ e ∈ args, BlamesAt P (ofExcept (g.registerOperand e)) := fun e he =>
    ofExcept_blames (registerOperand_failsAt (Expr.at_of_nodes (harg e he)))
  unfold intrinsic
  split
  · exact (hregister _ (by simp)).bind fun _ => (expr_blames (harg _ (by simp))).bind fun _ =>
      (expr_blames (harg _ (by simp))).bind fun _ => emit_blames _
  · exact (expr_blames (harg _ (by simp))).bind fun _ =>
      (expr_blames (harg _ (by simp))).bind fun _ =>
        (expr_blames (harg _ (by simp))).bind fun _ => emit_blames _
  · exact (expr_blames (harg _ (by simp))).bind fun _ => emit_blames _
  · exact (expr_blames (harg _ (by simp))).bind fun _ => emit_blames _
  · exact (hregister _ (by simp)).bind fun _ => (hregister _ (by simp)).bind fun _ =>
      emit_blames _
  · exact .throw h

private theorem call_blames {name : Ident} (h : P name.span) : BlamesAt P (call g name) :=
  (ofExcept_blames (sectionOf_failsAt h)).bind fun _ => emit_blames _

section Jumps

variable {cond body otherwise : Generating Unit} {span : Span}

private theorem ifThen_blames (hcond : BlamesAt P cond) (hbody : BlamesAt P body) (h : P span) :
    BlamesAt P (ifThen cond body span) :=
  hcond.bind fun _ => (jump_blames _).bind fun _ => hbody.bind fun _ => patch_blames _ h

private theorem ifElse_blames (hcond : BlamesAt P cond) (hbody : BlamesAt P body)
    (hotherwise : BlamesAt P otherwise) (otherLine : Nat) (h : P span) :
    BlamesAt P (ifElse cond body otherwise otherLine span) :=
  hcond.bind fun _ => (jump_blames _).bind fun _ => hbody.bind fun _ =>
    (emit_blames _).bind fun _ => (jump_blames _).bind fun _ => (patch_blames _ h).bind fun _ =>
      hotherwise.bind fun _ => patch_blames _ h

private theorem whileLoop_blames (hcond : BlamesAt P cond) (hbody : BlamesAt P body) (h : P span) :
    BlamesAt P (whileLoop cond body span) :=
  Blames.get.bind fun _ => hcond.bind fun _ => (jump_blames _).bind fun _ => hbody.bind fun _ =>
    (emit_blames _).bind fun _ => (loop_blames _ h).bind fun _ => patch_blames _ h

end Jumps

/-- What is wrong with the code of a part of a program is where a node of that part is. -/
abbrev blaming (P : Span → Prop) : Claim where
  code s x := AllAt P s.nodes → BlamesAt P x
  stmt s x := AllAt P s.nodes → BlamesAt P x
  block b x := AllAt P b.nodes → BlamesAt P x
  stmts body x := AllAt P (stmtsNodes body) → BlamesAt P x

/-- As for analysis, with the place of the statement itself where a jump may be too long. -/
private theorem blaming_rules : (blaming P).Rules g where
  assign _ _ _ h := by
    simp only [Stmt.nodes, allAt_cons, allAt_append] at h
    exact assign_blames h.2.1 h.2.2
  compound op _ _ _ h := by
    simp only [Stmt.nodes, allAt_cons, allAt_append] at h
    exact compound_blames op h.1 h.2.1 h.2.2
  ifThen _ _ _ hbody h := by
    simp only [Stmt.nodes, allAt_cons, allAt_append] at h
    exact ifThen_blames (expr_blames h.2.1) (hbody h.2.2) h.1
  ifElse _ _ _ _ _ hbody helse h := by
    simp only [Stmt.nodes, allAt_cons, allAt_append] at h
    exact ifElse_blames (expr_blames h.2.2.1) (hbody h.2.2.2.1) (helse h.2.2.2.2) _ h.1
  whileLoop _ _ _ hbody h := by
    simp only [Stmt.nodes, allAt_cons, allAt_append] at h
    exact whileLoop_blames (expr_blames h.2.1) (hbody h.2.2) h.1
  func _ _ _ _ := .pure ()
  ret value _ h := by
    cases value with
    | none => exact ret_blames (by simp)
    | some value =>
        simp only [Stmt.nodes, allAt_cons] at h
        exact ret_blames (by simpa using h.2)
  intrinsic i _ _ h := by
    simp only [Stmt.nodes, Arguments.nodes, allAt_cons] at h
    exact intrinsic_blames i h.1 h.2.2
  call _ _ _ h := by
    simp only [Stmt.nodes, allAt_cons] at h
    exact call_blames h.2.1
  line _ _ hx h := (emit_blames _).bind fun _ => hx h
  block _ _ _ hbody h := by
    simp only [Block.nodes, allAt_cons, allAt_append] at h
    exact hbody h.2.2
  nil _ := .pure ()
  cons _ _ hs hrest h := by
    simp only [stmtsNodes, allAt_append] at h
    exact (hs h.1).bind fun _ => hrest h.2

/-- **What is wrong with the code of a block is where a node of it is.** -/
theorem block_blames {b : Block} (h : AllAt P b.nodes) : BlamesAt P (block g b) :=
  blaming_rules.blocks b h

private theorem sectionCode_failsAt {body : Block} (h : AllAt P body.nodes) :
    FailsAt P (sectionCode g body) := by
  have hwritten : BlamesAt P (do
      block g body
      emit (·.op g.exit)) := (block_blames h).bind fun _ => emit_blames _
  intro e herror
  simp only [sectionCode] at herror
  split at herror
  · cases herror
  · rename_i e' t hrun
    obtain rfl := Except.error.inj herror
    exact hwritten.error trivial hrun

end Codegen

/-! ### Whole programs

Functions are taken out of the tree to get sections of their own, and their nodes are nodes
of the program (`nodes_of_mem_functions`).  The limits blame the whole program, the symbol of
a variable, or the name of a function.
-/

section Programs

variable {P : Span → Prop}

mutual

/-- The nodes of a function are nodes of what it is in. -/
theorem Stmt.nodes_of_mem_functions : ∀ {s : Stmt} {f : Func}, f ∈ s.functions →
    (Stmt.func f.name f.body f.span).nodes ⊆ s.nodes
  | .func name body span, f, hf => by
      rw [Stmt.functions] at hf
      rcases List.mem_cons.mp hf with rfl | hf
      · exact List.Subset.refl _
      · intro n hn
        simp [Stmt.nodes, Block.nodes_of_mem_functions hf hn]
  | .ifThen cond body span, f, hf => by
      rw [Stmt.functions] at hf
      intro n hn
      simp [Stmt.nodes, Block.nodes_of_mem_functions hf hn]
  | .ifElse cond body ifSpan elseBody span, f, hf => by
      rw [Stmt.functions, List.mem_append] at hf
      intro n hn
      rcases hf with hf | hf <;> simp [Stmt.nodes, Block.nodes_of_mem_functions hf hn]
  | .whileLoop cond body span, f, hf => by
      rw [Stmt.functions] at hf
      intro n hn
      simp [Stmt.nodes, Block.nodes_of_mem_functions hf hn]
  | .assign .., _, hf | .compound .., _, hf | .ret .., _, hf | .intrinsic .., _, hf
  | .call .., _, hf => by
      simp [Stmt.functions] at hf

theorem Block.nodes_of_mem_functions : ∀ {b : Block} {f : Func}, f ∈ b.functions →
    (Stmt.func f.name f.body f.span).nodes ⊆ b.nodes
  | ⟨decls, body, span⟩, f, hf => by
      rw [Block.functions] at hf
      intro n hn
      simp [Block.nodes, stmtsNodes_of_mem_functions hf hn]

theorem stmtsNodes_of_mem_functions : ∀ {body : List Stmt} {f : Func}, f ∈ stmtsFunctions body →
    (Stmt.func f.name f.body f.span).nodes ⊆ stmtsNodes body
  | [], _, hf => by simp [stmtsFunctions] at hf
  | s :: rest, f, hf => by
      rw [stmtsFunctions, List.mem_append] at hf
      rw [stmtsNodes]
      rcases hf with hf | hf
      · exact List.subset_append_of_subset_left _ (Stmt.nodes_of_mem_functions hf)
      · exact List.subset_append_of_subset_right _ (stmtsNodes_of_mem_functions hf)

end

private theorem Block.allAt_functions {b : Block} (h : AllAt P b.nodes) :
    ∀ f ∈ b.functions, P f.name.span ∧ AllAt P f.body.nodes := by
  intro f hf
  have hnodes : AllAt P (Stmt.func f.name f.body f.span).nodes := fun n hn =>
    h n (Block.nodes_of_mem_functions hf hn)
  simp only [Stmt.nodes, allAt_cons] at hnodes
  exact hnodes.2

namespace Codegen

variable {o : CompileOptions} {r : Resolutions} {p : Program}

private theorem at_of_limit? (hsymbols : Analysis.SymbolsAt P r) (hp : P p.span) {functions : Nat}
    {e : CodegenError} (h : limit? o r p functions = some e) : P e.span := by
  simp only [limit?] at h
  split at h
  · obtain rfl := Option.some.inj h
    show P (Option.getD _ p.span)
    cases hfirst : r.symbols.find? fun s => s.slot? == some CodeContext.maxVariables with
    | none => exact hp
    | some s =>
        obtain ⟨n, hn⟩ := Array.mem_iff_getElem?.mp (Array.mem_of_find?_eq_some hfirst)
        exact hsymbols n s hn
  · split at h
    · obtain rfl := Option.some.inj h
      exact hp
    · cases h

private theorem numberSections_failsAt :
    ∀ {named : List (Func × String)} {start : Nat} {sections : Std.TreeMap Nat UInt16},
      (∀ x ∈ named, P x.1.name.span) → FailsAt P (numberSections o r sections start named)
  | [], _, _, _ => .pure _
  | (f, name) :: rest, start, sections, h => by
      obtain ⟨hf, hrest⟩ := List.forall_mem_cons.mp h
      rw [numberSections]
      split
      · exact .error hf
      · split
        · exact .error hf
        · exact numberSections_failsAt hrest

theorem generate_failsAt (hsymbols : Analysis.SymbolsAt P r) (hp : P p.span)
    (hnodes : AllAt P p.block.nodes) : FailsAt P (generate o r p) := by
  have hfunctions : ∀ f ∈ p.functions, P f.name.span ∧ AllAt P f.body.nodes := by
    rw [p.functions_eq]
    exact Block.allAt_functions hnodes
  have hsections : FailsAt P (codeSections o r p) := by
    refine .codeSections (fun e => at_of_limit? hsymbols hp) ?_ fun _ table _ b hb => ?_
    · exact numberSections_failsAt fun x hx => (hfunctions x.1 (List.of_mem_zip hx).1).1
    · rcases List.mem_cons.mp hb with rfl | hb
      · exact sectionCode_failsAt hnodes
      · obtain ⟨f, hf, rfl⟩ := List.mem_map.mp hb
        exact sectionCode_failsAt (hfunctions f hf).2
  exact hsections.bind fun _ _ => .pure _

end Codegen

/-- **An error of analysis is at a node, and so are the symbols that it finds.** -/
theorem Program.analyze_blames {p : Program} (h : AllAt P p.block.nodes) :
    (∀ e, p.analyze = .error e → P e.span) ∧
      ∀ r, p.analyze = .ok r → Analysis.SymbolsAt P r := by
  have hblock : Analysis.BlamesAt P (Analysis.block p.block) := Analysis.block_blames h
  have hstart : Analysis.SymbolsAt P Analysis.start.resolutions := by
    intro n s hs
    simp [Analysis.start, Resolutions.empty] at hs
  constructor
  · intro e herror
    simp only [Program.analyze] at herror
    split at herror
    · cases herror
    · rename_i e' a hrun
      obtain rfl := Except.error.inj herror
      exact hblock.error hstart hrun
  · intro r hok
    simp only [Program.analyze] at hok
    split at hok
    · rename_i u a hrun
      obtain rfl := Except.ok.inj hok
      exact hblock.keeps hstart hrun
    · cases hok

end Programs

end StackCode
