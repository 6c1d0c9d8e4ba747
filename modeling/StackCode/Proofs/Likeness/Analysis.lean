/-
Programs that differ in their layout only are analysed alike.

The scopes know names and numbers and no places, so they are the same on both sides.  What
is recorded of the names is found under their spans: a name and its counterpart lead to the
same number, and the symbol of that number is the same up to its place (`ResolvedAlike`).
Recording one more name keeps this up just because a matching tells the spans of names apart
on one side when they are told apart on the other (`getElem?_insert`).

`Analysis.Agrees` is `Lockstep` with these relations, before and after.  It is taken from
the single steps to the walk over statements, where it is the claim `agreement`.
-/
import StackCode.Proofs.Likeness
import StackCode.Proofs.Lockstep
import StackCode.Proofs.Steps
import StackCode.Proofs.Traversal

namespace StackCode

open Sequencing

/-- Errors that differ in their places only. -/
def SemanticError.Same (e e' : SemanticError) : Prop := e.unplaced = e'.unplaced

/-- What is known of a symbol but for its place. -/
def Symbol.unplaced (s : Symbol) : Symbol := { s with span := default }

/-- Symbols that differ in their places only. -/
def Symbol.Same (s s' : Symbol) : Prop := s.unplaced = s'.unplaced

namespace Symbol.Same

variable {s s' : Symbol}

theorem kind (h : Same s s') : s.kind = s'.kind := by injection h

theorem type? (h : Same s s') : s.type? = s'.type? := by injection h

theorem slot? (h : Same s s') : s.slot? = s'.slot? := by injection h

end Symbol.Same

/-- The symbols and the records of two programs that are alike. -/
structure ResolvedAlike (M : Matching) (r r' : Resolutions) : Prop where
  symbols : r.symbols.map Symbol.unplaced = r'.symbols.map Symbol.unplaced
  references : ∀ {id id'}, M.Name id id' → r.resolve? id = r'.resolve? id'
  declarations : ∀ {id id'}, M.Name id id' → r.declaration? id = r'.declaration? id'
  variableCount : r.variableCount = r'.variableCount

namespace ResolvedAlike

variable {M : Matching} {r r' : Resolutions}

theorem size_eq (h : ResolvedAlike M r r') : r.symbols.size = r'.symbols.size := by
  have hsize := congrArg Array.size h.symbols
  simpa using hsize

theorem getElem?_eq (h : ResolvedAlike M r r') (i : Nat) :
    (r.symbols[i]?).map Symbol.unplaced = (r'.symbols[i]?).map Symbol.unplaced := by
  have hat := congrArg (·[i]?) h.symbols
  simpa using hat

theorem symbol (h : ResolvedAlike M r r') (i : Nat) : (r.symbol i).Same (r'.symbol i) := by
  have hat := h.getElem?_eq i
  rw [Resolutions.symbol, Resolutions.symbol, getElem!_def, getElem!_def]
  cases hs : r.symbols[i]? with
  | none =>
      rw [hs] at hat
      rw [Option.map_eq_none_iff.mp hat.symm]
      rfl
  | some s =>
      rw [hs] at hat
      obtain ⟨s', hs', heq⟩ := Option.map_eq_some_iff.mp hat.symm
      rw [hs']
      exact heq.symm

/-- A table of spans keeps leading names and their counterparts to the same number. -/
theorem getElem?_insert {table table' : Std.TreeMap Span Nat} {a a' b b' : Ident}
    (ha : M.Name a a') (hb : M.Name b b') (h : table[b.span]? = table'[b'.span]?) (n : Nat) :
    (table.insert a.span n)[b.span]? = (table'.insert a'.span n)[b'.span]? := by
  simp only [Std.TreeMap.getElem?_insert, Std.LawfulEqOrd.compare_eq_iff_eq, M.span_eq_iff ha hb, h]

theorem addSymbol (h : ResolvedAlike M r r') {id id' : Ident} (hid : M.Name id id')
    (kind : DeclKind) (implicit : Bool) :
    ResolvedAlike M (r.addSymbol id kind implicit) (r'.addSymbol id' kind implicit) := by
  cases kind with
  | var =>
      refine ⟨?_, h.references, h.declarations, congrArg (· + 1) h.variableCount⟩
      simp [Resolutions.addSymbol, Array.map_push, h.symbols, Symbol.unplaced, M.name_eq hid,
        h.variableCount]
  | func =>
      refine ⟨?_, h.references, h.declarations, h.variableCount⟩
      simp [Resolutions.addSymbol, Array.map_push, h.symbols, Symbol.unplaced, M.name_eq hid]
  | registerAlias reg =>
      refine ⟨?_, h.references, h.declarations, h.variableCount⟩
      simp [Resolutions.addSymbol, Array.map_push, h.symbols, Symbol.unplaced, M.name_eq hid]

theorem bindReference (h : ResolvedAlike M r r') {id id' : Ident} (hid : M.Name id id') (n : Nat) :
    ResolvedAlike M (r.bindReference id.span n) (r'.bindReference id'.span n) :=
  { h with references := fun hb => getElem?_insert hid hb (h.references hb) n }

theorem bindDeclaration (h : ResolvedAlike M r r') {id id' : Ident} (hid : M.Name id id')
    (n : Nat) : ResolvedAlike M (r.bindDeclaration id.span n) (r'.bindDeclaration id'.span n) :=
  { h with declarations := fun hb => getElem?_insert hid hb (h.declarations hb) n }

theorem setType (h : ResolvedAlike M r r') (n : Nat) (type : ValueType) :
    ResolvedAlike M (r.setType n type) (r'.setType n type) := by
  refine ⟨?_, h.references, h.declarations, h.variableCount⟩
  apply Array.ext_getElem?
  intro i
  have hat := h.getElem?_eq i
  simp only [Resolutions.setType, Array.getElem?_map, Array.getElem?_modify]
  by_cases hi : n = i
  · have hwritten := congrArg (Option.map (Symbol.setType type)) hat
    rw [Option.map_map, Option.map_map] at hwritten
    rw [if_pos hi, if_pos hi, Option.map_map, Option.map_map]
    exact hwritten
  · rw [if_neg hi, if_neg hi]
    exact hat

end ResolvedAlike

/-- Two analyses that have come equally far. -/
structure AnalysisAlike (M : Matching) (a a' : Analysis) : Prop where
  scopes : a.scopes = a'.scopes
  resolutions : ResolvedAlike M a.resolutions a'.resolutions

namespace Analysis

/-- Two steps do the same to analyses that have come equally far. -/
def Agrees {α : Type} (M : Matching) (x x' : Analyzing α) (answer : α → α → Prop) : Prop :=
  Lockstep SemanticError.Same (AnalysisAlike M) x x' answer (AnalysisAlike M)

/-! ### Steps

Most steps answer with a type or a number, which is the same on both sides, so after
`Agrees.then` there is one answer and not two.  Only a step that looks at a symbol sees
something different, the place of it, and `symbol_then` has what it may rely on.
-/

section Steps

variable {M : Matching} {α β : Type}

private theorem agrees_pure (a : α) : Agrees M (pure a) (pure a) Eq := .pure rfl id

theorem agrees_throw {e e' : SemanticError} (he : e.unplaced = e'.unplaced)
    {answer : α → α → Prop} : Agrees M (throw e) (throw e') answer := .throw he

/-- A step may depend on an answer that is the same on both sides. -/
theorem Agrees.then {x x' : Analyzing α} {f f' : α → Analyzing β} {answer : β → β → Prop}
    (hx : Agrees M x x' Eq) (hf : ∀ a, Agrees M (f a) (f' a) answer) :
    Agrees M (x >>= f) (x' >>= f') answer := by
  refine Lockstep.bind hx ?_
  rintro a _ rfl
  exact hf a

private theorem agrees_update {f f' : Resolutions → Resolutions}
    (h : ∀ {r r'}, ResolvedAlike M r r' → ResolvedAlike M (f r) (f' r')) :
    Agrees M (update f) (update f') Eq :=
  fun _ _ ha => .ok rfl ⟨ha.scopes, h ha.resolutions⟩

private theorem wrongType_agrees (span span' : Span) (message : String) {answer : α → α → Prop} :
    Agrees M (wrongType span message) (wrongType span' message) answer := by
  exact agrees_throw (by rfl)

private theorem expectType_agrees (expected found : ValueType) (span span' : Span) (what : String) :
    Agrees M (expectType expected found span what) (expectType expected found span' what) Eq := by
  unfold expectType
  by_cases h : expected = found
  · rw [if_pos h, if_pos h]
    exact agrees_pure ()
  · rw [if_neg h, if_neg h]
    exact wrongType_agrees ..

/-- A step that looks at a symbol sees the same but for its place. -/
theorem symbol_then {f f' : Symbol → Analyzing β} {answer : β → β → Prop} (n : Nat)
    (hf : ∀ s s' : Symbol, s.Same s' → Agrees M (f s) (f' s') answer) :
    Agrees M (symbol n >>= f) (symbol n >>= f') answer :=
  fun _ _ ha => hf _ _ (ha.resolutions.symbol n) ha

private theorem readType_agrees (n : Nat) : Agrees M (readType n) (readType n) Eq := by
  refine symbol_then n fun s s' hs => ?_
  rw [hs.type?]
  cases s'.type? with
  | some type => exact agrees_pure type
  | none =>
      refine Agrees.then (agrees_update fun h => h.setType n .integer) fun _ => ?_
      exact agrees_pure _

private theorem binaryResult_agrees (op : Operator) (l r : ValueType) (span span' : Span) :
    Agrees M (binaryResult op l r span) (binaryResult op l r span') Eq := by
  unfold binaryResult
  cases op.binaryType? l r with
  | some type => exact agrees_pure type
  | none => exact wrongType_agrees ..

private theorem unaryResult_agrees (op : Operator) (type : ValueType) (span span' : Span) :
    Agrees M (unaryResult op type span) (unaryResult op type span') Eq := by
  unfold unaryResult
  cases op.unaryType? type with
  | some type => exact agrees_pure type
  | none => exact wrongType_agrees ..

end Steps

/-! ### Names

A name is declared under its span and looked up by its text.  A matching has both: equal
texts, and spans that are told apart alike.
-/

section Names

variable {M : Matching} {id id' : Ident}

private theorem enter_agrees (hid : M.Name id id') (n : Nat) :
    Agrees M (enter id n) (enter id' n) Eq := by
  intro a a' ha
  simp only [enter]
  rw [← M.name_eq hid, ← ha.scopes]
  cases Scopes.declare id.name n a.scopes with
  | error previous scopes =>
      refine .error ?_
      rfl
  | ok _ scopes => exact .ok rfl ⟨rfl, ha.resolutions⟩

private theorem declare_agrees (hid : M.Name id id') (kind : DeclKind) (implicit : Bool) :
    Agrees M (declare id kind implicit) (declare id' kind implicit) Eq := by
  intro a a' ha
  rw [declare, declare, bind_of_ok (get_eq a), bind_of_ok (get_eq a'), ← ha.resolutions.size_eq]
  refine Agrees.then (enter_agrees hid _) (fun _ => ?_) ha
  refine Agrees.then (agrees_update fun h => h.addSymbol hid kind implicit) fun _ => ?_
  exact Agrees.then (agrees_update fun h => h.bindDeclaration hid _) fun _ => agrees_pure _

private theorem lookup_agrees (hid : M.Name id id') : Agrees M (lookup id) (lookup id') Eq := by
  intro a a' ha
  rw [lookup, lookup, bind_of_ok (get_eq a), bind_of_ok (get_eq a'), ← M.name_eq hid, ← ha.scopes]
  cases a.scopes.lookup? id.name with
  | none => exact agrees_throw (by rfl) ha
  | some n =>
      exact Agrees.then (agrees_update fun h => h.bindReference hid n) (fun _ => agrees_pure n) ha

/-- A step that looks a name up goes on with the same kind of symbol. -/
theorem lookup_then {β : Type} {f f' : Nat → Symbol → Analyzing β} {answer : β → β → Prop}
    (hid : M.Name id id')
    (hf : ∀ n s s', s.kind = s'.kind → Agrees M (f n s) (f' n s') answer) :
    Agrees M (do let n ← lookup id; let s ← symbol n; f n s)
      (do let n ← lookup id'; let s ← symbol n; f' n s) answer :=
  (lookup_agrees hid).then fun n =>
    symbol_then n fun s s' hs => hf n s s' hs.kind

private theorem identType_agrees (hid : M.Name id id') :
    Agrees M (identType id) (identType id') Eq := by
  refine lookup_then hid fun n s s' hkind => ?_
  rw [← hkind, M.name_eq hid]
  cases s.kind with
  | var => exact readType_agrees n
  | registerAlias _ => exact agrees_pure _
  | func => exact wrongType_agrees ..

end Names

/-! ### Expressions

By induction on the relation, which goes with the recursion of `exprType` on both sides at
once.
-/

section Expressions

variable {M : Matching} {e e' : Expr}

private theorem exprType_agrees (h : ExprAlike M e e') :
    Agrees M (exprType e) (exprType e') Eq := by
  induction h with
  | integer | register => exact agrees_pure _
  | boolean => exact agrees_pure _
  | ident hid => exact identType_agrees hid
  | unary _ _ ih => exact ih.then fun type => unaryResult_agrees ..
  | binary _ _ _ ihl ihr => exact ihl.then fun l => ihr.then fun r => binaryResult_agrees ..

private theorem checkExpr_agrees (h : ExprAlike M e e') (expected : ValueType) (what : String) :
    Agrees M (checkExpr expected e what) (checkExpr expected e' what) Eq :=
  (exprType_agrees h).then fun _ => expectType_agrees ..

end Expressions

/-! ### Assignments

`TargetAlike` is what becomes of `ExprAlike` for what can be written to.  Whether a name is
new is decided by the scopes, and these are equal.
-/

/-- The same target in two texts. -/
inductive TargetAlike (M : Matching) : Target → Target → Prop where
  | register {r : Register} : TargetAlike M (.register r) (.register r)
  | ident {id id' : Ident} (h : M.Name id id') : TargetAlike M (.ident id) (.ident id')

section Assignments

variable {M : Matching} {e e' : Expr}

private theorem target_agrees (h : ExprAlike M e e') :
    Agrees M (target e) (target e') (TargetAlike M) := by
  cases h with
  | register => exact .pure .register id
  | ident hid => exact .pure (.ident hid) id
  | binary | unary | integer | boolean =>
      exact agrees_throw (by rfl)

private theorem assignIdent_agrees {id id' : Ident} (hid : M.Name id id') (type : ValueType)
    (span span' : Span) : Agrees M (assignIdent id type span) (assignIdent id' type span') Eq := by
  intro a a' ha
  rw [assignIdent, assignIdent, bind_of_ok (get_eq a), bind_of_ok (get_eq a'), ← M.name_eq hid,
    ← ha.scopes]
  cases a.scopes.lookup? id.name with
  | none =>
      refine Agrees.then (declare_agrees hid .var true) (fun n => ?_) ha
      exact Agrees.then (agrees_update fun h => h.bindReference hid n) fun _ =>
        agrees_update fun h => h.setType n type
  | some n =>
      refine Agrees.then (agrees_update fun h => h.bindReference hid n) (fun _ => ?_) ha
      refine symbol_then n fun s s' hs => ?_
      rw [hs.kind]
      cases s'.kind with
      | func => exact agrees_throw (by rfl)
      | registerAlias _ => exact expectType_agrees ..
      | var =>
          refine symbol_then n fun s s' hs => ?_
          rw [hs.type?]
          cases s'.type? with
          | none => exact agrees_update fun h => h.setType n type
          | some fixed => exact expectType_agrees ..

theorem assign_agrees {v v' : Expr} (ht : ExprAlike M e e') (hv : ExprAlike M v v') :
    Agrees M (assign e v) (assign e' v') Eq := by
  refine Lockstep.bind (target_agrees ht) fun ht => ?_
  refine Agrees.then (exprType_agrees hv) fun type => ?_
  cases ht with
  | register => exact expectType_agrees ..
  | ident hid => exact assignIdent_agrees hid ..

private theorem compoundTargetType_agrees {t t' : Target} (h : TargetAlike M t t') :
    Agrees M (compoundTargetType t) (compoundTargetType t') Eq := by
  cases h with
  | register => exact agrees_pure _
  | ident hid =>
      refine lookup_then hid fun n s s' hkind => ?_
      rw [← hkind]
      cases s.kind with
      | func => exact agrees_throw (by rfl)
      | registerAlias _ => exact agrees_pure _
      | var => exact readType_agrees n

theorem compound_agrees {v v' : Expr} (op : Operator) (ht : ExprAlike M e e')
    (hv : ExprAlike M v v') (span span' : Span) :
    Agrees M (compound op e v span) (compound op e' v' span') Eq := by
  refine Lockstep.bind (target_agrees ht) fun ht => ?_
  refine Agrees.then (compoundTargetType_agrees ht) fun targetType => ?_
  refine Agrees.then (exprType_agrees hv) fun valueType => ?_
  refine Agrees.then (binaryResult_agrees ..) fun result => ?_
  exact expectType_agrees ..

end Assignments

/-! ### Intrinsics and calls

Arguments are alike one by one, so there are equally many of them, and the messages about
their number are the same.
-/

section Uses

variable {M : Matching} {e e' : Expr} {args args' : List Expr}

private theorem isRegister_agrees (h : ExprAlike M e e') :
    Agrees M (isRegister e) (isRegister e') Eq := by
  cases h with
  | register | binary | unary | integer | boolean => exact agrees_pure _
  | ident hid =>
      refine lookup_then hid fun n s s' hkind => ?_
      have hregister : s.register? = s'.register? := by
        unfold Symbol.register?
        rw [hkind]
      rw [hregister]
      exact agrees_pure _

private theorem checkOperand_agrees (i : Intrinsic) (index : Nat) (h : ExprAlike M e e')
    (operand : Operand) :
    Agrees M (checkOperand i index e operand) (checkOperand i index e' operand) Eq := by
  cases operand with
  | register =>
      refine Agrees.then (isRegister_agrees h) fun b => ?_
      cases b with
      | true => exact agrees_pure ()
      | false => exact wrongType_agrees ..
  | integer => exact checkExpr_agrees h ..
  | any =>
      refine Agrees.then (exprType_agrees h) fun _ => ?_
      exact agrees_pure ()

private theorem checkOperands_agrees (i : Intrinsic) (h : List.Forall₂ (ExprAlike M) args args') :
    ∀ (index : Nat) (operands : List Operand),
      Agrees M (checkOperands i index (args.zip operands))
        (checkOperands i index (args'.zip operands)) Eq := by
  induction h with
  | nil =>
      intro index operands
      exact agrees_pure ()
  | cons he _ ih =>
      intro index operands
      cases operands with
      | nil => exact agrees_pure ()
      | cons operand operands =>
          refine Agrees.then (checkOperand_agrees i index he operand) fun _ => ?_
          exact ih (index + 1) operands

theorem intrinsic_agrees (i : Intrinsic) (h : List.Forall₂ (ExprAlike M) args args')
    (span span' : Span) : Agrees M (intrinsic i args span) (intrinsic i args' span') Eq := by
  unfold intrinsic
  rw [← h.length_eq]
  by_cases hlength : args.length = i.arity
  · rw [if_pos hlength, if_pos hlength]
    exact checkOperands_agrees i h 1 i.operands
  · rw [if_neg hlength, if_neg hlength]
    exact agrees_throw (by rfl)

theorem call_agrees {id id' : Ident} (hid : M.Name id id')
    (h : List.Forall₂ (ExprAlike M) args args') (span span' : Span) :
    Agrees M (call id args span) (call id' args' span') Eq := by
  refine lookup_then hid fun n s s' hkind => ?_
  have hempty : args.isEmpty = args'.isEmpty := by
    cases h with
    | nil => rfl
    | cons => rfl
  rw [← hkind, M.name_eq hid, ← h.length_eq, ← hempty]
  by_cases hfunc : s.kind = .func
  · rw [if_pos hfunc, if_pos hfunc]
    by_cases hargs : args.isEmpty = true
    · rw [if_pos hargs, if_pos hargs]
      exact agrees_pure ()
    · rw [if_neg hargs, if_neg hargs]
      exact agrees_throw (by rfl)
  · rw [if_neg hfunc, if_neg hfunc]
    exact wrongType_agrees ..

end Uses

/-! ### Statements

The rules of the walk are about one tree and the step for it; the other tree is bound inside
the claim.  So each rule is proved by looking at the one case of `StmtAlike` that fits.
-/

section Statements

variable {M : Matching}

private theorem declareAll_agrees {ds ds' : List Decl} (h : List.Forall₂ (DeclAlike M) ds ds') :
    Agrees M (declareAll ds) (declareAll ds') Eq := by
  induction h with
  | nil => exact agrees_pure ()
  | cons hd _ ih =>
      rw [declareAll, declareAll, ← hd.kind]
      exact Agrees.then (declare_agrees hd.name _ _) fun _ => ih

private theorem inScope_agrees {x x' : Analyzing Unit} (h : Agrees M x x' Eq) :
    Agrees M (inScope x) (inScope x') Eq := by
  intro a a' ha
  have hpush : AnalysisAlike M { a with scopes := a.scopes.push }
      { a' with scopes := a'.scopes.push } := ⟨by rw [ha.scopes], ha.resolutions⟩
  have hends := h hpush
  unfold inScope
  generalize x { a with scopes := a.scopes.push } = r,
    x' { a' with scopes := a'.scopes.push } = r' at hends
  cases hends with
  | ok _ hb => exact .ok rfl ⟨by rw [hb.scopes], hb.resolutions⟩
  | error he => exact .error he

/-- Each part of a program is analysed like the same part of a program that is alike. -/
abbrev agreement (M : Matching) : Claim where
  stmt s x := ∀ ⦃s'⦄, StmtAlike M s s' → Agrees M x (stmt s') Eq
  block b x := ∀ ⦃b'⦄, BlockAlike M b b' → Agrees M x (block b') Eq
  stmts body x := ∀ ⦃body'⦄, StmtsAlike M body body' → Agrees M x (stmts body') Eq

theorem agreement_rules : (agreement M).Rules where
  assign _ _ _ _
    | .assign ht hv _ => assign_agrees ht hv
  compound _ _ _ _ _
    | .compound ht hv _ => compound_agrees _ ht hv ..
  ifThen _ _ _ hbody _
    | .ifThen hc hb _ => (checkExpr_agrees hc ..).then fun _ => hbody hb
  ifElse _ _ _ _ _ hbody helse _
    | .ifElse hc hb he _ =>
      (checkExpr_agrees hc ..).then fun _ => (hbody hb).then fun _ => helse he
  whileLoop _ _ _ hbody _
    | .whileLoop hc hb _ => (checkExpr_agrees hc ..).then fun _ => hbody hb
  func _ _ _ hbody _
    | .func _ hb _ => hbody hb
  ret _ _
    | .ret .none _ => agrees_pure ()
  retValue _ _ _
    | .ret (.some hv) _ => checkExpr_agrees hv ..
  intrinsic _ _ _ _
    | .intrinsic ha _ => intrinsic_agrees _ ha ..
  call _ _ _ _
    | .call hn ha _ => call_agrees hn ha ..
  block _ _ _ hbody _
    | .mk hd hb _ => inScope_agrees ((declareAll_agrees hd).then fun _ => hbody hb)
  nil _
    | .nil => agrees_pure ()
  cons _ _ hs hrest _
    | .cons h h' => (hs h).then fun _ => hrest h'

theorem block_agrees {b b' : Block} (h : BlockAlike M b b') : Agrees M (block b) (block b') Eq :=
  agreement_rules.blocks b h

end Statements

end Analysis

/-- **Programs that are alike are analysed alike.** -/
theorem Program.analyze_alike {M : Matching} {p p' : Program} (h : BlockAlike M p.block p'.block) :
    ExceptAlike SemanticError.Same (ResolvedAlike M) p.analyze p'.analyze := by
  have hstart : AnalysisAlike M .start .start := ⟨rfl, rfl, fun _ => rfl, fun _ => rfl, rfl⟩
  have hends := Analysis.block_agrees h hstart
  unfold Program.analyze
  generalize Analysis.block p.block .start = r, Analysis.block p'.block .start = r' at hends
  cases hends with
  | ok _ ha => exact .ok ha.resolutions
  | error he => exact .error he

end StackCode
