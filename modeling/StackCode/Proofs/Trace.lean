/-
What analysis does to the resolutions, change by change.

However a program is walked, only three things ever happen to what is known of its names: a
name is recorded as a use of a symbol, a symbol is added for a name, and a variable without
a type gets one.  An `Event` is one such change, and every walk is a list of them
(`Traces`).  So what a walk keeps is what each of the three keeps, and no later argument has
to follow the walk again.

Which events there can be is told by the tree (`Accounts`): names are used where the tree
refers to them, and symbols are added for the declarations of the blocks and, where a plain
assignment introduces a variable, for a name that the tree refers to.
-/
import StackCode.Proofs.Names
import StackCode.Proofs.Steps
import StackCode.Proofs.Traversal

namespace StackCode

open Sequencing

/-! ### Changes

`Resolutions.replay` makes a list of changes one after another.  `Accounts` puts no bound on
how often something happens, apart from the declarations of blocks, which are made once each
and in their order.
-/

/-- One change to what is known of the names, made by `Event.apply`. -/
inductive Event where
  /-- The name uses a symbol. -/
  | use (id : Ident) (decl : Nat)
  /-- The name declares a new symbol. -/
  | declare (id : Ident) (kind : DeclKind) (implicit : Bool)
  /-- A variable gets a type, if it has none. -/
  | fix (decl : Nat) (type : ValueType)

namespace Event

/-- The resolutions after a change. -/
def apply (r : Resolutions) : Event → Resolutions
  | use id decl => r.bindReference id.span decl
  | declare id kind implicit =>
    (r.addSymbol id kind implicit).bindDeclaration id.span r.symbols.size
  | fix decl type => r.fixType decl type

/-- The declaration that a change comes from, if a block makes it. -/
def decl? : Event → Option Decl
  | declare id kind false => some ⟨kind, id⟩
  | declare _ _ true | use .. | fix .. => none

end Event

/-- The resolutions after a list of changes. -/
def Resolutions.replay (r : Resolutions) (events : List Event) : Resolutions :=
  events.foldl Event.apply r

@[simp] theorem Resolutions.replay_nil (r : Resolutions) : r.replay [] = r := rfl

@[simp] theorem Resolutions.replay_cons (r : Resolutions) (e : Event) (events : List Event) :
    r.replay (e :: events) = (e.apply r).replay events := rfl

theorem Resolutions.replay_append (r : Resolutions) (a b : List Event) :
    r.replay (a ++ b) = (r.replay a).replay b := by
  simp [Resolutions.replay]

/-- The changes that a part of a tree with these references and declarations can cause. -/
structure Accounts (events : List Event) (refs : List Ident) (decls : List Decl) : Prop where
  /-- Only names that the tree refers to are used. -/
  uses : ∀ id decl, .use id decl ∈ events → id ∈ refs
  /-- Only variables are introduced, and only by names that the tree refers to. -/
  implicits : ∀ id kind, .declare id kind true ∈ events → id ∈ refs ∧ kind = .var
  /-- Declarations are entered in the order of the blocks. -/
  decls : events.filterMap Event.decl? = decls

namespace Accounts

variable {events events' : List Event} {refs refs' : List Ident} {decls decls' : List Decl}

theorem nil (refs : List Ident) : Accounts [] refs [] := ⟨by simp, by simp, rfl⟩

theorem append (h : Accounts events refs decls) (h' : Accounts events' refs' decls') :
    Accounts (events ++ events') (refs ++ refs') (decls ++ decls') := by
  refine ⟨?_, ?_, ?_⟩
  · intro id decl hmem
    rcases List.mem_append.mp hmem with hmem | hmem
    · exact List.mem_append_left _ (h.uses id decl hmem)
    · exact List.mem_append_right _ (h'.uses id decl hmem)
  · intro id kind hmem
    rcases List.mem_append.mp hmem with hmem | hmem
    · exact ⟨List.mem_append_left _ (h.implicits id kind hmem).1, (h.implicits id kind hmem).2⟩
    · exact ⟨List.mem_append_right _ (h'.implicits id kind hmem).1, (h'.implicits id kind hmem).2⟩
  · rw [List.filterMap_append, h.decls, h'.decls]

theorem mono (h : Accounts events refs decls) (hsub : refs ⊆ refs') :
    Accounts events refs' decls :=
  ⟨fun id decl hmem => hsub (h.uses id decl hmem),
    fun id kind hmem => ⟨hsub (h.implicits id kind hmem).1, (h.implicits id kind hmem).2⟩, h.decls⟩

theorem use (id : Ident) (decl : Nat) : Accounts [.use id decl] [id] [] := by
  refine ⟨?_, by simp, rfl⟩
  intro id' decl' hmem
  obtain ⟨rfl, -⟩ := by simpa using hmem
  exact List.mem_singleton_self _

theorem fix (decl : Nat) (type : ValueType) : Accounts [.fix decl type] [] [] :=
  ⟨by simp, by simp, rfl⟩

end Accounts

namespace Analysis

/-! ### Steps that make changes

`Traces` is about steps that succeed.  It keeps `Sound` as well, since a step is only
understood from a state where numbers lead to symbols.  In sequence, references and
declarations are put one behind the other (`Traces.bind`).
-/

/--
A finished step made only changes that these references and declarations account for, and
left scopes and symbols in order.
-/
def Traces {α : Type} (x : Analyzing α) (refs : List Ident) (decls : List Decl) : Prop :=
  ∀ ⦃a v b⦄, a.Sound → x a = .ok v b → b.Sound ∧
    ∃ events, b.resolutions = a.resolutions.replay events ∧ Accounts events refs decls

namespace Traces

variable {α β : Type} {x : Analyzing α} {refs refs' : List Ident} {decls decls' : List Decl}

theorem bind {f : α → Analyzing β} (hx : Traces x refs decls)
    (hf : ∀ v, Traces (f v) refs' decls') : Traces (x >>= f) (refs ++ refs') (decls ++ decls') := by
  intro a v b ha h
  obtain ⟨w, m, hxm, hfm⟩ := bind_eq_ok.mp h
  obtain ⟨hmsound, events, hm, hacc⟩ := hx ha hxm
  obtain ⟨hbsound, events', hb, hacc'⟩ := hf w hmsound hfm
  exact ⟨hbsound, events ++ events', by rw [Resolutions.replay_append, ← hm, hb],
    hacc.append hacc'⟩

theorem mono (hx : Traces x refs decls) (hsub : refs ⊆ refs') : Traces x refs' decls := by
  intro a v b ha h
  obtain ⟨hb, events, hevents, hacc⟩ := hx ha h
  exact ⟨hb, events, hevents, hacc.mono hsub⟩

/-- A step that changes nothing. -/
theorem of_same (hsame : ∀ ⦃a v b⦄, x a = .ok v b → b = a) : Traces x [] [] := by
  intro a v b ha h
  obtain rfl := hsame h
  exact ⟨ha, [], rfl, .nil []⟩

theorem pure (v : α) : Traces (pure v) [] [] :=
  of_same fun _ _ _ h => (pure_eq_ok.mp h).2.symm

theorem throw (e : SemanticError) : Traces (throw e : Analyzing α) [] [] :=
  of_same fun _ _ _ h => (throw_eq_ok.mp h).elim

theorem sound {a b : Analysis} {v : α} (hx : Traces x refs decls) (ha : a.Sound)
    (h : x a = .ok v b) : b.Sound := (hx ha h).1

/-- The last step of a sequence may be left without a trace. -/
theorem bind_silent {f : α → Analyzing β} (hx : Traces x refs decls)
    (hf : ∀ v, Traces (f v) [] []) : Traces (x >>= f) refs decls := by
  simpa using hx.bind hf

end Traces

/-! ### Names and expressions

Reading a name is a use and then perhaps a type (`meet_traces`).  Operators change nothing.
-/

private theorem wrongType_traces {α : Type} (span : Span) (message : String) :
    Traces (wrongType span message : Analyzing α) [] [] := .throw _

private theorem expectType_traces (expected found : ValueType) (span : Span) (what : String) :
    Traces (expectType expected found span what) [] [] :=
  .of_same fun _ _ _ h => (expectType_eq_ok.mp h).2

/-- A name that was met (`Resolutions.meet`) is a `use`, and then a type may be fixed. -/
theorem meet_traces {a : Analysis} (ha : a.Sound) (id : Ident) (n : Nat) (type : ValueType) :
    ({ a with resolutions := a.resolutions.meet id n type } : Analysis).Sound ∧
      ∃ events, a.resolutions.meet id n type = a.resolutions.replay events ∧
        Accounts events [id] [] :=
  ⟨ha.meet id n type, [.use id n] ++ [.fix n type], rfl, (Accounts.use id n).append (.fix n type)⟩

private theorem lookup_traces (id : Ident) : Traces (lookup id) [id] [] := by
  intro a n b ha h
  obtain ⟨-, rfl⟩ := lookup_eq_ok.mp h
  exact ⟨ha.use id n, [.use id n], rfl, .use id n⟩

theorem ReadsName.traces {id : Ident} {x : Analyzing ValueType} (hx : ReadsName id x) :
    Traces x [id] [] := by
  intro a type b ha h
  obtain ⟨n, -, -, -, rfl⟩ := hx.eq_ok.mp h
  exact meet_traces ha id n .integer

private theorem binaryResult_traces (op : Operator) (left right : ValueType) (span : Span) :
    Traces (binaryResult op left right span) [] [] := by
  unfold binaryResult
  split
  · exact .pure _
  · exact wrongType_traces _ _

private theorem unaryResult_traces (op : Operator) (operand : ValueType) (span : Span) :
    Traces (unaryResult op operand span) [] [] := by
  unfold unaryResult
  split
  · exact .pure _
  · exact wrongType_traces _ _

theorem exprType_traces : ∀ e : Expr, Traces (exprType e) e.refs []
  | .integer .. | .register .. | .boolean .. => .pure _
  | .ident id => (identType_reads id).traces
  | .unary op operand span =>
      (exprType_traces operand).bind_silent fun type => unaryResult_traces op type span
  | .binary op left right span =>
      (exprType_traces left).bind fun l =>
        (exprType_traces right).bind_silent fun r => binaryResult_traces op l r span

theorem checkExpr_traces (expected : ValueType) (e : Expr) (what : String) :
    Traces (checkExpr expected e what) e.refs [] :=
  (exprType_traces e).bind_silent fun found => expectType_traces expected found e.span what

/-! ### Assignments

The target of a plain assignment is looked at behind its value, and the references of the
tree have it in front.  For `Accounts` this makes no difference, since it only asks whether
a name is among them.
-/

theorem target_eq_ok {e : Expr} {t : Target} {a b : Analysis} (h : target e a = .ok t b) :
    e.target? = some t ∧ a = b := by
  unfold target at h
  cases ht : e.target? with
  | some t' =>
      rw [ht] at h
      obtain ⟨rfl, rfl⟩ := pure_eq_ok.mp h
      exact ⟨rfl, rfl⟩
  | none =>
      rw [ht] at h
      simp at h

private theorem resolutions_of_declare {id : Ident} {kind : DeclKind} {implicit : Bool}
    {a b : Analysis} {n : Nat} (h : declare id kind implicit a = .ok n b) :
    b.resolutions = (Event.declare id kind implicit).apply a.resolutions := by
  obtain ⟨rfl, scopes, -, rfl⟩ := declare_eq_ok.mp h
  rfl

/-- The changes of a plain assignment to a name: first `declare`, if the name is new. -/
theorem assignIdent_traces (id : Ident) (type : ValueType) (span : Span) :
    Traces (assignIdent id type span) [id] [] := by
  intro a v b ha h
  rcases assignIdent_eq_ok h with ⟨n, m, -, hdeclare, rfl⟩ | ⟨n, -, -, rfl⟩
  · obtain ⟨hsound, events, hevents, hacc⟩ := meet_traces (ha.declare hdeclare) id n type
    have hnew : Accounts [.declare id .var true] [id] [] := ⟨by simp, by simp, rfl⟩
    refine ⟨hsound, .declare id .var true :: events, ?_, (hnew.append hacc).mono (by simp)⟩
    rw [Resolutions.replay_cons, ← resolutions_of_declare hdeclare]
    exact hevents
  · exact meet_traces ha id n type

theorem assign_traces (left value : Expr) :
    Traces (assign left value) (left.refs ++ value.refs) [] := by
  intro a v b ha h
  obtain ⟨t, m, htarget, h⟩ := bind_eq_ok.mp h
  obtain ⟨ht, rfl⟩ := target_eq_ok htarget
  -- The value is looked at before the target.
  refine Traces.mono ?_ List.perm_append_comm.subset ha h
  refine (exprType_traces value).bind fun type => ?_
  cases t with
  | register r => exact (expectType_traces _ _ _ _).mono (List.nil_subset _)
  | ident id =>
      obtain rfl : left = .ident id := by
        cases left <;> simp_all [Expr.target?]
      exact assignIdent_traces id type value.span

theorem compoundTargetType_traces {e : Expr} {t : Target} (ht : e.target? = some t) :
    Traces (compoundTargetType t) e.refs [] := by
  cases t with
  | register r => exact (Traces.pure _).mono (List.nil_subset _)
  | ident id =>
      obtain rfl : e = .ident id := by
        cases e <;> simp_all [Expr.target?]
      exact (compoundTargetType_reads id).traces

theorem compound_traces (op : Operator) (left value : Expr) (span : Span) :
    Traces (compound op left value span) (left.refs ++ value.refs) [] := by
  intro a v b ha h
  obtain ⟨t, m, htarget, h⟩ := bind_eq_ok.mp h
  obtain ⟨ht, rfl⟩ := target_eq_ok htarget
  refine ((compoundTargetType_traces ht).bind fun τ =>
    (exprType_traces value).bind_silent fun σ => ?_) ha h
  exact (binaryResult_traces op τ σ span).bind_silent fun _ => expectType_traces _ _ _ _

/-! ### Intrinsics and calls

Arguments are paired off with what the intrinsic takes.  None of them is lost by that, since
their number was checked before.
-/

private theorem isRegister_traces : ∀ e : Expr, Traces (isRegister e) e.refs []
  | .register .. | .integer .. | .boolean .. => .pure _
  | .unary .. | .binary .. => (Traces.pure _).mono (List.nil_subset _)
  | .ident id => (lookup_traces id).bind_silent fun _ =>
      .of_same fun _ _ _ h => by
        rw [symbol_bind, pure_eq_ok] at h
        exact h.2.symm

theorem checkOperand_traces (i : Intrinsic) (index : Nat) (arg : Expr) (operand : Operand) :
    Traces (checkOperand i index arg operand) arg.refs [] := by
  cases operand with
  | register =>
      refine (isRegister_traces arg).bind_silent fun found => ?_
      cases found with
      | true => exact .pure _
      | false => exact wrongType_traces _ _
  | integer => exact checkExpr_traces _ _ _
  | any => exact (exprType_traces arg).bind_silent fun _ => .pure _

theorem checkOperands_traces (i : Intrinsic) :
    ∀ (index : Nat) (args : List (Expr × Operand)),
      Traces (checkOperands i index args) (exprsRefs (args.map (·.1))) []
  | _, [] => .pure _
  | index, (arg, operand) :: rest =>
      (checkOperand_traces i index arg operand).bind fun _ =>
        checkOperands_traces i (index + 1) rest

theorem intrinsic_traces (i : Intrinsic) (args : List Expr) (span : Span) :
    Traces (intrinsic i args span) (exprsRefs args) [] := by
  unfold intrinsic
  split
  · refine (checkOperands_traces i 1 (args.zip i.operands)).mono ?_
    intro id hid
    obtain ⟨e, he, hid⟩ := List.mem_flatMap.mp hid
    obtain ⟨⟨arg, operand⟩, hmem, rfl⟩ := List.mem_map.mp he
    exact List.mem_flatMap.mpr ⟨arg, (List.of_mem_zip hmem).1, hid⟩
  · exact (Traces.throw _).mono (List.nil_subset _)

theorem call_traces (name : Ident) (args : List Expr) (span : Span) :
    Traces (call name args span) (name :: exprsRefs args) [] := by
  intro a v b ha h
  obtain ⟨n, -, -, -, rfl⟩ := call_eq_ok h
  exact ⟨ha.use name n, [.use name n], rfl, (Accounts.use name n).mono (by simp)⟩

/-! ### Statements

Blocks open and close scopes, which are no part of the resolutions, so `inScope` adds no
changes of its own.  Trees are gone through by the rules of `Claim` (`tracing_rules`).
-/

theorem declareAll_traces : ∀ decls : List Decl, Traces (declareAll decls) [] decls
  | [] => .pure _
  | d :: rest => by
      have hone : Traces (declare d.name d.kind false) [] [d] := by
        intro a n b ha h
        exact ⟨ha.declare h, [.declare d.name d.kind false], resolutions_of_declare h,
          ⟨by simp, by simp, rfl⟩⟩
      exact hone.bind fun _ => declareAll_traces rest

/-- `inScope` leaves no mark on the resolutions. -/
theorem inScope_traces {body : Analyzing Unit} {refs : List Ident} {decls : List Decl}
    (hbody : Traces body refs decls) : Traces (inScope body) refs decls := by
  intro a v b ha h
  obtain ⟨c, hc, rfl⟩ := inScope_eq_ok.mp h
  obtain ⟨hsound, hevents⟩ := hbody ha.push hc
  exact ⟨hsound.pop, hevents⟩

/-- Each part of a program accounts for the changes that its analysis makes. -/
abbrev tracing : Claim where
  stmt s x := Traces x s.refs s.declared
  block b x := Traces x b.refs b.declared
  stmts body x := Traces x (stmtsRefs body) (stmtsDeclared body)

private theorem tracing_rules : tracing.Rules where
  assign left value _ := assign_traces left value
  compound op left value span := compound_traces op left value span
  ifThen cond _ _ hbody := (checkExpr_traces .boolean cond _).bind fun _ => hbody
  ifElse cond _ _ _ _ hbody helse :=
    (checkExpr_traces .boolean cond _).bind fun _ => hbody.bind fun _ => helse
  whileLoop cond _ _ hbody := (checkExpr_traces .boolean cond _).bind fun _ => hbody
  func _ _ _ hbody := hbody
  ret _ := .pure ()
  retValue value _ := checkExpr_traces .integer value _
  intrinsic i args span := intrinsic_traces i args.args span
  call name args span := call_traces name args.args span
  block decls _ _ hbody := inScope_traces ((declareAll_traces decls).bind fun _ => hbody)
  nil := .pure ()
  cons _ _ hs hrest := hs.bind fun _ => hrest

/-- **Analysing a block only makes changes that the block `Accounts` for.** -/
theorem block_traces (b : Block) : Traces (block b) b.refs b.declared := tracing_rules.blocks b

end Analysis

/-- The resolutions of a program come from the changes that its tree accounts for. -/
theorem Program.analyze_traces {p : Program} {r : Resolutions} (h : p.analyze = .ok r) :
    ∃ events, r = Resolutions.empty.replay events ∧
      Accounts events p.block.refs p.block.declared := by
  simp only [Program.analyze] at h
  split at h
  · rename_i a hblock
    simp only [Except.ok.injEq] at h
    subst h
    exact (Analysis.block_traces p.block Analysis.sound_start hblock).2
  · simp at h

/-! ### What changes keep

A symbol whose type is known, or that has none to know, is never changed again, and
the record of a use only changes when the same place is recorded again.
-/

namespace Resolutions

variable {r : Resolutions}

private theorem getElem?_apply {i : Nat} {s : Symbol} (e : Event) (h : r.symbols[i]? = some s)
    (hs : s.Settled) : (e.apply r).symbols[i]? = some s := by
  cases e with
  | use id decl => exact h
  | declare id kind implicit => exact getElem?_addSymbol h
  | fix decl type =>
      show (r.fixType decl type).symbols[i]? = some s
      rw [getElem?_fixType, h, Option.map_some, Symbol.fixType_of_settled hs, ite_self]

/-- A `Settled` symbol stays as it is in `replay`. -/
theorem getElem?_replay {i : Nat} {s : Symbol} (events : List Event) (hs : s.Settled) :
    ∀ {r : Resolutions}, r.symbols[i]? = some s → (r.replay events).symbols[i]? = some s := by
  induction events with
  | nil => intro r h; exact h
  | cons e events ih => intro r h; exact ih (getElem?_apply e h hs)

/-- What is recorded at a place stays, as long as no use is recorded there. -/
theorem references_replay {span : Span} (events : List Event) :
    ∀ r : Resolutions, (∀ id decl, .use id decl ∈ events → id.span ≠ span) →
      (r.replay events).references[span]? = r.references[span]? := by
  induction events with
  | nil => intro r _; rfl
  | cons e events ih =>
      intro r h
      rw [replay_cons, ih _ fun id decl hmem => h id decl (List.mem_cons_of_mem _ hmem)]
      cases e with
      | use id decl =>
          have hne : id.span ≠ span := h id decl List.mem_cons_self
          show (r.references.insert id.span decl)[span]? = _
          rw [Std.TreeMap.getElem?_insert, if_neg (by simpa using hne)]
      | declare id kind implicit => cases kind <;> rfl
      | fix decl type => rfl

end Resolutions

/-- No name of the one list stands where a name of the other does. -/
def SpansApart (ids ids' : List Ident) : Prop := ∀ id ∈ ids, ∀ id' ∈ ids', id.span ≠ id'.span

theorem SpansApart.symm {ids ids' : List Ident} (h : SpansApart ids ids') : SpansApart ids' ids :=
  fun id hid id' hid' => (h id' hid' id hid).symm

/-- What the names stand for, where it is settled, is the same in both. -/
def Resolutions.Keeps (r r' : Resolutions) (ids : List Ident) : Prop :=
  ∀ id ∈ ids, ∀ s : Symbol, s.Settled → r.resolveSymbol? id = some s →
    r'.resolveSymbol? id = some s

/-- Changes made elsewhere keep what a name stands for. -/
theorem Analysis.Traces.keeps {α : Type} {x : Analyzing α} {refs ids : List Ident}
    {decls : List Decl} {a b : Analysis} {v : α} (hx : Traces x refs decls) (ha : a.Sound)
    (h : x a = .ok v b) (hapart : SpansApart ids refs) :
    a.resolutions.Keeps b.resolutions ids := by
  obtain ⟨-, events, hb, hacc⟩ := hx ha h
  intro id hid s hs hres
  simp only [Resolutions.resolveSymbol?, Resolutions.resolve?, Option.bind_eq_some_iff] at hres ⊢
  obtain ⟨i, href, hsym⟩ := hres
  rw [hb]
  refine ⟨i, ?_, Resolutions.getElem?_replay events hs hsym⟩
  rw [Resolutions.references_replay events _ fun id' decl hmem =>
    (hapart id hid id' (hacc.uses id' decl hmem)).symm]
  exact href

end StackCode
