/-
The states that analysis goes through.

Analysis is a function from the state before a part of the program to the state behind it.
Between the two there are other states: after every scope that is opened or closed, every
name that is declared or used, and every type that is written.  Here they are listed
(`Program.history`), in their order, and up to the end also if there is an error.

From each state of the list to the next there is one `Change`, and the last state is the one
that analysis leaves behind (`Program.visits_history`).  So whatever every change keeps holds
all the way (`Visits.forall_mem`, `Visits.pairwise`).  A type is written by `setType`, which
does not look at what was there before.  That `Change.fix` is about variables without a type
only is what the walk has asked before it writes.
-/
import StackCode.Proofs.Mentions
import StackCode.Proofs.Steps
import StackCode.Proofs.Traversal

namespace StackCode

open Sequencing

namespace Analysis

/-! ### Lists of states

The lists are computed by the functions of the analysis themselves, run from the states in
between, so they do not repeat what these do.  `statesAfter` stops the list where a step
fails.  A step that may make two changes, such as reading a name for the first time, has
both states in the list; where the second change is not made the state is there twice.
-/

/-- The state that a step leaves behind, also if it fails. -/
def outcome {α : Type} (x : Analyzing α) (a : Analysis) : Analysis :=
  match x a with
  | .ok _ b => b
  | .error _ b => b

/-- The states of what comes after a step, if the step does not fail. -/
def statesAfter {α : Type} (x : Analyzing α) (next : α → Analysis → List Analysis)
    (a : Analysis) : List Analysis :=
  match x a with
  | .ok v b => next v b
  | .error _ _ => []

/-- The states of an expression: a name is looked up, and then its type may be fixed. -/
def exprStates : Expr → Analysis → List Analysis
  | .integer .., _ | .boolean .., _ | .register .., _ => []
  | .ident id, a => [outcome (lookup id) a, outcome (identType id) a]
  | .unary _ operand _, a => exprStates operand a
  | .binary _ left right _, a =>
    exprStates left a ++ statesAfter (exprType left) (fun _ => exprStates right) a

/-- The states of an assignment to a name, which is declared first if it is new. -/
def assignIdentStates (id : Ident) (type : ValueType) (valueSpan : Span) (a : Analysis) :
    List Analysis :=
  match a.scopes.lookup? id.name with
  | none =>
    outcome (declare id .var true) a ::
      statesAfter (declare id .var true) (fun decl b =>
        [outcome (update (·.bindReference id.span decl)) b,
          outcome (assignIdent id type valueSpan) a]) a
  | some decl =>
    [outcome (update (·.bindReference id.span decl)) a, outcome (assignIdent id type valueSpan) a]

def assignStates (left value : Expr) (a : Analysis) : List Analysis :=
  match left.target? with
  | none => []
  | some (.register _) => exprStates value a
  | some (.ident id) =>
    exprStates value a ++
      statesAfter (exprType value) (fun type => assignIdentStates id type value.span) a

def compoundStates (left value : Expr) (a : Analysis) : List Analysis :=
  match left.target? with
  | none => []
  | some (.register _) => exprStates value a
  | some (.ident id) =>
    [outcome (lookup id) a, outcome (compoundTargetType (.ident id)) a] ++
      statesAfter (compoundTargetType (.ident id)) (fun _ => exprStates value) a

def operandStates (arg : Expr) : Operand → Analysis → List Analysis
  | .register, a =>
    match arg with
    | .ident id => [outcome (lookup id) a]
    | .integer .. | .boolean .. | .register .. | .unary .. | .binary .. => []
  | .integer, a | .any, a => exprStates arg a

def operandsStates (i : Intrinsic) : Nat → List (Expr × Operand) → Analysis → List Analysis
  | _, [], _ => []
  | index, (arg, operand) :: rest, a =>
    operandStates arg operand a ++
      statesAfter (checkOperand i index arg operand) (fun _ => operandsStates i (index + 1) rest) a

def declareStates : List Decl → Analysis → List Analysis
  | [], _ => []
  | d :: rest, a =>
    outcome (declare d.name d.kind false) a ::
      statesAfter (declare d.name d.kind false) (fun _ => declareStates rest) a

mutual

def stmtStates : Stmt → Analysis → List Analysis
  | .assign left value _, a => assignStates left value a
  | .compound _ left value _, a => compoundStates left value a
  | .ifThen cond body _, a | .whileLoop cond body _, a =>
    exprStates cond a ++
      statesAfter (checkExpr .boolean cond "condition") (fun _ => blockStates body) a
  | .ifElse cond body _ elseBody _, a =>
    exprStates cond a ++
      statesAfter (checkExpr .boolean cond "condition") (fun _ b =>
        blockStates body b ++ statesAfter (block body) (fun _ => blockStates elseBody) b) a
  | .func _ body _, a => blockStates body a
  | .ret none _, _ => []
  | .ret (some value) _, a => exprStates value a
  | .intrinsic i args _, a =>
    if args.args.length = i.arity then operandsStates i 1 (args.args.zip i.operands) a else []
  | .call name _ _, a => [outcome (lookup name) a]

/-- The states of a block: a scope is opened, and closed behind declarations and statements. -/
def blockStates : Block → Analysis → List Analysis
  | ⟨decls, body, span⟩, a =>
    { a with scopes := a.scopes.push } ::
      (declareStates decls { a with scopes := a.scopes.push } ++
        (statesAfter (declareAll decls) (fun _ => stmtsStates body)
          { a with scopes := a.scopes.push } ++ [outcome (block ⟨decls, body, span⟩) a]))

def stmtsStates : List Stmt → Analysis → List Analysis
  | [], _ => []
  | s :: rest, a => stmtStates s a ++ statesAfter (stmt s) (fun _ => stmtsStates rest) a

end

end Analysis

/-- The states that the analysis of a program goes through, after the first one. -/
def Program.history (p : Program) : List Analysis := Analysis.blockStates p.block .start

namespace Analysis

/-! ### Changes

`Change` has one constructor for each thing that is done to an `Analysis`, with what is
known when it is done.  The names that are entered or used are among those given, which is
how a later file can say that only names of the program are on record.
-/

/-- What can happen between two states next to each other; only the given names are recorded. -/
inductive Change (names : List Ident) : Analysis → Analysis → Prop where
  /-- Nothing, as when a step fails. -/
  | none (a : Analysis) : Change names a a
  | push (a : Analysis) : Change names a { a with scopes := a.scopes.push }
  | pop (a : Analysis) : Change names a { a with scopes := a.scopes.pop }
  /-- A name is declared: its scope, its symbol and its declaration are entered together. -/
  | declare {id : Ident} {kind : DeclKind} {implicit : Bool} {decl : Nat} {a b : Analysis}
      (hid : id ∈ names) (h : Analysis.declare id kind implicit a = .ok decl b) : Change names a b
  /-- A name is recorded as a use of what it stands for. -/
  | use {id : Ident} {decl : Nat} {a : Analysis} (hid : id ∈ names)
      (h : a.scopes.lookup? id.name = some decl) :
      Change names a { a with resolutions := a.resolutions.bindReference id.span decl }
  /-- A type is written to a variable that has none. -/
  | fix {decl : Nat} {a : Analysis} (hkind : (a.resolutions.symbol decl).kind = .var)
      (hnone : (a.resolutions.symbol decl).type? = none) (type : ValueType) :
      Change names a { a with resolutions := a.resolutions.setType decl type }

/-- From one state through the states of a list to the last of them, one change at a time. -/
inductive Visits (names : List Ident) : Analysis → List Analysis → Analysis → Prop where
  | done (a : Analysis) : Visits names a [] a
  | step {a b c : Analysis} {states : List Analysis} (h : Change names a b)
      (hrest : Visits names b states c) : Visits names a (b :: states) c

namespace Visits

variable {names : List Ident} {a b c : Analysis} {states states' : List Analysis}

theorem append (h : Visits names a states b) (h' : Visits names b states' c) :
    Visits names a (states ++ states') c := by
  induction h with
  | done a => exact h'
  | step h _ ih => exact .step h (ih h')

private theorem one (h : Change names a b) : Visits names a [b] b := .step h (.done b)

/-- What every change keeps holds in all states. -/
theorem forall_mem {P : Analysis → Prop} (hP : ∀ {a b}, Change names a b → P a → P b)
    (h : Visits names a states b) (ha : P a) : ∀ s ∈ a :: states, P s := by
  induction h with
  | done a => simpa using ha
  | step h _ ih => exact List.forall_mem_cons.mpr ⟨ha, ih (hP h ha)⟩

/-- What holds from one state to the next holds from every state to all later ones. -/
theorem pairwise {R : Analysis → Analysis → Prop} (hR : ∀ {a b}, Change names a b → R a b)
    (htrans : ∀ {a b c}, R a b → R b c → R a c) (h : Visits names a states b) :
    (a :: states).Pairwise R := by
  induction h with
  | done a => exact List.pairwise_singleton R a
  | @step a b c states h _ ih =>
      refine .cons (fun s hs => ?_) ih
      rcases List.mem_cons.mp hs with rfl | hs
      · exact hR h
      · exact htrans (hR h) ((List.pairwise_cons.mp ih).1 s hs)

end Visits

/-! ### Steps follow their states

`Follows` ties a step to its list for every state that it may start in.  Most steps of the
analysis only check something: they are `Silent`, and do not show in the list.  Those that
make one change are `Changes`.  With a rule for `bind` in each combination the lemmas below
follow the definitions.
-/

/-- Wherever the step starts, it goes through these states, one change at a time. -/
def Follows {α : Type} (names : List Ident) (x : Analyzing α)
    (states : Analysis → List Analysis) : Prop :=
  ∀ a, Visits names a (states a) (outcome x a)

/-- The step leaves the state as it is, whether it fails or not. -/
def Silent {α : Type} (x : Analyzing α) : Prop := ∀ a, outcome x a = a

/-- The step makes one change at most. -/
def Changes {α : Type} (names : List Ident) (x : Analyzing α) : Prop :=
  ∀ a, Change names a (outcome x a)

section Rules

variable {α β : Type} {names : List Ident} {x : Analyzing α} {f : α → Analyzing β}
  {states : Analysis → List Analysis} {a b : Analysis}

theorem outcome_of_ok {v : α} (h : x a = .ok v b) : outcome x a = b := by
  simp only [outcome, h]

private theorem outcome_of_error {e : SemanticError} (h : x a = .error e b) : outcome x a = b := by
  simp only [outcome, h]

private theorem outcome_congr {y : Analyzing α} (h : x a = y a) : outcome x a = outcome y a := by
  simp only [outcome, h]

private theorem outcome_bind_of_ok {v : α} (h : x a = .ok v b) :
    outcome (x >>= f) a = outcome (f v) b := by
  simp only [outcome, bind_of_ok h]

private theorem outcome_bind_of_error {e : SemanticError} (h : x a = .error e b) :
    outcome (x >>= f) a = b :=
  outcome_of_error (bind_eq_error.mpr (.inl h))

theorem Follows.bind {next : α → Analysis → List Analysis} (hx : Follows names x states)
    (hf : ∀ v, Follows names (f v) (next v)) :
    Follows names (x >>= f) fun a => states a ++ statesAfter x next a := by
  intro a
  have hfirst := hx a
  cases hxa : x a with
  | ok v b =>
      rw [outcome_of_ok hxa] at hfirst
      rw [outcome_bind_of_ok hxa]
      simp only [statesAfter, hxa]
      exact hfirst.append (hf v b)
  | error e b =>
      rw [outcome_of_error hxa] at hfirst
      rw [outcome_bind_of_error hxa]
      simp only [statesAfter, hxa, List.append_nil]
      exact hfirst

private theorem Silent.follows (h : Silent x) : Follows names x fun _ => [] := by
  intro a
  rw [h a]
  exact .done a

theorem Follows.bind_silent (hx : Follows names x states) (hf : ∀ v, Silent (f v)) :
    Follows names (x >>= f) states := by
  intro a
  have hboth := hx.bind (fun v => (hf v).follows) a
  cases hxa : x a <;> simpa [statesAfter, hxa] using hboth

theorem Silent.bind (hx : Silent x) (hf : ∀ v, Silent (f v)) : Silent (x >>= f) := by
  intro a
  cases hxa : x a with
  | ok v b =>
      rw [outcome_bind_of_ok hxa, hf v b, ← outcome_of_ok hxa, hx a]
  | error e b => rw [outcome_bind_of_error hxa, ← outcome_of_error hxa, hx a]

private theorem Changes.follows (h : Changes names x) : Follows names x fun a => [outcome x a] :=
  fun a => .one (h a)

private theorem pure_silent (v : α) : Silent (pure v) := fun _ => rfl

private theorem throw_silent (e : SemanticError) : Silent (throw e : Analyzing α) := fun _ => rfl

end Rules

/-! ### Expressions

`Known` says that the names of an expression are among the given ones, and goes to its
parts.  The heart of it is `meet_change`: a type is written to a variable that has none and
else nothing is, which is `Change.fix` or `Change.none`.
-/

/-- All of the mentions are of the given names. -/
def Known (names : List Ident) (ms : List Mention) : Prop := ∀ m ∈ ms, m.id ∈ names

section Known

variable {names : List Ident}

@[simp] theorem known_cons {m : Mention} {ms : List Mention} :
    Known names (m :: ms) ↔ m.id ∈ names ∧ Known names ms := List.forall_mem_cons

@[simp] theorem known_append {as bs : List Mention} :
    Known names (as ++ bs) ↔ Known names as ∧ Known names bs := List.forall_mem_append

private theorem Known.of_mem {args : List Expr} (h : Known names (exprsMentions args)) :
    ∀ e ∈ args, Known names e.mentions :=
  fun e he m hm => h m (List.mem_flatMap.mpr ⟨e, he, hm⟩)

theorem Known.ident {id : Ident} (h : Known names (Expr.ident id).mentions) : id ∈ names :=
  h ⟨.refers, id⟩ (by simp [Expr.mentions, Expr.refs])

end Known

variable {names : List Ident}

private theorem lookup_changes {id : Ident} (hid : id ∈ names) : Changes names (lookup id) := by
  intro a
  cases hn : a.scopes.lookup? id.name with
  | none =>
      rw [outcome_of_error (lookup_of_none hn)]
      exact .none a
  | some n =>
      rw [outcome_of_ok (lookup_of_some hn)]
      exact .use hid hn

/-- A symbol that is met is written to if it is a variable without a type, and else stays. -/
theorem meet_change (a : Analysis) (id : Ident) (n : Nat) (type : ValueType) :
    Change names { a with resolutions := a.resolutions.bindReference id.span n }
      { a with resolutions := a.resolutions.meet id n type } := by
  by_cases huntyped : (a.resolutions.symbol n).Untyped
  · have hwrite : a.resolutions.meet id n type =
        (a.resolutions.bindReference id.span n).setType n type :=
      (Resolutions.setType_eq_fixType (r := a.resolutions.bindReference id.span n) huntyped
        type).symm
    rw [hwrite]
    exact .fix (a := { a with resolutions := a.resolutions.bindReference id.span n })
      huntyped.1 huntyped.2 type
  · rw [Resolutions.meet_of_settled huntyped]
    exact .none _

/-- A name that is read is looked up, and then what it stands for is met. -/
theorem ReadsName.follows {id : Ident} {x : Analyzing ValueType} (hx : ReadsName id x)
    (hid : id ∈ names) : Follows names x fun a => [outcome (lookup id) a, outcome x a] := by
  intro a
  refine .step (lookup_changes hid a) (.one ?_)
  cases hn : a.scopes.lookup? id.name with
  | none =>
      rw [outcome_of_error (lookup_of_none hn), outcome_of_error (hx.missing hn)]
      exact .none a
  | some n =>
      rw [outcome_of_ok (lookup_of_some hn)]
      by_cases hkind : (a.resolutions.symbol n).kind = .func
      · obtain ⟨e, -, herror⟩ := hx.func hn hkind
        rw [outcome_of_error herror]
        exact .none _
      · rw [outcome_of_ok (hx.value hn hkind)]
        exact meet_change a id n .integer

private theorem expectType_silent (expected found : ValueType) (span : Span) (what : String) :
    Silent (expectType expected found span what) := by
  unfold expectType
  split
  · exact pure_silent _
  · exact throw_silent _

private theorem binaryResult_silent (op : Operator) (left right : ValueType) (span : Span) :
    Silent (binaryResult op left right span) := by
  unfold binaryResult
  split
  · exact pure_silent _
  · exact throw_silent _

private theorem unaryResult_silent (op : Operator) (operand : ValueType) (span : Span) :
    Silent (unaryResult op operand span) := by
  unfold unaryResult
  split
  · exact pure_silent _
  · exact throw_silent _

/-- An expression goes through the states of its names. -/
theorem exprType_follows {e : Expr} (h : Known names e.mentions) :
    Follows names (exprType e) (exprStates e) := by
  induction e with
  | integer | boolean | register => exact (pure_silent _).follows
  | ident id => exact (identType_reads id).follows h.ident
  | unary op operand span ih =>
      exact (ih h).bind_silent fun _ => unaryResult_silent op _ span
  | binary op left right span ihl ihr =>
      simp only [Expr.mentions, Expr.refs, List.map_append, known_append] at h
      refine (ihl h.1).bind fun _ => ?_
      exact (ihr h.2).bind_silent fun _ => binaryResult_silent op _ _ span

private theorem checkExpr_follows (expected : ValueType) {e : Expr} (h : Known names e.mentions)
    (what : String) : Follows names (checkExpr expected e what) (exprStates e) :=
  (exprType_follows h).bind_silent fun _ => expectType_silent _ _ _ what

/-! ### Assignments

An assignment to a new name makes three changes and one to a name that is there makes two.
The last state of either list is written as the outcome of the whole, so that the list does
not have to say which type was written.
-/

private theorem declare_changes {id : Ident} (hid : id ∈ names) (kind : DeclKind)
    (implicit : Bool) :
    Changes names (declare id kind implicit) := by
  intro a
  cases hdeclare : declare id kind implicit a with
  | ok decl b =>
      rw [outcome_of_ok hdeclare]
      exact .declare hid hdeclare
  | error e b =>
      obtain ⟨rfl, -⟩ := declare_eq_error hdeclare
      rw [outcome_of_error hdeclare]
      exact .none b

private theorem assignIdent_follows {id : Ident} (hid : id ∈ names) (type : ValueType)
    (span : Span) :
    Follows names (assignIdent id type span) (assignIdentStates id type span) := by
  intro a
  unfold assignIdentStates
  cases hn : a.scopes.lookup? id.name with
  | none =>
      obtain ⟨m, hdeclare⟩ := declare_of_none hn .var true
      have hfound : m.scopes.lookup? id.name = some a.resolutions.symbols.size := by
        obtain ⟨-, scopes, hscopes, rfl⟩ := declare_eq_ok.mp hdeclare
        exact Scopes.lookup?_of_declare hscopes
      have hfirst := declare_changes hid .var true a
      rw [outcome_of_ok hdeclare] at hfirst ⊢
      rw [outcome_of_ok (assignIdent_of_none hn hdeclare)]
      simp only [statesAfter, hdeclare]
      exact .step hfirst (.step (.use hid hfound) (.one (meet_change m id _ type)))
  | some n =>
      refine .step (.use hid hn) (.one ?_)
      -- The use is recorded whatever the symbol is; only a variable without a type changes.
      by_cases htakes : (a.resolutions.symbol n).Takes type
      · rw [outcome_of_ok (assignIdent_of_takes hn htakes)]
        exact meet_change a id n type
      · obtain ⟨e, -, herror⟩ := assignIdent_of_not_takes hn htakes span
        rw [outcome_of_error herror]
        exact .none _

/-- A target is a name of the expression that it is. -/
theorem known_target {e : Expr} {own : List Decl} {id : Ident}
    (h : Known names (e.targetMentions own)) (ht : e.target? = some (.ident id)) : id ∈ names := by
  cases e with
  | ident id' =>
      obtain rfl : id' = id := by simpa [Expr.target?] using ht
      exact h ⟨.assigns own, id'⟩ (List.mem_singleton_self _)
  | integer | boolean | register | unary | binary => simp [Expr.target?] at ht

private theorem assign_follows {left value : Expr} {own : List Decl}
    (hleft : Known names (left.targetMentions own)) (hvalue : Known names value.mentions) :
    Follows names (assign left value) (assignStates left value) := by
  intro a
  unfold assign assignStates target
  cases htarget : left.target? with
  | none => exact (throw_silent _).follows a
  | some t =>
      rw [outcome_bind_of_ok (pure_eq_ok.mpr ⟨rfl, rfl⟩)]
      cases t with
      | register r =>
          exact ((exprType_follows hvalue).bind_silent fun _ => expectType_silent _ _ _ _) a
      | ident id =>
          exact ((exprType_follows hvalue).bind fun type =>
            assignIdent_follows (known_target hleft htarget) type value.span) a

private theorem compound_follows (op : Operator) {left value : Expr} (span : Span)
    (hleft : Known names left.mentions) (hvalue : Known names value.mentions) :
    Follows names (compound op left value span) (compoundStates left value) := by
  have hrest : ∀ τ : ValueType, Follows names (do
      let valueType ← exprType value
      let result ← binaryResult op τ valueType span
      expectType τ result span ("result of '" ++ op.text ++ "='")) (exprStates value) := fun τ =>
    (exprType_follows hvalue).bind_silent fun _ =>
      (binaryResult_silent op _ _ span).bind fun _ => expectType_silent _ _ _ _
  intro a
  unfold compound compoundStates target
  cases htarget : left.target? with
  | none => exact (throw_silent _).follows a
  | some t =>
      rw [outcome_bind_of_ok (pure_eq_ok.mpr ⟨rfl, rfl⟩)]
      cases t with
      | register r => exact hrest .integer a
      | ident id =>
          obtain rfl : left = .ident id := by
            cases left <;> simp_all [Expr.target?]
          exact (((compoundTargetType_reads id).follows hleft.ident).bind hrest) a

/-! ### Intrinsics and calls

These look names up and check them.  A register operand is looked up and has no type to be
fixed, so it has one state and not two.
-/

private theorem checkOperand_follows (i : Intrinsic) (index : Nat) {arg : Expr}
    (h : Known names arg.mentions) (operand : Operand) :
    Follows names (checkOperand i index arg operand) (operandStates arg operand) := by
  cases operand with
  | integer => exact checkExpr_follows _ h _
  | any => exact (exprType_follows h).bind_silent fun _ => pure_silent _
  | register =>
      have hanswer : ∀ found : Bool, Silent (if found = true then (pure () : Analyzing Unit) else
          wrongType arg.span ("'" ++ i.name ++ "' expects a register as argument " ++
            toString index)) := by
        intro found
        split
        · exact pure_silent _
        · exact throw_silent _
      cases arg with
      | ident id =>
          have hlookup : Follows names (isRegister (.ident id)) fun a => [outcome (lookup id) a] :=
            (lookup_changes h.ident).follows.bind_silent fun _ _ => rfl
          exact hlookup.bind_silent hanswer
      | integer | boolean | register | unary | binary =>
          exact ((pure_silent _).bind hanswer).follows

private theorem checkOperands_follows (i : Intrinsic) : ∀ (index : Nat)
    {args : List (Expr × Operand)},
    (∀ a ∈ args, Known names a.1.mentions) →
      Follows names (checkOperands i index args) (operandsStates i index args)
  | _, [], _ => (pure_silent _).follows
  | index, (arg, operand) :: rest, h => by
      obtain ⟨harg, hrest⟩ := List.forall_mem_cons.mp h
      exact (checkOperand_follows i index harg operand).bind fun _ =>
        checkOperands_follows i (index + 1) hrest

private theorem call_follows {name : Ident} (args : List Expr) (span : Span)
    (hname : name ∈ names) :
    Follows names (call name args span) fun a => [outcome (lookup name) a] := by
  refine (lookup_changes hname).follows.bind_silent fun n => ?_
  intro a
  rw [outcome_congr (symbol_bind n _ a)]
  split
  · split
    · rfl
    · rfl
  · rfl

private theorem declareAll_follows : ∀ {decls : List Decl}, (∀ d ∈ decls, d.name ∈ names) →
    Follows names (declareAll decls) (declareStates decls)
  | [], _ => (pure_silent _).follows
  | d :: rest, h => by
      obtain ⟨hd, hrest⟩ := List.forall_mem_cons.mp h
      exact (declare_changes hd d.kind false).follows.bind fun _ => declareAll_follows hrest

/-! ### Statements

Blocks add two states of their own, behind opening the scope and behind closing it, and the
second one is there also after an error.  The walk is the general one, with `following` as
its claim.
-/

/-- A scope is opened and, whatever happens inside, closed. -/
theorem inScope_follows {body : Analyzing Unit} {states : Analysis → List Analysis}
    (h : Follows names body states) :
    Follows names (inScope body) fun a =>
      { a with scopes := a.scopes.push } ::
        (states { a with scopes := a.scopes.push } ++ [outcome (inScope body) a]) := by
  intro a
  refine .step (.push a) ((h { a with scopes := a.scopes.push }).append (.one ?_))
  have hclosed : outcome (inScope body) a =
      { outcome body { a with scopes := a.scopes.push } with
        scopes := (outcome body { a with scopes := a.scopes.push }).scopes.pop } := by
    simp only [outcome, inScope]
    cases body { a with scopes := a.scopes.push } <;> rfl
  rw [hclosed]
  exact .pop _

/-- Each part of a program goes through its states, one change at a time. -/
abbrev following (names : List Ident) : Claim where
  stmt s x := ∀ own, Known names (s.mentions own) → Follows names x (stmtStates s)
  block b x := Known names b.mentions → Follows names x (blockStates b)
  stmts body x := ∀ own, Known names (stmtsMentions own body) → Follows names x (stmtsStates body)

private theorem following_rules : (following names).Rules where
  assign left value span own h := by
    simp only [Stmt.mentions, known_append] at h
    intro a
    rw [stmtStates]
    exact assign_follows h.1 h.2 a
  compound op left value span own h := by
    simp only [Stmt.mentions, known_append] at h
    intro a
    rw [stmtStates]
    exact compound_follows op span h.1 h.2 a
  ifThen cond body span hbody own h := by
    simp only [Stmt.mentions, known_append] at h
    intro a
    rw [stmtStates]
    exact ((checkExpr_follows _ h.1 _).bind fun _ => hbody h.2) a
  ifElse cond body ifSpan elseBody span hbody helse own h := by
    simp only [Stmt.mentions, known_append] at h
    intro a
    rw [stmtStates]
    exact ((checkExpr_follows _ h.1 _).bind fun _ => (hbody h.2.1).bind fun _ => helse h.2.2) a
  whileLoop cond body span hbody own h := by
    simp only [Stmt.mentions, known_append] at h
    intro a
    rw [stmtStates]
    exact ((checkExpr_follows _ h.1 _).bind fun _ => hbody h.2) a
  func name body span hbody own h := by
    simp only [Stmt.mentions, known_cons] at h
    intro a
    rw [stmtStates]
    exact hbody h.2 a
  ret span own _ a := by
    rw [stmtStates]
    exact (pure_silent _).follows a
  retValue value span own h a := by
    rw [Stmt.mentions] at h
    rw [stmtStates]
    exact checkExpr_follows _ h _ a
  intrinsic i args span own h a := by
    rw [Stmt.mentions] at h
    rw [stmtStates, intrinsic]
    split
    · exact checkOperands_follows i 1 (fun x hx => h.of_mem x.1 (List.of_mem_zip hx).1) a
    · exact (throw_silent _).follows a
  call name args span own h a := by
    simp only [Stmt.mentions, known_cons] at h
    rw [stmtStates]
    exact call_follows args.args span h.1 a
  block decls body span hbody h a := by
    simp only [Block.mentions, known_append] at h
    have hdecls : ∀ d ∈ decls, d.name ∈ names := fun d hd =>
      h.1 d.mention (List.mem_map_of_mem hd)
    rw [blockStates, block, ← List.append_assoc]
    exact inScope_follows ((declareAll_follows hdecls).bind fun _ => hbody decls h.2) a
  nil own _ a := by
    rw [stmtsStates]
    exact (pure_silent _).follows a
  cons s rest hs hrest own h a := by
    simp only [stmtsMentions, known_append] at h
    rw [stmtsStates]
    exact ((hs own h.1).bind fun _ => hrest own h.2) a

/-- **Analysing a block goes through its states, one change at a time.** -/
theorem block_follows {b : Block} (h : Known names b.mentions) :
    Follows names (block b) (blockStates b) := following_rules.blocks b h

end Analysis

/-- **The analysis of a program goes through its history, and ends where the history does.** -/
theorem Program.visits_history (p : Program) : Analysis.Visits p.idents .start p.history
    (Analysis.outcome (Analysis.block p.block) .start) := by
  refine Analysis.block_follows (b := p.block) (fun m hm => ?_) .start
  rw [← p.mentions_ids]
  exact List.mem_map_of_mem hm

end StackCode
