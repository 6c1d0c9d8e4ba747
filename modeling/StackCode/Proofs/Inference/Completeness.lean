/-
Type inference finds the one typing there is.

Analysis decides on the type of a variable when it first meets it and never goes back.  If
some types satisfy the rules, no decision can be wrong: the first thing that happens to a
variable is a read, and then it is an integer under any such types, or an assignment, and
then its type is that of the value.  So analysis passes (`Analysis.block_passes`), and the
types are those it recorded (`type?_of_agrees`).

Where a step of the analysis leads, given that it passes, is known from `Walks`.  What is
added here is that it does pass, and that every type it writes is the given one.
-/
import StackCode.Proofs.Inference

namespace StackCode

open Sequencing

/-! ### Agreement

`Agrees` is what carries the argument through a run: a type that is recorded is the
type that was given, and a variable that has none yet may still get it.
-/

/-- Every recorded type is the one that `VarTypes` gives. -/
def Resolutions.Agrees (r : Resolutions) (τ : VarTypes) : Prop :=
  ∀ (n : Nat) (s : Symbol) (σ : ValueType), r.symbols[n]? = some s → s.type? = some σ →
    s.binder.type? τ = some σ

namespace Resolutions.Agrees

variable {r : Resolutions} {τ : VarTypes}

theorem empty : Resolutions.empty.Agrees τ := by
  intro n s σ hs
  simp [Resolutions.empty] at hs

/-- A type that is recorded is the only one that could have been given. -/
theorem type_eq (h : r.Agrees τ) {n : Nat} {s : Symbol} {σ ρ : ValueType}
    (hs : r.symbols[n]? = some s) (htype : s.type? = some ρ) (hσ : s.binder.type? τ = some σ) :
    ρ = σ := Option.some.inj ((h n s ρ hs htype).symm.trans hσ)

/-- A symbol is read (`Symbol.readType`) with the type that was given. -/
theorem readType_eq (h : r.Agrees τ) {n : Nat} {s : Symbol} {σ : ValueType}
    (hs : r.symbols[n]? = some s) (hσ : s.binder.type? τ = some σ)
    (hread : s.type? = none → s.binder.kind = .var → τ s.binder.name = .integer) :
    s.readType = σ := by
  cases hkind : s.kind with
  | func => simp [Binder.type?, Symbol.declKind_of_kind hkind, SymbolKind.declKind] at hσ
  | registerAlias reg =>
      have hsome : some σ = some .integer := by
        rw [← hσ, Binder.type?, Symbol.declKind_of_kind hkind]
        rfl
      simp only [Symbol.readType, hkind, Option.some.inj hsome]
  | var =>
      have hdecl : s.binder.kind = .var := Symbol.declKind_of_kind hkind
      simp only [Symbol.readType, hkind]
      cases htype : s.type? with
      | some ρ => exact h.type_eq hs htype hσ
      | none =>
          simp only [Binder.type?, hdecl, Option.some.injEq] at hσ
          exact (hread htype hdecl).symm.trans hσ

/-- A symbol `Takes` a value of the type that was given. -/
theorem takes (h : r.Agrees τ) {n : Nat} {s : Symbol} {σ : ValueType}
    (hs : r.symbols[n]? = some s) (hσ : s.binder.type? τ = some σ) : s.Takes σ := by
  cases hkind : s.kind with
  | func => simp [Binder.type?, Symbol.declKind_of_kind hkind, SymbolKind.declKind] at hσ
  | registerAlias reg =>
      simp only [Symbol.Takes, hkind]
      simpa [Binder.type?, Symbol.declKind_of_kind hkind, SymbolKind.declKind, eq_comm] using hσ
  | var =>
      simp only [Symbol.Takes, hkind]
      cases htype : s.type? with
      | none => exact .inl rfl
      | some ρ => exact .inr (congrArg some (h.type_eq hs htype hσ))

theorem declare (h : r.Agrees τ) (id : Ident) (kind : DeclKind) (implicit : Bool) :
    ((Event.declare id kind implicit).apply r).Agrees τ := by
  obtain ⟨new, hsymbols, hnew, hfits, htype⟩ := r.addSymbol_binder id kind implicit
  intro n s σ hs hσ
  have hs : (r.symbols.push new)[n]? = some s := hsymbols ▸ hs
  rw [Array.getElem?_push] at hs
  by_cases hn : n = r.symbols.size
  · rw [if_pos hn] at hs
    obtain rfl := Option.some.inj hs
    refine Symbol.type?_eq_of_binder hfits hσ fun hkind => ?_
    rw [hnew] at hkind
    simp [htype hkind] at hσ
  · rw [if_neg hn] at hs
    exact h n s σ hs hσ

theorem meet (h : r.Agrees τ) {id : Ident} {n : Nat} {s : Symbol} {σ : ValueType}
    (hs : r.symbols[n]? = some s) (hσ : s.type? = none → s.binder.kind = .var →
      τ s.binder.name = σ) : (r.meet id n σ).Agrees τ := by
  intro i s' ρ hs' hρ
  rw [Resolutions.getElem?_meet] at hs'
  by_cases hi : n = i
  · subst hi
    rw [if_pos rfl, hs] at hs'
    obtain rfl := Option.some.inj hs'
    rw [Symbol.binder_fixType]
    by_cases huntyped : s.Untyped
    · have hkind : s.binder.kind = .var := Symbol.declKind_of_kind huntyped.1
      rw [Symbol.type?_fixType huntyped.1 huntyped.2] at hρ
      simp [Binder.type?, hkind, hσ huntyped.2 hkind, Option.some.inj hρ]
    · rw [Symbol.fixType_of_settled huntyped] at hρ
      exact h n s ρ hs hρ
  · rw [if_neg hi] at hs'
    exact h i s' ρ hs' hρ

end Resolutions.Agrees

/-- What is given of the visits of a program: they keep the rules, and so do types for them. -/
structure Typable (all : List Visit) (τ : VarTypes) : Prop where
  distinct : DistinctVisits all
  permitted : ∀ v ∈ all, v.Permitted
  firstRead : ∀ (d : Binder) (o : Occurrence), d.kind = .var →
    firstOf (occurrencesOf all) d = some o → o.role.Reads → τ d.name = .integer

private theorem Typable.distinct_append {all done vs rest : List Visit} {τ : VarTypes}
    (ht : Typable all τ) (hall : all = done ++ (vs ++ rest)) : DistinctVisits (done ++ vs) := by
  have hall := hall ▸ ht.distinct
  rw [← List.append_assoc] at hall
  exact hall.left

/-- A variable without a type that is read now is an integer, since it is read first (`firstOf`). -/
theorem Typable.integer_of_read {all done rest : List Visit} {τ : VarTypes} (ht : Typable all τ)
    {o : Occurrence} (hall : all = done ++ .uses o :: rest) {a : Analysis} {site : Site}
    (h : a.Reached site done) {n : Nat} {s : Symbol} (hs : a.resolutions.symbols[n]? = some s)
    (hd : o.binder? = some s.binder) (hreads : o.role.Reads) (hnone : s.type? = none)
    (hkind : s.binder.kind = .var) : τ s.binder.name = .integer := by
  have htyped := h.stands.records.typed hs hkind
  rw [hnone] at htyped
  refine ht.firstRead s.binder o hkind ?_ hreads
  -- It has not been met, so this is its first occurrence.
  have hbefore : firstOf (occurrencesOf done) s.binder = none := by
    cases hfirst : firstOf (occurrencesOf done) s.binder with
    | none => rfl
    | some o' =>
        rw [hfirst] at htyped
        exact htyped.elim
  rw [hall, occurrencesOf_append, occurrencesOf_uses, firstOf, List.find?_append]
  rw [firstOf] at hbefore
  simp [hbefore, hd]

/-- What `Permitted` says of a name that is met now. -/
theorem Typable.visible_of_permitted {all done rest : List Visit} {τ : VarTypes}
    (ht : Typable all τ) {site : Site} {role : Role} {id : Ident} (hrole : role ≠ .target)
    (hall : all = done ++ (.uses ⟨site, role, id⟩ :: rest)) :
    ∃ d, site.visible? id.name = some d ∧ role.Allows d.kind := by
  have hmem : .uses ⟨site, role, id⟩ ∈ all := by
    rw [hall]
    simp
  obtain ⟨d, hd, hallow⟩ := ht.permitted _ hmem
  exact ⟨d, Occurrence.visible?_of_binder? hd hrole, hallow⟩

namespace Analysis

/--
A step on these visits, the next ones of the program, passes with a result, and recorded
types go on agreeing (`Agrees`).
-/
def Passes {α : Type} (all : List Visit) (τ : VarTypes) (x : Analyzing α) (site site' : Site)
    (vs : List Visit) (v : α) : Prop :=
  ∀ ⦃a done rest⦄, all = done ++ (vs ++ rest) → a.Reached site done → a.resolutions.Agrees τ →
    ∃ b, x a = .ok v b ∧ b.Reached site' (done ++ vs) ∧ b.resolutions.Agrees τ

namespace Passes

variable {α β : Type} {all : List Visit} {τ : VarTypes} {x : Analyzing α}
  {site site' site'' : Site} {vs ws : List Visit} {v : α} {w : β}

theorem bind {f : α → Analyzing β} (hx : Passes all τ x site site' vs v)
    (hf : Passes all τ (f v) site' site'' ws w) :
    Passes all τ (x >>= f) site site'' (vs ++ ws) w := by
  intro a done rest hall h hagrees
  rw [List.append_assoc] at hall
  obtain ⟨b, hb, hreached, hagrees⟩ := hx hall h hagrees
  rw [← List.append_assoc] at hall
  obtain ⟨c, hc, hreached, hagrees⟩ := hf hall hreached hagrees
  rw [List.append_assoc] at hreached
  exact ⟨c, bind_eq_ok.mpr ⟨v, b, hb, hc⟩, hreached, hagrees⟩

/-- The last step of a sequence may meet nothing. -/
theorem bind_silent {f : α → Analyzing β} (hx : Passes all τ x site site' vs v)
    (hf : Passes all τ (f v) site' site' [] w) : Passes all τ (x >>= f) site site' vs w := by
  have hboth := hx.bind hf
  rwa [List.append_nil] at hboth

/-- A step that gives a result and changes nothing. -/
theorem of_same (hsame : ∀ a, x a = .ok v a) (site : Site) : Passes all τ x site site [] v := by
  intro a done rest _ h hagrees
  rw [List.append_nil]
  exact ⟨a, hsame a, h, hagrees⟩

theorem pure (v : α) (site : Site) : Passes all τ (Pure.pure v) site site [] v :=
  of_same (fun _ => rfl) site

/-- Where a step leads if it passes is known already, from `Walks`. -/
theorem of_walks (ht : Typable all τ) (hwalks : Walks x site site' vs)
    (h : ∀ ⦃a done rest⦄, all = done ++ (vs ++ rest) → a.Reached site done →
      a.resolutions.Agrees τ → ∃ b, x a = .ok v b ∧ b.resolutions.Agrees τ) :
    Passes all τ x site site' vs v := by
  intro a done rest hall hreached hagrees
  obtain ⟨b, hb, hagrees⟩ := h hall hreached hagrees
  exact ⟨b, hb, hwalks hreached (ht.distinct_append hall) hb, hagrees⟩

end Passes

section Passing

variable {all : List Visit} {τ : VarTypes}

/-! ### Expressions

By induction on the typing of the expression.  A name is the one place where a type may be
written, and `ReadsName.passes` is where `Typable.integer_of_read` is used: the type that is
written to a variable without one is `integer`, so that has to be the given type.
-/

theorem ReadsName.passes {id : Ident} {x : Analyzing ValueType} (hx : ReadsName id x)
    (ht : Typable all τ) {site : Site} (role : Role) (hrole : role.Reads) {d : Binder}
    {σ : ValueType} (hd : site.visible? id.name = some d) (hσ : d.type? τ = some σ) :
    Passes all τ x site site [.uses ⟨site, role, id⟩] σ := by
  refine .of_walks ht (hx.walks site hrole) ?_
  intro a done rest hall h hagrees
  obtain ⟨n, -, hs, rfl, hn⟩ := h.stands.lookup?_some hd
  have hbinder : (⟨site, role, id⟩ : Occurrence).binder? =
      some (a.resolutions.symbol n).binder := by
    simp [Occurrence.binder?, Occurrence.introduces, hd]
  have hkind : (a.resolutions.symbol n).kind ≠ .func := by
    intro hfunc
    simp [Binder.type?, Symbol.declKind_of_kind hfunc, SymbolKind.declKind] at hσ
  have hread := ht.integer_of_read hall h hs hbinder hrole
  refine ⟨{ a with resolutions := a.resolutions.meet id n .integer }, ?_, hagrees.meet hs hread⟩
  rw [hx.value hn hkind, hagrees.readType_eq hs hσ hread]

private theorem unaryResult_of_type {op : Operator} {σ ρ : ValueType} (h : op.unaryType? σ = some ρ)
    (span : Span) (a : Analysis) : unaryResult op σ span a = .ok ρ a := by
  rw [unaryResult, h]
  rfl

private theorem binaryResult_of_type {op : Operator} {σ σ' ρ : ValueType}
    (h : op.binaryType? σ σ' = some ρ) (span : Span) (a : Analysis) :
    binaryResult op σ σ' span a = .ok ρ a := by
  rw [binaryResult, h]
  rfl

/-- An expression that has a type by `Types` passes with that type. -/
theorem exprType_passes (ht : Typable all τ) {site : Site} {e : Expr} {σ : ValueType}
    (h : Types τ site e σ) : Passes all τ (exprType e) site site (e.reads site) σ := by
  induction h with
  | integer n span => exact .pure _ site
  | boolean b span => exact .pure _ site
  | register reg span => exact .pure _ site
  | @ident id d σ visible known => exact (identType_reads id).passes ht .value trivial visible known
  | unary span _ result ih =>
      exact ih.bind_silent (.of_same (unaryResult_of_type result span) site)
  | binary span _ _ result ihl ihr =>
      rw [Expr.reads, Expr.refs, List.map_append]
      exact ihl.bind (ihr.bind_silent (.of_same (binaryResult_of_type result span) site))

private theorem expectType_passes (σ : ValueType) (span : Span) (what : String) (site : Site) :
    Passes all τ (expectType σ σ span what) site site [] () :=
  .of_same (expectType_of_eq σ span what) site

private theorem checkExpr_passes (ht : Typable all τ) {site : Site} {e : Expr} {σ : ValueType}
    (h : Types τ site e σ) (what : String) :
    Passes all τ (checkExpr σ e what) site site (e.reads site) () :=
  (exprType_passes ht h).bind_silent (expectType_passes σ e.span what site)

/-! ### Assignments

An assignment writes the type of its value to a variable without one.  The typing gives the
target that same type at the site behind the assignment, where the variable may just have
been introduced.
-/

private theorem assignIdent_passes (ht : Typable all τ) (b : Enclosing) (outer : Site) {id : Ident}
    {d : Binder} {σ : ValueType} (span : Span)
    (hd : (⟨b :: outer, .target, id⟩ : Occurrence).binder? = some d) (hσ : d.type? τ = some σ) :
    Passes all τ (assignIdent id σ span) (b :: outer) (Site.assign id (b :: outer))
      [.uses ⟨b :: outer, .target, id⟩] () := by
  refine .of_walks ht (assignIdent_walks b outer id σ span) ?_
  intro a done rest hall h hagrees
  cases hvisible : Site.visible? (b :: outer) id.name with
  | none =>
      obtain ⟨m, hdecl, hres, -⟩ := h.introduce (ht.distinct_append hall) hvisible
      obtain rfl : id.introduced = d := by
        simpa [Occurrence.binder?, Occurrence.introduces, hvisible] using hd
      have hτ : τ id = σ := Option.some.inj hσ
      obtain ⟨s, hs, hbinder⟩ :=
        (Resolutions.numbers_declare_self a.resolutions id .var true).symbol
      refine ⟨{ m with resolutions := m.resolutions.meet id a.resolutions.symbols.size σ },
        assignIdent_of_none (h.stands.lookup?_none hvisible) hdecl, ?_⟩
      rw [hres]
      refine (hagrees.declare id .var true).meet hs fun _ _ => ?_
      rw [hbinder]
      exact hτ
  | some d' =>
      obtain ⟨n, -, hs, rfl, hn⟩ := h.stands.lookup?_some hvisible
      obtain rfl : (a.resolutions.symbol n).binder = d := by
        simpa [Occurrence.binder?, Occurrence.introduces, hvisible] using hd
      refine ⟨{ a with resolutions := a.resolutions.meet id n σ },
        assignIdent_of_takes hn (hagrees.takes hs hσ), hagrees.meet hs fun _ hvar => ?_⟩
      simpa [Binder.type?, hvar] using hσ

private theorem target_of_isSome {e : Expr} (h : e.target?.isSome) :
    ∃ t, e.target? = some t ∧ ∀ a, target e a = .ok t a := by
  obtain ⟨t, ht⟩ := Option.isSome_iff_exists.mp h
  refine ⟨t, ht, ?_⟩
  intro a
  rw [target, ht]
  rfl

private theorem assign_passes (ht : Typable all τ) (b : Enclosing) (outer : Site)
    {left value : Expr} {σ : ValueType} (span : Span) (htarget : left.target?.isSome)
    (hleft : Types τ (Site.after (b :: outer) (.assign left value span)) left σ)
    (hvalue : Types τ (b :: outer) value σ) :
    Passes all τ (assign left value) (b :: outer)
      (Site.after (b :: outer) (.assign left value span))
      (value.reads (b :: outer) ++ left.names (b :: outer) .target) () := by
  obtain ⟨t, hsome, hok⟩ := target_of_isSome htarget
  have hfirst : Passes all τ (target left) (b :: outer) (b :: outer) [] t := .of_same hok _
  refine hfirst.bind ((exprType_passes ht hvalue).bind ?_)
  cases t with
  | register r =>
      obtain ⟨span', rfl⟩ := target?_eq_register hsome
      cases hleft with
      | register => exact expectType_passes _ _ _ _
  | ident id =>
      obtain rfl := target?_eq_ident hsome
      cases hleft with
      | ident visible known =>
          exact assignIdent_passes ht b outer value.span
            ((Site.visible?_assign b outer id).symm.trans visible) known

private theorem compoundTargetType_passes (ht : Typable all τ) {site : Site} {e : Expr} {t : Target}
    {σ : ValueType} (hsome : e.target? = some t) (h : Types τ site e σ) :
    Passes all τ (compoundTargetType t) site site (e.names site .compound) σ := by
  cases t with
  | register r =>
      obtain ⟨span, rfl⟩ := target?_eq_register hsome
      cases h with
      | register => exact .pure _ site
  | ident id =>
      obtain rfl := target?_eq_ident hsome
      cases h with
      | ident visible known =>
          exact (compoundTargetType_reads id).passes ht .compound trivial visible known

private theorem compound_passes (ht : Typable all τ) {site : Site} {op : Operator}
    {left value : Expr}
    {σ ρ : ValueType} (span : Span) (htarget : left.target?.isSome) (hleft : Types τ site left σ)
    (hvalue : Types τ site value ρ) (hop : op.binaryType? σ ρ = some σ) :
    Passes all τ (compound op left value span) site site
      (left.names site .compound ++ value.reads site) () := by
  obtain ⟨t, hsome, hok⟩ := target_of_isSome htarget
  have hfirst : Passes all τ (target left) site site [] t := .of_same hok site
  have hresult : Passes all τ (binaryResult op σ ρ span) site site [] σ :=
    .of_same (binaryResult_of_type hop span) site
  exact hfirst.bind ((compoundTargetType_passes ht hsome hleft).bind
    ((exprType_passes ht hvalue).bind_silent
      (hresult.bind_silent (expectType_passes _ _ _ site))))

/-! ### Intrinsics and calls

Arguments pass one after another.  A register operand is not typed at all, so it passes by
its shape and by the rules of scoping alone.
-/

private theorem checkOperand_passes (ht : Typable all τ) {site : Site} (i : Intrinsic) (index : Nat)
    {arg : Expr} {operand : Operand} (hshape : operand = .register → arg.target?.isSome)
    (h : operand.WellTyped τ site arg) :
    Passes all τ (checkOperand i index arg operand) site site (operand.visits site arg) () := by
  cases operand with
  | integer => exact checkExpr_passes ht h _
  | any =>
      obtain ⟨σ, hσ⟩ := h
      exact (exprType_passes ht hσ).bind_silent (.pure _ site)
  | register =>
      obtain ⟨t, hsome⟩ := Option.isSome_iff_exists.mp (hshape rfl)
      cases t with
      | register r =>
          obtain ⟨span, rfl⟩ := target?_eq_register hsome
          exact .of_same (fun _ => rfl) site
      | ident id =>
          obtain rfl := target?_eq_ident hsome
          refine .of_walks ht (checkOperand_walks site i index _ .register) ?_
          intro a done rest hall hreached hagrees
          obtain ⟨d, hd, reg, hreg⟩ := ht.visible_of_permitted (by simp) hall
          obtain ⟨n, -, -, rfl, hn⟩ := hreached.stands.lookup?_some hd
          have halias := Symbol.isSome_register?_iff.mpr ⟨reg, hreg⟩
          refine ⟨{ a with resolutions := a.resolutions.bindReference id.span n }, ?_, hagrees⟩
          exact bind_eq_ok.mpr ⟨true, _, isRegister_eq_ok.mpr ⟨n, hn, halias.symm, rfl⟩, rfl⟩

private theorem checkOperands_passes (ht : Typable all τ) {site : Site} (i : Intrinsic) :
    ∀ {args : List (Expr × Operand)} (index : Nat),
      (∀ arg operand, (arg, operand) ∈ args → operand = .register → arg.target?.isSome) →
      (∀ arg operand, (arg, operand) ∈ args → operand.WellTyped τ site arg) →
      Passes all τ (checkOperands i index args) site site (operandVisits site args) ()
  | [], _, _, _ => .pure _ site
  | (arg, operand) :: _, index, hshape, h =>
      (checkOperand_passes ht i index (hshape arg operand List.mem_cons_self)
        (h arg operand List.mem_cons_self)).bind
        (checkOperands_passes ht i (index + 1)
          (fun arg' operand' hmem => hshape arg' operand' (List.mem_cons_of_mem _ hmem))
          fun arg' operand' hmem => h arg' operand' (List.mem_cons_of_mem _ hmem))

private theorem call_passes (ht : Typable all τ) (site : Site) (name : Ident) (span : Span) :
    Passes all τ (call name [] span) site site [.uses ⟨site, .callee, name⟩] () := by
  refine .of_walks ht (call_walks site name [] span) ?_
  intro a done rest hall hreached hagrees
  obtain ⟨d, hd, hfunc⟩ := ht.visible_of_permitted (by simp) hall
  obtain ⟨n, -, -, rfl, hn⟩ := hreached.stands.lookup?_some hd
  exact ⟨{ a with resolutions := a.resolutions.bindReference name.span n },
    call_of_func hn (Symbol.kind_eq_func hfunc) span, hagrees⟩

/-! ### Statements

The walk is the general one, with `passing` as its claim.  A statement is at a site inside
some block, hence `b :: outer`; statements in a row may introduce names, so all that is said
of the site behind them is that it has the same declarations.
-/

private theorem declareAll_passes (ht : Typable all τ) (outer : Site) (decls : List Decl) :
    ∀ earlier, Passes all τ (declareAll decls) (⟨earlier, []⟩ :: outer)
      (⟨earlier ++ decls, []⟩ :: outer) (declVisits earlier decls) () := by
  induction decls with
  | nil =>
      intro earlier
      rw [List.append_nil]
      exact .pure _ _
  | cons d rest ih =>
      intro earlier a done behind hall h hagrees
      have hall : all = done ++ ([.declares earlier d] ++ (declVisits (earlier ++ [d]) rest ++
        behind)) := hall
      have hdistinct := ht.distinct_append hall
      have hfresh : ∀ e ∈ earlier, e.name.name ≠ d.name.name :=
        ht.permitted (.declares earlier d) (by rw [hall]; simp)
      obtain ⟨m, hok, hres, -⟩ :=
        h.stands.declare (hdistinct.binder_ne rfl) (Stands.Adds.declared hfresh)
      have hm : m.Reached (⟨earlier ++ [d], []⟩ :: outer) (done ++ [.declares earlier d]) :=
        declare_walks outer earlier d h hdistinct hok
      have hagrees : m.resolutions.Agrees τ := by
        rw [hres]
        exact hagrees.declare d.name d.kind false
      rw [← List.append_assoc] at hall
      obtain ⟨b, hb, hreached, hagrees⟩ := ih (earlier ++ [d]) hall hm hagrees
      rw [List.append_assoc, List.append_assoc] at hreached
      exact ⟨b, bind_eq_ok.mpr ⟨_, m, hok, hb⟩, hreached, hagrees⟩

private theorem inScope_passes {body : Analyzing Unit} {outer : Site} {b : Enclosing}
    {vs : List Visit} (hbody : Passes all τ body (⟨[], []⟩ :: outer) (b :: outer) vs ()) :
    Passes all τ (inScope body) outer outer vs () := by
  intro a done rest hall h hagrees
  have hpush : ({ a with scopes := a.scopes.push } : Analysis).Reached (⟨[], []⟩ :: outer) done :=
    ⟨h.stands.push, h.permitted⟩
  obtain ⟨c, hc, hend, hagrees⟩ := hbody hall hpush hagrees
  exact ⟨{ c with scopes := c.scopes.pop }, inScope_eq_ok.mpr ⟨c, hc, rfl⟩,
    ⟨hend.stands.pop, hend.permitted⟩, hagrees⟩

private theorem intrinsic_passes (ht : Typable all τ) {site : Site} {i : Intrinsic}
    {args : Arguments} {span : Span} (hshape : (Stmt.intrinsic i args span).WellShaped)
    (h : (Stmt.intrinsic i args span).WellTyped τ site) :
    Passes all τ (intrinsic i args.args span) site site
      (operandVisits site (args.args.zip i.operands)) () := by
  rw [Stmt.WellShaped] at hshape
  rw [Stmt.WellTyped] at h
  rw [intrinsic, if_pos hshape.1]
  exact checkOperands_passes ht i 1 hshape.2 h

/-- Each part of a program that is `WellShaped` and `WellTyped` passes. -/
abbrev passing (all : List Visit) (τ : VarTypes) : Claim where
  stmt s x := ∀ b outer, s.WellShaped → s.WellTyped τ (b :: outer) →
    Passes all τ x (b :: outer) (Site.after (b :: outer) s) (s.visits (b :: outer)) ()
  block b x := ∀ outer, b.WellShaped → b.WellTyped τ outer →
    Passes all τ x outer outer (b.visits outer) ()
  stmts body x := ∀ b outer, stmtsWellShaped body → stmtsWellTyped τ (b :: outer) body →
    ∃ implicits, Passes all τ x (b :: outer) (⟨b.decls, implicits⟩ :: outer)
      (stmtsVisits (b :: outer) body) ()

private theorem passing_rules (ht : Typable all τ) : (passing all τ).Rules where
  assign left value span b outer hshape h := by
    rw [Stmt.WellTyped] at h
    obtain ⟨σ, hleft, hvalue⟩ := h
    exact assign_passes ht b outer span hshape hleft hvalue
  compound op left value span b outer hshape h := by
    rw [Stmt.WellTyped] at h
    obtain ⟨σ, ρ, hleft, hvalue, hop⟩ := h
    exact compound_passes ht span hshape hleft hvalue hop
  ifThen _ _ _ hbody b outer hshape h :=
    (checkExpr_passes ht h.1 _).bind (hbody (b :: outer) hshape h.2)
  ifElse _ _ _ _ _ hbody helse b outer hshape h :=
    (checkExpr_passes ht h.1 _).bind
      ((hbody (b :: outer) hshape.1 h.2.1).bind (helse (b :: outer) hshape.2 h.2.2))
  whileLoop _ _ _ hbody b outer hshape h :=
    (checkExpr_passes ht h.1 _).bind (hbody (b :: outer) hshape h.2)
  func _ _ _ hbody b outer hshape h := hbody (b :: outer) hshape h
  ret _ b outer _ _ := .pure () (b :: outer)
  retValue _ _ b outer _ h := checkExpr_passes ht h _
  intrinsic _ _ _ b outer hshape h := intrinsic_passes ht hshape h
  call name args span b outer hshape _ := by
    rw [Stmt.WellShaped] at hshape
    rw [hshape]
    exact call_passes ht (b :: outer) name span
  block decls _ _ hbody outer hshape h := by
    obtain ⟨implicits, hbody⟩ := hbody ⟨decls, []⟩ outer hshape h
    exact inScope_passes ((declareAll_passes ht outer decls []).bind hbody)
  nil b outer _ _ := ⟨b.implicits, .pure () (b :: outer)⟩
  cons s _ hs hrest b outer hshape h := by
    rw [stmtsWellTyped] at h
    obtain ⟨now, hafter⟩ := Site.after_cons b outer s
    have hs := hs b outer hshape.1 h.1
    rw [stmtsVisits]
    rw [hafter] at hs h ⊢
    obtain ⟨implicits, hrest⟩ := hrest ⟨b.decls, now⟩ outer hshape.2 h.2
    exact ⟨implicits, hs.bind hrest⟩

/-- **A block that keeps the rules passes.** -/
theorem block_passes (ht : Typable all τ) (outer : Site) {b : Block} (hshape : b.WellShaped)
    (h : b.WellTyped τ outer) : Passes all τ (block b) outer outer (b.visits outer) () :=
  (passing_rules ht).blocks b outer hshape h

end Passing

end Analysis

/-! ### Inference

The two directions meet.  `typing_of_analyze` has a typing from an analysis that passed,
`analyze_of_typing` an analysis that passes from any typing.  That its types agree with the
given ones makes them unique, at every name that occurs.
-/

namespace Program

variable {p : Program} {r : Resolutions} {τ : VarTypes}

/-- A program that keeps all rules passes, and what is recorded `Agrees` with its types. -/
theorem analyze_of_typing (hnamed : p.WellNamed) (hscoped : p.WellScoped) (h : p.Typing τ) :
    ∃ r, p.analyze = .ok r ∧ r.Agrees τ := by
  have ht : Typable p.visits τ :=
    ⟨hnamed.distinctVisits hscoped.shape, hscoped.names, h.firstRead⟩
  have hstart : Analysis.start.Reached [] [] := ⟨.start, by simp⟩
  have hall : p.visits = [] ++ (p.visits ++ []) := by simp
  obtain ⟨a, hok, -, hagrees⟩ :=
    Analysis.block_passes ht [] hscoped.shape h.wellTyped hall hstart .empty
  refine ⟨a.resolutions, ?_, hagrees⟩
  simp only [Program.analyze, hok]

/-- A variable that occurs has the type that was given. -/
theorem type?_of_agrees (hrecords : r.Records (bindersOf p.visits) p.occurrences)
    (hagrees : r.Agrees τ) {o : Occurrence} (ho : o ∈ p.occurrences) {d : Binder}
    (hd : o.binder? = some d) (hkind : d.kind = .var) :
    ∃ n s, r.resolve? o.id = some n ∧ r.declaration? d.name = some n ∧
      r.symbols[n]? = some s ∧ s.type? = some (τ d.name) := by
  obtain ⟨d', n, hd', hn, href⟩ := hrecords.resolved o ho
  obtain rfl := Option.some.inj (hd'.symm.trans hd)
  obtain ⟨s, hs, rfl⟩ := hn.symbol
  refine ⟨n, s, href, hn.declared, hs, ?_⟩
  have htyped := hrecords.typed hs hkind
  cases htype : s.type? with
  | some σ =>
      have hsome := hagrees n s σ hs htype
      rw [← hsome, Binder.type?, hkind]
  | none =>
      -- A variable without a type was never met.
      rw [htype] at htyped
      cases hfirst : firstOf p.occurrences s.binder with
      | none => exact absurd hd (firstOf_eq_none.mp hfirst o ho)
      | some o' =>
          rw [hfirst] at htyped
          exact htyped.elim

/--
**Type inference is sound and complete.**  A parsed program passes analysis just if it
keeps the rules of scoping and there are types for its variables that satisfy the
rules of typing, where a variable that is read first has to be an integer.  Whatever
types satisfy them, they are those that are recorded for every variable that occurs.
-/
theorem analyze_iff_typing {source : String} {tabWidth : Nat}
    (hparse : Program.parse source tabWidth = .ok p) :
    ((∃ r, p.analyze = .ok r) ↔ p.WellScoped ∧ ∃ τ, p.Typing τ) ∧
      ∀ r τ, p.analyze = .ok r → p.Typing τ → ∀ o ∈ p.occurrences, ∀ d, o.binder? = some d →
        d.kind = .var → ∃ n s, r.resolve? o.id = some n ∧ r.declaration? d.name = some n ∧
          r.symbols[n]? = some s ∧ s.type? = some (τ d.name) := by
  have hnamed := wellNamed_of_parse hparse
  refine ⟨⟨?_, ?_⟩, ?_⟩
  · intro hok
    obtain ⟨r, hr⟩ := hok
    obtain ⟨-, hscoped, -⟩ := records_of_analyze hnamed hr
    exact ⟨hscoped, r.varTypes, typing_of_analyze hnamed hr⟩
  · intro hrules
    obtain ⟨hscoped, τ, hτ⟩ := hrules
    obtain ⟨r, hr, -⟩ := analyze_of_typing hnamed hscoped hτ
    exact ⟨r, hr⟩
  · intro r τ hr hτ o ho d hd hkind
    obtain ⟨hrecords, hscoped, -⟩ := records_of_analyze hnamed hr
    obtain ⟨r', hr', hagrees⟩ := analyze_of_typing hnamed hscoped hτ
    obtain rfl := Except.ok.inj (hr.symm.trans hr')
    exact type?_of_agrees hrecords hagrees ho hd hkind

/-- A flag and a counter, each of which is read after it was written to. -/
def flagged : String :=
  "go = 1 < 2; n = 3; while go { n -= 1; go = n > 0; } dbg(go);"

/-- The sample has a typing, and its seven occurrences have the types that were recorded. -/
theorem flagged_analyze_iff_typing :
    ∃ p r τ, Program.parse flagged 4 = .ok p ∧ p.analyze = .ok r ∧ p.WellScoped ∧ p.Typing τ ∧
      r.symbols.toList.map Symbol.type? = [some .boolean, some .integer] ∧
      p.occurrences.length = 7 ∧
      ∀ o ∈ p.occurrences, ∀ d, o.binder? = some d → d.kind = .var → ∃ n s,
        r.resolve? o.id = some n ∧ r.declaration? d.name = some n ∧ r.symbols[n]? = some s ∧
          s.type? = some (τ d.name) := by
  have htest : Compiles.passes flagged 4 .default (fun p r _ =>
      r.symbols.toList.map Symbol.type? == [some .boolean, some .integer] &&
        p.occurrences.length == 7) = true := by
    decide +kernel
  obtain ⟨p, r, sections, hcompiles, hcheck⟩ := Compiles.of_passes htest
  rw [Bool.and_eq_true, beq_iff_eq, beq_iff_eq] at hcheck
  obtain ⟨hiff, htypes⟩ := analyze_iff_typing hcompiles.parsed
  obtain ⟨hscoped, τ, hτ⟩ := hiff.mp ⟨r, hcompiles.analyzed⟩
  exact ⟨p, r, τ, hcompiles.parsed, hcompiles.analyzed, hscoped, hτ, hcheck.1, hcheck.2,
    htypes r τ hcompiles.analyzed hτ⟩

end Program

end StackCode
