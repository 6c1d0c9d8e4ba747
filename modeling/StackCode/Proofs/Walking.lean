/-
Analysis walks a program as the rules of scoping say.

`Reached` says how far analysis has come: it stands at a site, has met a list of
visits, and all of them keep the rules.  `Walks` says what a step of analysis adds to
that list if it does not stop.  A block adds just its own visits and leaves analysis
at the site where it was (`walking`), so what is recorded in the end is what the visits of
the whole program call for (`Program.reached_of_analyze`).
-/
import StackCode.Proofs.Recording
import StackCode.Proofs.Traversal
import StackCode.Proofs.Visits

namespace StackCode

open Sequencing

private theorem Role.Reads.allows {role : Role} (h : role.Reads) (kind : DeclKind) :
    role.Allows kind ↔ kind ≠ .func := by
  cases role with
  | value => rfl
  | compound => rfl
  | _ => exact h.elim

/-! ### Blocks that get one more name

`Adds` is how the innermost block of a site grows: by a declaration, while the block is
entered, or by a variable that an assignment introduces.
-/

namespace Analysis.Stands.Adds

/-- A block gets a variable. -/
theorem introduced {b : Enclosing} {id : Ident} (h : b.binder? id.name = none) :
    Adds b { b with implicits := b.implicits ++ [id] } id.introduced := by
  have hnone := h
  simp only [Enclosing.binder?, Option.or_eq_none_iff, Option.map_eq_none_iff] at hnone
  refine ⟨h, ?_, ?_⟩
  · have hfound : (b.implicits ++ [id]).find? (·.name == id.name) = some id := by
      rw [List.find?_append, hnone.2]
      simp
    simp only [Enclosing.binder?, Ident.introduced_name, hnone.1, hfound]
    rfl
  · intro name hname
    have hne : (id.name == name) = false := beq_false_of_ne (Ne.symm hname)
    simp [Enclosing.binder?, List.find?_append, hne]

/-- A block gets a declaration. -/
theorem declared {earlier : List Decl} {d : Decl}
    (h : ∀ e ∈ earlier, e.name.name ≠ d.name.name) :
    Adds ⟨earlier, []⟩ ⟨earlier ++ [d], []⟩ d.binder := by
  have hnone : earlier.find? (·.name.name == d.name.name) = none := by
    rw [List.find?_eq_none]
    intro e he
    simpa using h e he
  refine ⟨?_, ?_, ?_⟩
  · show ((earlier.find? (·.name.name == d.name.name)).map Decl.binder).or none = none
    rw [hnone]
    rfl
  · have hfound : (earlier ++ [d]).find? (·.name.name == d.name.name) = some d := by
      rw [List.find?_append, hnone]
      simp
    show (((earlier ++ [d]).find? (·.name.name == d.name.name)).map Decl.binder).or none = _
    rw [hfound]
    rfl
  · intro name hname
    have hne : (d.name.name == name) = false := beq_false_of_ne (Ne.symm hname)
    simp [Enclosing.binder?, List.find?_append, hne]

end Analysis.Stands.Adds

namespace Analysis

/-! ### How far analysis has come

`Reached` is the invariant of the walk.  Its steps are the three things that can happen to a
name: it is met with a type, it is only recorded, or it is declared.  All of them ask that
the spans of what was met are different (`DistinctVisits`).
-/

/-- Analysis stands at a site and has met these visits, which keep the rules of scoping. -/
structure Reached (a : Analysis) (site : Site) (done : List Visit) : Prop where
  stands : a.Stands site (bindersOf done) (occurrencesOf done)
  permitted : ∀ v ∈ done, v.Permitted

private theorem Reached.permitted_append {a : Analysis} {site : Site} {done : List Visit}
    (h : a.Reached site done) {v : Visit} (hv : v.Permitted) : ∀ w ∈ done ++ [v], w.Permitted := by
  intro w hw
  rcases List.mem_append.mp hw with hw | hw
  · exact h.permitted w hw
  · rw [List.mem_singleton.mp hw]
    exact hv

namespace Reached

variable {a m : Analysis} {site outer : Site} {b : Enclosing} {done : List Visit} {id : Ident}
  {d : Binder} {n : Nat} {s : Symbol}

/-- A name that is found is the symbol of what it stands for at the site. -/
theorem visible?_of_lookup? (h : a.Reached site done) (hn : a.scopes.lookup? id.name = some n) :
    site.visible? id.name = some (a.resolutions.symbol n).binder ∧
      a.resolutions.Numbers (a.resolutions.symbol n).binder n := by
  cases hd : site.visible? id.name with
  | none => cases (h.stands.lookup?_none hd).symm.trans hn
  | some d =>
      obtain ⟨n', hnum, -, rfl, hn'⟩ := h.stands.lookup?_some hd
      obtain rfl := Option.some.inj (hn'.symm.trans hn)
      exact ⟨rfl, hnum⟩

/-- A name that is not found is visible nowhere. -/
theorem visible?_of_lookup?_none (h : a.Reached site done)
    (hnone : a.scopes.lookup? id.name = none) : site.visible? id.name = none := by
  cases hd : site.visible? id.name with
  | none => rfl
  | some d =>
      obtain ⟨n, -, -, -, hn⟩ := h.stands.lookup?_some hd
      cases hnone.symm.trans hn

/-- A visible name is met, and what it stands for is given a type if it has none. -/
theorem meet (h : a.Reached site done) {role : Role} {σ : ValueType}
    (hd : site.visible? id.name = some d) (hn : a.resolutions.Numbers d n)
    (hdistinct : DistinctVisits (done ++ [.uses ⟨site, role, id⟩])) (hallow : role.Allows d.kind)
    (hσ : d.kind = .var → role.Reads → σ = .integer) :
    ({ a with resolutions := a.resolutions.meet id n σ } : Analysis).Reached site
      (done ++ [.uses ⟨site, role, id⟩]) := by
  have hintro : (⟨site, role, id⟩ : Occurrence).introduces = false := by
    simp [Occurrence.introduces, hd]
  have hbinder : (⟨site, role, id⟩ : Occurrence).binder? = some d := by
    simp [Occurrence.binder?, hintro, hd]
  refine ⟨?_, h.permitted_append ⟨d, hbinder, hallow⟩⟩
  rw [bindersOf_append, bindersOf_not_introduces hintro, List.append_nil, occurrencesOf_append]
  exact h.stands.meet hbinder hn hdistinct.use_ne hσ

/-- A name that was found is met. -/
theorem meet_of_lookup? (h : a.Reached site done) {role : Role} (σ : ValueType)
    (hdistinct : DistinctVisits (done ++ [.uses ⟨site, role, id⟩]))
    (hn : a.scopes.lookup? id.name = some n)
    (hallow : role.Allows (a.resolutions.symbol n).binder.kind)
    (hσ : (a.resolutions.symbol n).binder.kind = .var → role.Reads → σ = .integer) :
    ({ a with resolutions := a.resolutions.meet id n σ } : Analysis).Reached site
      (done ++ [.uses ⟨site, role, id⟩]) := by
  obtain ⟨hd, hnum⟩ := h.visible?_of_lookup? hn
  exact h.meet hd hnum hdistinct hallow hσ

/-- A name that was found is only recorded, if there is no type to write. -/
theorem use_of_lookup? (h : a.Reached site done) {role : Role}
    (hdistinct : DistinctVisits (done ++ [.uses ⟨site, role, id⟩]))
    (hn : a.scopes.lookup? id.name = some n)
    (hallow : role.Allows (a.resolutions.symbol n).binder.kind)
    (hsettled : (a.resolutions.symbol n).Settled) :
    ({ a with resolutions := a.resolutions.bindReference id.span n } : Analysis).Reached site
      (done ++ [.uses ⟨site, role, id⟩]) := by
  rw [← Resolutions.meet_of_settled hsettled id .integer]
  exact h.meet_of_lookup? .integer hdistinct hn hallow fun _ _ => rfl

/-- A name that a block declares already cannot be declared in it again. -/
theorem binder?_of_declare (h : a.Reached (b :: outer) done) {kind : DeclKind} {implicit : Bool}
    (hok : declare id kind implicit a = .ok n m) : b.binder? id.name = none := by
  by_contra hne
  obtain ⟨d, hd⟩ := Option.ne_none_iff_exists'.mp hne
  obtain ⟨n', hn⟩ := h.stands.records.numbered d
    (h.stands.holds b List.mem_cons_self id.name d hd)
  have hframe : b.frame a.resolutions id.name = some n' := by
    rw [Enclosing.frame, hd, Option.bind_some, hn.declared]
  have hfail := h.stands.scopes.declare_of_some hframe a.resolutions.symbols.size
  obtain ⟨rfl, scopes, hscopes, -⟩ := declare_eq_ok.mp hok
  cases hfail.symm.trans hscopes

end Reached

/-! ### Steps

`Walks` is about steps that succeed, like `Traces`, and says in addition where they lead.
`bind` puts visits one behind the other, and the second step starts at the site where the
first one ends.
-/

/-- A step that finishes meets these visits and leads from the one site to the other. -/
def Walks {α : Type} (x : Analyzing α) (site site' : Site) (vs : List Visit) : Prop :=
  ∀ ⦃a v b done⦄, a.Reached site done → DistinctVisits (done ++ vs) → x a = .ok v b →
    b.Reached site' (done ++ vs)

namespace Walks

variable {α β : Type} {x : Analyzing α} {site site' site'' : Site} {vs ws : List Visit}

theorem bind {f : α → Analyzing β} (hx : Walks x site site' vs)
    (hf : ∀ v, Walks (f v) site' site'' ws) : Walks (x >>= f) site site'' (vs ++ ws) := by
  intro a v b done h hdistinct hok
  obtain ⟨w, m, hxm, hfm⟩ := bind_eq_ok.mp hok
  rw [← List.append_assoc] at hdistinct ⊢
  exact hf w (hx h hdistinct.left hxm) hdistinct hfm

/-- A step that changes nothing. -/
theorem of_same (hsame : ∀ ⦃a v b⦄, x a = .ok v b → a = b) (site : Site) :
    Walks x site site [] := by
  intro a v b done h _ hok
  obtain rfl := hsame hok
  rw [List.append_nil]
  exact h

theorem pure (v : α) (site : Site) : Walks (pure v) site site [] :=
  of_same (fun _ _ _ h => (pure_eq_ok.mp h).2) site

/-- The last step of a sequence may meet nothing. -/
theorem bind_silent {f : α → Analyzing β} (hx : Walks x site site' vs)
    (hf : ∀ v, Walks (f v) site' site' []) : Walks (x >>= f) site site' vs := by
  have hboth := hx.bind hf
  rwa [List.append_nil] at hboth

end Walks

/-! ### Names and expressions

A name is met in its `Role`.  Reading asks for something that is no function, and makes an
integer of a variable without a type.
-/

theorem ReadsName.walks {id : Ident} {x : Analyzing ValueType} (hx : ReadsName id x) (site : Site)
    {role : Role} (hrole : role.Reads) : Walks x site site [.uses ⟨site, role, id⟩] := by
  intro a τ b done h hdistinct hok
  obtain ⟨n, hn, hkind, -, rfl⟩ := hx.eq_ok.mp hok
  have hallow : role.Allows (a.resolutions.symbol n).binder.kind :=
    (hrole.allows _).mpr fun hfunc => hkind (Symbol.kind_eq_func hfunc)
  exact h.meet_of_lookup? .integer hdistinct hn hallow fun _ _ => rfl

private theorem exprType_walks (site : Site) : ∀ e : Expr, Walks (exprType e) site site
    (e.reads site)
  | .integer .. | .register .. | .boolean .. => .pure _ site
  | .ident id => (identType_reads id).walks site trivial
  | .unary op operand span =>
      (exprType_walks site operand).bind_silent fun _ =>
        .of_same (fun _ _ _ h => (unaryResult_eq_ok h).2) site
  | .binary op left right span => by
      rw [Expr.reads, Expr.refs, List.map_append]
      exact (exprType_walks site left).bind fun _ =>
        (exprType_walks site right).bind_silent fun _ =>
          .of_same (fun _ _ _ h => (binaryResult_eq_ok h).2) site

private theorem expectType_walks (expected found : ValueType) (span : Span) (what : String)
    (site : Site) :
    Walks (expectType expected found span what) site site [] :=
  .of_same (fun _ _ _ h => (expectType_eq_ok.mp h).2.symm) site

private theorem checkExpr_walks (site : Site) (expected : ValueType) (e : Expr) (what : String) :
    Walks (checkExpr expected e what) site site (e.reads site) :=
  (exprType_walks site e).bind_silent fun _ => expectType_walks _ _ _ _ site

/-! ### Assignments

A plain assignment may change the site.  Where the name is visible it is met like any other;
where it is not, the innermost block gets it, and it is met as that.
-/

/-- A plain assignment to a name that is visible nowhere introduces it in the innermost block. -/
theorem Reached.introduce {a : Analysis} {b : Enclosing} {outer : Site} {done : List Visit}
    {id : Ident} (h : a.Reached (b :: outer) done)
    (hdistinct : DistinctVisits (done ++ [.uses ⟨b :: outer, .target, id⟩]))
    (hnone : Site.visible? (b :: outer) id.name = none) :
    ∃ m, declare id .var true a = .ok a.resolutions.symbols.size m ∧
      m.resolutions = (Event.declare id .var true).apply a.resolutions ∧
      ∀ σ, ({ m with
          resolutions := m.resolutions.meet id a.resolutions.symbols.size σ } : Analysis).Reached
        ({ b with implicits := b.implicits ++ [id] } :: outer)
        (done ++ [.uses ⟨b :: outer, .target, id⟩]) := by
  have hintro : (⟨b :: outer, .target, id⟩ : Occurrence).introduces = true :=
    Occurrence.introduces_iff.mpr ⟨rfl, hnone⟩
  have hbinder : (⟨b :: outer, .target, id⟩ : Occurrence).binder? = some id.introduced := by
    simp [Occurrence.binder?, hintro]
  have hvisit : Visit.binder? (.uses ⟨b :: outer, .target, id⟩) = some id.introduced := by
    simp [Visit.binder?, hintro]
  -- A name that is visible nowhere is free in the innermost block, which is what `declare` asks.
  have hfree : b.binder? id.name = none := by
    rw [Site.visible?_cons, Option.or_eq_none_iff] at hnone
    exact hnone.1
  obtain ⟨m, hdecl, hres, hstands⟩ :=
    h.stands.declare (hdistinct.binder_ne hvisit) (Stands.Adds.introduced hfree)
  have hn : m.resolutions.Numbers id.introduced a.resolutions.symbols.size := by
    rw [hres]
    exact Resolutions.numbers_declare_self a.resolutions id .var true
  have hallow : Role.Allows .target id.introduced.kind := by
    simp [Role.Allows, Ident.introduced]
  refine ⟨m, hdecl, hres, ?_⟩
  intro σ
  refine ⟨?_, h.permitted_append ⟨id.introduced, hbinder, hallow⟩⟩
  rw [bindersOf_append, bindersOf_introduces hintro, occurrencesOf_append]
  exact hstands.meet hbinder hn hdistinct.use_ne fun _ hreads => hreads.elim

theorem assignIdent_walks (b : Enclosing) (outer : Site) (id : Ident) (type : ValueType)
    (span : Span) :
    Walks (assignIdent id type span) (b :: outer) (Site.assign id (b :: outer))
      [.uses ⟨b :: outer, .target, id⟩] := by
  intro a v c done h hdistinct hok
  rcases assignIdent_eq_ok hok with ⟨n, m, hnone, hdecl, rfl⟩ | ⟨n, hn, htakes, rfl⟩
  · have hd := h.visible?_of_lookup?_none hnone
    obtain ⟨m', hdecl', -, hreached⟩ := h.introduce hdistinct hd
    obtain ⟨rfl, rfl⟩ := EStateM.Result.ok.inj (hdecl.symm.trans hdecl')
    have hassign : Site.assign id (b :: outer) =
        { b with implicits := b.implicits ++ [id] } :: outer := by
      simp [Site.assign, hd]
    rw [hassign]
    exact hreached type
  · have hassign : Site.assign id (b :: outer) = b :: outer := by
      simp [Site.assign, (h.visible?_of_lookup? hn).1]
    have hallow : Role.Allows .target (a.resolutions.symbol n).binder.kind :=
      fun hfunc => htakes.kind_ne (Symbol.kind_eq_func hfunc)
    rw [hassign]
    exact h.meet_of_lookup? type hdistinct hn hallow fun _ hreads => hreads.elim

private theorem assign_walks (b : Enclosing) (outer : Site) (left value : Expr) (span : Span) :
    Walks (assign left value) (b :: outer) (Site.after (b :: outer) (.assign left value span))
      (value.reads (b :: outer) ++ left.names (b :: outer) .target) := by
  intro a v c done h hdistinct hok
  obtain ⟨t, m, htarget, hok⟩ := bind_eq_ok.mp hok
  obtain ⟨ht, rfl⟩ := target_eq_ok htarget
  refine (exprType_walks (b :: outer) value).bind (fun type => ?_) h hdistinct hok
  cases t with
  | register r =>
      obtain ⟨span', rfl⟩ := target?_eq_register ht
      exact expectType_walks _ _ _ _ _
  | ident id =>
      obtain rfl := target?_eq_ident ht
      exact assignIdent_walks b outer id type value.span

private theorem compoundTargetType_walks (site : Site) {e : Expr} {t : Target}
    (ht : e.target? = some t) :
    Walks (compoundTargetType t) site site (e.names site .compound) := by
  cases t with
  | register r =>
      obtain ⟨span, rfl⟩ := target?_eq_register ht
      exact .pure _ site
  | ident id =>
      obtain rfl := target?_eq_ident ht
      exact (compoundTargetType_reads id).walks site trivial

private theorem compound_walks (site : Site) (op : Operator) (left value : Expr) (span : Span) :
    Walks (compound op left value span) site site
      (left.names site .compound ++ value.reads site) := by
  intro a v b done h hdistinct hok
  obtain ⟨t, m, htarget, hok⟩ := bind_eq_ok.mp hok
  obtain ⟨ht, rfl⟩ := target_eq_ok htarget
  refine ((compoundTargetType_walks site ht).bind fun τ =>
    (exprType_walks site value).bind_silent fun σ => ?_) h hdistinct hok
  have hresult : Walks (binaryResult op τ σ span) site site [] :=
    .of_same (fun _ _ _ h => (binaryResult_eq_ok h).2) site
  exact hresult.bind_silent fun _ => expectType_walks _ _ _ _ site

/-! ### Intrinsics and calls

A register operand and a callee are recorded without a type: what they may stand for is
settled.
-/

theorem checkOperand_walks (site : Site) (i : Intrinsic) (index : Nat) (arg : Expr)
    (operand : Operand) :
    Walks (checkOperand i index arg operand) site site (operand.visits site arg) := by
  cases operand with
  | integer => exact checkExpr_walks site .integer arg _
  | any => exact (exprType_walks site arg).bind_silent fun _ => .pure _ site
  | register =>
      intro a v b done h hdistinct hok
      obtain ⟨found, m, hreg, hok⟩ := bind_eq_ok.mp hok
      cases found with
      | false => simp [wrongType] at hok
      | true =>
          obtain ⟨-, rfl⟩ := pure_eq_ok.mp hok
          cases arg with
          | register r span =>
              obtain ⟨-, rfl⟩ := pure_eq_ok.mp hreg
              rw [Operand.visits, Expr.names, List.append_nil]
              exact h
          | ident id =>
              obtain ⟨n, hn, halias, rfl⟩ := isRegister_eq_ok.mp hreg
              obtain ⟨r, hr⟩ := Symbol.isSome_register?_iff.mp halias.symm
              have hkind : (a.resolutions.symbol n).kind ≠ .var := by
                intro hvar
                cases (Symbol.declKind_of_kind hvar).symm.trans hr
              exact h.use_of_lookup? hdistinct hn ⟨r, hr⟩ (Symbol.settled_of_kind_ne hkind)
          | _ => simp [isRegister] at hreg

private theorem checkOperands_walks (site : Site) (i : Intrinsic) :
    ∀ (index : Nat) (args : List (Expr × Operand)),
      Walks (checkOperands i index args) site site (operandVisits site args)
  | _, [] => .pure _ site
  | index, (arg, operand) :: rest =>
      (checkOperand_walks site i index arg operand).bind fun _ =>
        checkOperands_walks site i (index + 1) rest

private theorem intrinsic_walks (site : Site) (i : Intrinsic) (args : List Expr) (span : Span) :
    Walks (intrinsic i args span) site site (operandVisits site (args.zip i.operands)) := by
  unfold intrinsic
  by_cases hlen : args.length = i.arity
  · rw [if_pos hlen]
    exact checkOperands_walks site i 1 (args.zip i.operands)
  · rw [if_neg hlen]
    intro a v b done _ _ hok
    simp at hok

theorem call_walks (site : Site) (name : Ident) (args : List Expr) (span : Span) :
    Walks (call name args span) site site [.uses ⟨site, .callee, name⟩] := by
  intro a v b done h hdistinct hok
  obtain ⟨n, hn, hkind, -, rfl⟩ := call_eq_ok hok
  exact h.use_of_lookup? hdistinct hn (Symbol.declKind_of_kind hkind) (Symbol.settled_of_func hkind)

/-! ### Statements

The claim about statements in a row has the variables that they introduce as something that
exists (`walking`), because nothing behind the block can see them: `inScope` closes it, and
analysis stands where it stood before.
-/

/-- A declaration is entered only if its block does not declare the name yet. -/
theorem declare_walks (outer : Site) (earlier : List Decl) (d : Decl) :
    Walks (declare d.name d.kind false) (⟨earlier, []⟩ :: outer) (⟨earlier ++ [d], []⟩ :: outer)
      [.declares earlier d] := by
  intro a n m done h hdistinct hok
  have hfresh : ∀ e ∈ earlier, e.name.name ≠ d.name.name := by
    have hnone := h.binder?_of_declare hok
    simp only [Enclosing.binder?, Option.or_eq_none_iff, Option.map_eq_none_iff,
      List.find?_eq_none] at hnone
    intro e he heq
    exact hnone.1 e he (by simp [heq])
  obtain ⟨a', hok', -, hstands⟩ :=
    h.stands.declare (hdistinct.binder_ne rfl) (Stands.Adds.declared hfresh)
  obtain ⟨-, rfl⟩ := EStateM.Result.ok.inj (hok.symm.trans hok')
  refine ⟨?_, h.permitted_append hfresh⟩
  rw [bindersOf_append, occurrencesOf_append, occurrencesOf_declares, occurrencesOf_nil,
    List.append_nil]
  exact hstands

private theorem declareAll_walks (outer : Site) (decls : List Decl) :
    ∀ earlier, Walks (declareAll decls) (⟨earlier, []⟩ :: outer) (⟨earlier ++ decls, []⟩ :: outer)
      (declVisits earlier decls) := by
  induction decls with
  | nil =>
      intro earlier
      rw [List.append_nil]
      exact .pure _ _
  | cons d rest ih =>
      intro earlier
      have hboth := (declare_walks outer earlier d).bind fun _ => ih (earlier ++ [d])
      rw [List.append_assoc] at hboth
      exact hboth

/-- A block of its own leads back to the site where it was entered. -/
theorem inScope_walks {body : Analyzing Unit} {outer : Site} {b : Enclosing} {vs : List Visit}
    (hbody : Walks body (⟨[], []⟩ :: outer) (b :: outer) vs) :
    Walks (inScope body) outer outer vs := by
  intro a v c done h hdistinct hok
  obtain ⟨m, hm, rfl⟩ := inScope_eq_ok.mp hok
  have hpush : ({ a with scopes := a.scopes.push } : Analysis).Reached (⟨[], []⟩ :: outer) done :=
    ⟨h.stands.push, h.permitted⟩
  have hend := hbody hpush hdistinct hm
  exact ⟨hend.stands.pop, hend.permitted⟩

/-- Each part of a program is walked as the rules of scoping say. -/
abbrev walking : Claim where
  stmt s x := ∀ b outer, Walks x (b :: outer) (Site.after (b :: outer) s) (s.visits (b :: outer))
  block b x := ∀ outer, Walks x outer outer (b.visits outer)
  stmts body x := ∀ b outer, ∃ implicits,
    Walks x (b :: outer) (⟨b.decls, implicits⟩ :: outer) (stmtsVisits (b :: outer) body)

/-- A condition stands before the block that it guards. -/
private theorem guarded_walks {x : Analyzing Unit} {site : Site} {vs : List Visit} (cond : Expr)
    (hx : Walks x site site vs) :
    Walks (do checkExpr .boolean cond "condition"; x) site site (cond.reads site ++ vs) :=
  (checkExpr_walks site .boolean cond _).bind fun _ => hx

private theorem walking_rules : walking.Rules where
  assign left value span b outer := assign_walks b outer left value span
  compound op left value span b outer := compound_walks (b :: outer) op left value span
  ifThen cond _ _ hbody b outer := guarded_walks cond (hbody (b :: outer))
  ifElse cond _ _ _ _ hbody helse b outer :=
    guarded_walks cond ((hbody (b :: outer)).bind fun _ => helse (b :: outer))
  whileLoop cond _ _ hbody b outer := guarded_walks cond (hbody (b :: outer))
  func _ _ _ hbody b outer := hbody (b :: outer)
  ret _ b outer := .pure () (b :: outer)
  retValue value _ b outer := checkExpr_walks (b :: outer) .integer value _
  intrinsic i args span b outer := intrinsic_walks (b :: outer) i args.args span
  call name args span b outer := call_walks (b :: outer) name args.args span
  block decls _ _ hbody outer := by
    obtain ⟨implicits, hbody⟩ := hbody ⟨decls, []⟩ outer
    exact inScope_walks ((declareAll_walks outer decls []).bind fun _ => hbody)
  nil b outer := ⟨b.implicits, .pure () (b :: outer)⟩
  cons s _ hs hrest b outer := by
    obtain ⟨now, hafter⟩ := Site.after_cons b outer s
    obtain ⟨implicits, hrest⟩ := hrest ⟨b.decls, now⟩ outer
    have hs := hs b outer
    rw [stmtsVisits]
    rw [hafter] at hs ⊢
    exact ⟨implicits, hs.bind fun _ => hrest⟩

/-- **A block that passed analysis was walked as the rules of scoping say.** -/
theorem block_walks (outer : Site) (b : Block) : Walks (block b) outer outer (b.visits outer) :=
  walking_rules.blocks b outer

end Analysis

/-- **What analysis leaves behind is what the visits of the program call for.** -/
theorem Program.reached_of_analyze {p : Program} {r : Resolutions}
    (hdistinct : DistinctVisits p.visits) (h : p.analyze = .ok r) :
    r.Records (bindersOf p.visits) p.occurrences ∧ ∀ v ∈ p.visits, v.Permitted := by
  have hstart : Analysis.start.Reached [] [] := ⟨.start, by simp⟩
  simp only [Program.analyze] at h
  split at h
  · rename_i a hblock
    obtain rfl := Except.ok.inj h
    have hend := Analysis.block_walks [] p.block hstart hdistinct hblock
    exact ⟨hend.stands.records, hend.permitted⟩
  · simp at h

end StackCode
