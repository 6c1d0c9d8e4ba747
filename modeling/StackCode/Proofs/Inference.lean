/-
The rules of typing, and that the types which analysis records satisfy them.

The rules of typing are stated here for given types of the variables (`VarTypes`), with no
regard to the order in which anything is looked at: `Types` for expressions,
`Stmt.WellTyped` for statements.  The order matters in one respect only.  A variable that is
read before it is written to has to be an integer, and this is a condition of its own
(`Program.Typing.firstRead`).

Analysis decides on the type of a variable when it first meets it and never goes back.  That
the types it decided on, `Resolutions.varTypes`, satisfy the rules is shown here.  That
there are such types only if analysis finds them is in `Inference.Completeness`.
-/
import StackCode.Proofs.Resolution

namespace StackCode

/-! ### The rules

A name has its meaning at a `Site`, the blocks around it with what they declare and what was
introduced in them so far.  An assignment may introduce its target, so the target is typed
at the site behind the assignment and the value at the site before it.  Nothing else depends
on where one is.
-/

/-- Types for variables, by the names that declare or introduce them. -/
abbrev VarTypes := Ident → ValueType

/-- The type of what a name stands for.  A function has none. -/
def Binder.type? (τ : VarTypes) (d : Binder) : Option ValueType :=
  match d.kind with
  | .var => some (τ d.name)
  | .registerAlias _ => some .integer
  | .func => none

/-- The type of an expression's value at a site. -/
inductive Types (τ : VarTypes) (site : Site) : Expr → ValueType → Prop where
  | integer (n : UInt64) (span : Span) : Types τ site (.integer n span) .integer
  | boolean (b : Bool) (span : Span) : Types τ site (.boolean b span) .boolean
  | register (reg : Register) (span : Span) : Types τ site (.register reg span) .integer
  | ident {id : Ident} {d : Binder} {σ : ValueType} (visible : site.visible? id.name = some d)
      (known : d.type? τ = some σ) : Types τ site (.ident id) σ
  | unary {op : Operator} {e : Expr} {σ ρ : ValueType} (span : Span) (operand : Types τ site e σ)
      (result : op.unaryType? σ = some ρ) : Types τ site (.unary op e span) ρ
  | binary {op : Operator} {e e' : Expr} {σ σ' ρ : ValueType} (span : Span)
      (left : Types τ site e σ) (right : Types τ site e' σ')
      (result : op.binaryType? σ σ' = some ρ) : Types τ site (.binary op e e' span) ρ

/-- An argument has a type that the intrinsic takes there. -/
def Operand.WellTyped (τ : VarTypes) (site : Site) (arg : Expr) : Operand → Prop
  | register => True
  | integer => Types τ site arg .integer
  | any => ∃ σ, Types τ site arg σ

mutual

/-- Every value in the statement has the type that is called for. -/
def Stmt.WellTyped (τ : VarTypes) (site : Site) : Stmt → Prop
  | .assign target value span =>
    ∃ σ, Types τ (site.after (.assign target value span)) target σ ∧ Types τ site value σ
  | .compound op target value _ =>
    ∃ σ ρ, Types τ site target σ ∧ Types τ site value ρ ∧ op.binaryType? σ ρ = some σ
  | .ifThen cond body _ => Types τ site cond .boolean ∧ body.WellTyped τ site
  | .ifElse cond body _ elseBody _ =>
    Types τ site cond .boolean ∧ body.WellTyped τ site ∧ elseBody.WellTyped τ site
  | .whileLoop cond body _ => Types τ site cond .boolean ∧ body.WellTyped τ site
  | .func _ body _ => body.WellTyped τ site
  | .ret none _ => True
  | .ret (some value) _ => Types τ site value .integer
  | .intrinsic i args _ =>
    ∀ arg operand, (arg, operand) ∈ args.args.zip i.operands → operand.WellTyped τ site arg
  | .call .. => True

def Block.WellTyped (τ : VarTypes) (outer : Site) : Block → Prop
  | ⟨decls, body, _⟩ => stmtsWellTyped τ (⟨decls, []⟩ :: outer) body

def stmtsWellTyped (τ : VarTypes) (site : Site) : List Stmt → Prop
  | [] => True
  | s :: rest => s.WellTyped τ site ∧ stmtsWellTyped τ (site.after s) rest

end

/-- The types satisfy the rules. -/
structure Program.Typing (p : Program) (τ : VarTypes) : Prop where
  wellTyped : p.block.WellTyped τ []
  /-- A variable that is read before anything else happens to it is an integer. -/
  firstRead : ∀ (d : Binder) (o : Occurrence), d.kind = .var → firstOf p.occurrences d = some o →
    o.role.Reads → τ d.name = .integer

/-- Behind a plain assignment, its target stands for what the assignment wrote to. -/
theorem Site.visible?_assign (b : Enclosing) (outer : Site) (id : Ident) :
    Site.visible? (Site.assign id (b :: outer)) id.name =
      (⟨b :: outer, .target, id⟩ : Occurrence).binder? := by
  cases hd : Site.visible? (b :: outer) id.name with
  | some d => simp [Site.assign, Occurrence.binder?, Occurrence.introduces, hd]
  | none =>
      have hfree : b.binder? id.name = none := by
        rw [Site.visible?_cons, Option.or_eq_none_iff] at hd
        exact hd.1
      have hadded := (Analysis.Stands.Adds.introduced hfree).added
      rw [Ident.introduced_name] at hadded
      simp [Site.assign, Occurrence.binder?, Occurrence.introduces, hd, Site.visible?_cons, hadded]

/-! ### What analysis finds satisfies the rules

`HasType` and `Stmt.Typed` speak of what was recorded at spans, `Types` and `Stmt.WellTyped`
of what is visible at sites.  `Resolutions.Records` connects the two: what is recorded for
an occurrence is the symbol of what is visible there.  So each rule of the one is carried
over to the same rule of the other, and only targets of assignments need a word, since they
are looked for behind the statement.
-/

/-- The types that are recorded; a variable that was never met may have any. -/
def Resolutions.varTypes (r : Resolutions) : VarTypes := fun id =>
  (((r.declaration? id).bind fun n => r.symbols[n]?).bind Symbol.type?).getD .integer

section Sound

variable {r : Resolutions} {ds : List Binder} {os : List Occurrence}

theorem Symbol.type?_eq_of_binder {s : Symbol} {σ : ValueType} {τ : VarTypes} (hfits : s.FitsKind)
    (h : s.type? = some σ) (hτ : s.binder.kind = .var → τ s.binder.name = σ) :
    s.binder.type? τ = some σ := by
  cases hkind : s.kind with
  | var =>
      have hdecl : s.binder.kind = .var := Symbol.declKind_of_kind hkind
      simp [Binder.type?, hdecl, hτ hdecl]
  | registerAlias reg =>
      have hdecl : s.binder.kind = .registerAlias reg := Symbol.declKind_of_kind hkind
      simp only [Binder.type?, hdecl, ← h, hfits.type?_of_registerAlias hkind]
  | func => cases h.symm.trans (hfits.type?_of_func hkind)

private theorem Resolutions.varTypes_eq {n : Nat} {s : Symbol} {σ : ValueType}
    (hn : r.Numbers s.binder n) (hs : r.symbols[n]? = some s) (h : s.type? = some σ) :
    r.varTypes s.binder.name = σ := by
  simp [varTypes, hn.declared, hs, h]

/-- What a name stands for has the type that is known of the name. -/
theorem Resolutions.Records.type?_of_hasType (hrecords : r.Records ds os) {o : Occurrence}
    (ho : o ∈ os) {σ : ValueType} (h : HasType r (.ident o.id) σ) :
    ∃ d, o.binder? = some d ∧ d.type? r.varTypes = some σ := by
  obtain ⟨d, n, hd, hn, href⟩ := hrecords.resolved o ho
  cases h with
  | ident hresolved hknown =>
      obtain ⟨s, hs, rfl⟩ := hn.symbol
      obtain rfl := Option.some.inj
        ((Resolutions.resolveSymbol?_of_resolve? href hs).symm.trans hresolved)
      exact ⟨s.binder, hd, Symbol.type?_eq_of_binder (hrecords.fits n s hs) hknown fun _ =>
        Resolutions.varTypes_eq hn hs hknown⟩

theorem Occurrence.visible?_of_binder? {o : Occurrence} {d : Binder} (h : o.binder? = some d)
    (hrole : o.role ≠ .target) : o.site.visible? o.id.name = some d := by
  rwa [Occurrence.binder?, Occurrence.introduces_eq_false hrole] at h

private theorem HasType.types (hrecords : r.Records ds os) {site : Site} {e : Expr} {σ : ValueType}
    (h : HasType r e σ) :
    AllAmong os (e.reads site) → Types r.varTypes site e σ := by
  induction h with
  | integer n span => intro _; exact .integer n span
  | boolean b span => intro _; exact .boolean b span
  | register reg span => intro _; exact .register reg span
  | @ident id s σ resolved known =>
      intro hos
      have ho : (⟨site, .value, id⟩ : Occurrence) ∈ os := hos _ (List.mem_singleton_self _)
      obtain ⟨d, hd, htype⟩ := hrecords.type?_of_hasType ho (.ident resolved known)
      exact .ident (Occurrence.visible?_of_binder? hd (by simp)) htype
  | unary span _ result ih => intro hos; exact .unary span (ih hos) result
  | binary span _ _ result ihl ihr =>
      intro hos
      rw [Expr.reads, Expr.refs, List.map_append] at hos
      exact .binary span (ihl hos.left) (ihr hos.right) result

private theorem operandsTyped_wellTyped (hrecords : r.Records ds os) {site : Site}
    {operands : List Operand} {args : List Expr} (h : List.Forall₂ (OperandTyped r) operands args) :
    AllAmong os (operandVisits site (args.zip operands)) →
      ∀ arg operand, (arg, operand) ∈ args.zip operands →
        operand.WellTyped r.varTypes site arg := by
  induction h with
  | nil =>
      intro _ arg operand hmem
      simp at hmem
  | @cons operand arg operands args head _ ih =>
      intro hos arg' operand' hmem
      rw [List.zip_cons_cons, operandVisits] at hos
      rcases List.mem_cons.mp hmem with heq | hmem
      · obtain ⟨rfl, rfl⟩ := Prod.mk.inj heq
        cases operand' with
        | register => trivial
        | integer => exact HasType.types hrecords head hos.left
        | any =>
            obtain ⟨σ, hσ⟩ := head
            exact ⟨σ, hσ.types hrecords hos.left⟩
      · exact ih hos.right arg' operand' hmem

/-- A target has its type wherever its name stands for what is written to. -/
theorem HasType.types_target (hrecords : r.Records ds os) {site site' : Site} {role : Role}
    {target : Expr} {σ : ValueType} (h : HasType r target σ) (htarget : target.target?.isSome)
    (hos : AllAmong os (target.names site role))
    (hsite : ∀ id d, target = .ident id → (⟨site, role, id⟩ : Occurrence).binder? = some d →
      site'.visible? id.name = some d) : Types r.varTypes site' target σ := by
  cases target with
  | register reg span =>
      cases h with
      | register => exact .register reg span
  | ident id =>
      have ho : (⟨site, role, id⟩ : Occurrence) ∈ os := hos _ (List.mem_singleton_self _)
      obtain ⟨d, hd, htype⟩ := hrecords.type?_of_hasType ho h
      exact .ident (hsite id d rfl hd) htype
  | _ => simp [Expr.target?] at htarget

mutual

theorem Stmt.Typed.wellTyped (hrecords : r.Records ds os) (b : Enclosing) (outer : Site) :
    ∀ {s : Stmt}, s.Typed r → AllAmong os (s.visits (b :: outer)) →
      s.WellTyped r.varTypes (b :: outer)
  | .assign target value span, h, hos => by
      rw [Stmt.Typed] at h
      rw [Stmt.visits] at hos
      obtain ⟨htarget, σ, hl, hv⟩ := h
      rw [Stmt.WellTyped]
      refine ⟨σ, hl.types_target hrecords htarget hos.right ?_, hv.types hrecords hos.left⟩
      intro id d heq hd
      subst heq
      exact (Site.visible?_assign b outer id).trans hd
  | .compound op target value span, h, hos => by
      rw [Stmt.Typed] at h
      rw [Stmt.visits] at hos
      obtain ⟨htarget, σ, ρ, hl, hv, hop⟩ := h
      rw [Stmt.WellTyped]
      refine ⟨σ, ρ, hl.types_target hrecords htarget hos.left ?_, hv.types hrecords hos.right, hop⟩
      intro id d _ hd
      exact Occurrence.visible?_of_binder? hd (by simp)
  | .ifThen cond body span, h, hos => by
      rw [Stmt.Typed] at h
      rw [Stmt.visits] at hos
      rw [Stmt.WellTyped]
      exact ⟨h.1.types hrecords hos.left, h.2.wellTyped hrecords (b :: outer) hos.right⟩
  | .ifElse cond body ifSpan elseBody span, h, hos => by
      rw [Stmt.Typed] at h
      rw [Stmt.visits] at hos
      rw [Stmt.WellTyped]
      exact ⟨h.1.types hrecords hos.left, h.2.1.wellTyped hrecords (b :: outer) hos.right.left,
        h.2.2.wellTyped hrecords (b :: outer) hos.right.right⟩
  | .whileLoop cond body span, h, hos => by
      rw [Stmt.Typed] at h
      rw [Stmt.visits] at hos
      rw [Stmt.WellTyped]
      exact ⟨h.1.types hrecords hos.left, h.2.wellTyped hrecords (b :: outer) hos.right⟩
  | .func name body span, h, hos => by
      rw [Stmt.Typed] at h
      rw [Stmt.visits] at hos
      rw [Stmt.WellTyped]
      exact h.wellTyped hrecords (b :: outer) hos
  | .ret none span, _, _ => by
      rw [Stmt.WellTyped]
      trivial
  | .ret (some value) span, h, hos => by
      rw [Stmt.Typed] at h
      rw [Stmt.visits] at hos
      rw [Stmt.WellTyped]
      exact HasType.types hrecords h hos
  | .intrinsic i args span, h, hos => by
      rw [Stmt.Typed] at h
      rw [Stmt.visits] at hos
      rw [Stmt.WellTyped]
      exact operandsTyped_wellTyped hrecords h hos
  | .call name args span, _, _ => by
      rw [Stmt.WellTyped]
      trivial

/-- A block that is well typed in what analysis left behind is so under the recorded types. -/
theorem Block.Typed.wellTyped (hrecords : r.Records ds os) (outer : Site) :
    ∀ {b : Block}, b.Typed r → AllAmong os (b.visits outer) →
      b.WellTyped r.varTypes outer
  | ⟨decls, body, span⟩, h, hos => by
      rw [Block.Typed] at h
      rw [Block.visits] at hos
      rw [Block.WellTyped]
      exact stmtsTyped_wellTyped hrecords ⟨decls, []⟩ outer h hos.right

theorem stmtsTyped_wellTyped (hrecords : r.Records ds os) (b : Enclosing) (outer : Site) :
    ∀ {body : List Stmt}, stmtsTyped r body →
      AllAmong os (stmtsVisits (b :: outer) body) →
      stmtsWellTyped r.varTypes (b :: outer) body
  | [], _, _ => by
      rw [stmtsWellTyped]
      trivial
  | s :: rest, h, hos => by
      rw [stmtsTyped] at h
      rw [stmtsVisits] at hos
      have hs := h.1.wellTyped hrecords b outer hos.left
      obtain ⟨implicits, hafter⟩ := Site.after_cons b outer s
      rw [stmtsWellTyped]
      rw [hafter] at hos ⊢
      exact ⟨hs, stmtsTyped_wellTyped hrecords ⟨b.decls, implicits⟩ outer h.2 hos.right⟩

end

/-- The recorded type of a variable that was read first is an integer. -/
theorem Resolutions.Records.varTypes_of_firstRead (hrecords : r.Records ds os) {d : Binder}
    {o : Occurrence} (hkind : d.kind = .var) (hfirst : firstOf os d = some o)
    (hreads : o.role.Reads) : r.varTypes d.name = .integer := by
  have ho : o ∈ os := List.mem_of_find?_eq_some hfirst
  have hd : o.binder? = some d := by simpa using List.find?_some hfirst
  obtain ⟨d', n, hd', hn, -⟩ := hrecords.resolved o ho
  obtain rfl := Option.some.inj (hd'.symm.trans hd)
  obtain ⟨s, hs, rfl⟩ := hn.symbol
  have htyped := hrecords.typed hs hkind
  rw [hfirst] at htyped
  cases htype : s.type? with
  | none =>
      rw [htype] at htyped
      exact htyped.elim
  | some σ =>
      rw [htype] at htyped
      rw [Resolutions.varTypes_eq hn hs htype]
      exact htyped hreads

/-- **The types that analysis recorded satisfy the rules.** -/
theorem Program.typing_of_analyze {p : Program} (hnamed : p.WellNamed) (h : p.analyze = .ok r) :
    p.Typing r.varTypes := by
  obtain ⟨hrecords, -, -⟩ := records_of_analyze hnamed h
  refine ⟨?_, ?_⟩
  · exact (typed_of_analyze hnamed h).wellTyped hrecords [] fun _ ho => ho
  · intro d o hkind hfirst hreads
    exact hrecords.varTypes_of_firstRead hkind hfirst hreads

end Sound

end StackCode
