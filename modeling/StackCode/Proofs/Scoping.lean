/-
Lexical scoping.

What the names of a program stand for is read off its tree alone here, with no tables,
numbers or types.  A `Site` in a program is known by the blocks around it.  Each of them
makes visible what it declares, wherever in it the declaration stands, and the variables
that plain assignments directly in it have introduced so far.  A name stands for what the
innermost block says that makes it visible (`Site.visible?`). A plain assignment to a name
that no block around it makes visible introduces a variable (`Occurrence.introduces`).

`visits` lists what analysis meets, in the order in which it meets it: of a block first its
declarations, of a plain assignment the value before the target, of a compound one the
target before the value, and the body of a function where the function is defined.
-/
import StackCode.Analysis
import StackCode.Proofs.Names

namespace StackCode

/-! ### Sites

An `Enclosing` block has its declarations all at once, wherever they stand in it, and the
variables that were introduced so far one after another.  The site behind a statement
differs from the one before it only if the statement is a plain assignment that introduces a
name.
-/

/-- What a name can stand for: a declaration, or a variable that an assignment introduced. -/
structure Binder where
  kind : DeclKind
  /-- The name where it was declared or introduced. -/
  name : Ident
  implicit : Bool
deriving DecidableEq, Repr

/-- What a declaration makes of its name. -/
def Decl.binder (d : Decl) : Binder := ⟨d.kind, d.name, false⟩

@[simp] theorem Decl.binder_name (d : Decl) : d.binder.name = d.name := rfl

/-- What a plain assignment makes of a name that is not visible. -/
def Ident.introduced (id : Ident) : Binder := ⟨.var, id, true⟩

@[simp] theorem Ident.introduced_name (id : Ident) : id.introduced.name = id := rfl

/-- A block around a site. -/
structure Enclosing where
  /-- What the block declares, before the site and behind it. -/
  decls : List Decl
  /-- The variables that plain assignments directly in the block have introduced so far. -/
  implicits : List Ident
deriving DecidableEq, Repr

/-- What a block makes of a name. -/
def Enclosing.binder? (b : Enclosing) (name : String) : Option Binder :=
  ((b.decls.find? (·.name.name == name)).map Decl.binder).or
    ((b.implicits.find? (·.name == name)).map Ident.introduced)

/-- The blocks around a site, the innermost first. -/
abbrev Site := List Enclosing

namespace Site

/-- What a name stands for at a site: the innermost block that makes it visible decides. -/
def visible? (site : Site) (name : String) : Option Binder := site.findSome? (·.binder? name)

theorem visible?_cons (b : Enclosing) (outer : Site) (name : String) :
    visible? (b :: outer) name = (b.binder? name).or (visible? outer name) := by
  rw [visible?, List.findSome?_cons]
  cases b.binder? name <;> rfl

/-- The site behind a plain assignment to a name. -/
def assign (id : Ident) : Site → Site
  | [] => []
  | b :: outer =>
    if (visible? (b :: outer) id.name).isNone then
      { b with implicits := b.implicits ++ [id] } :: outer
    else b :: outer

end Site

/-- The name that a plain assignment writes to. -/
def Stmt.assigned? : Stmt → Option Ident
  | .assign (.ident id) _ _ => some id
  | _ => none

/-- The site behind a statement. -/
def Site.after (site : Site) (s : Stmt) : Site :=
  match s.assigned? with
  | some id => site.assign id
  | none => site

/-! ### Occurrences

A name is looked for at the site before it.  The target of a plain assignment stands for
what it introduces, if it is visible nowhere; so `binder?` has an answer for every target.
-/

/-- What a name is written for. -/
inductive Role where
  /-- To be read in an expression. -/
  | value
  /-- To be written to by `=`. -/
  | target
  /-- To be read and written to by a compound assignment. -/
  | compound
  /-- To be called. -/
  | callee
  /-- To name a register to an intrinsic. -/
  | register
deriving DecidableEq, Repr

/-- A name that refers to something, and the site where it stands. -/
structure Occurrence where
  /-- The site before the name; an assignment that the name is the target of comes after it. -/
  site : Site
  role : Role
  id : Ident
deriving DecidableEq, Repr

namespace Occurrence

/-- The name is written to at a site where it stands for nothing. -/
def introduces (o : Occurrence) : Bool :=
  o.role = .target && (o.site.visible? o.id.name).isNone

/-- What the name stands for. -/
def binder? (o : Occurrence) : Option Binder :=
  if o.introduces then some o.id.introduced else o.site.visible? o.id.name

end Occurrence

/-! ### What analysis meets

A `Visit` is a declaration or a use.  The order matters for two things: which assignment
introduces a variable, and whether a variable is read before it is written to.
-/

/-- Something that analysis meets. -/
inductive Visit where
  /-- A declaration, with those of the same block before it. -/
  | declares (earlier : List Decl) (d : Decl)
  | uses (o : Occurrence)
deriving DecidableEq, Repr

namespace Visit

def use? : Visit → Option Occurrence
  | declares .. => none
  | uses o => some o

/-- What comes to stand for something here. -/
def binder? : Visit → Option Binder
  | declares _ d => some d.binder
  | uses o => if o.introduces then some o.id.introduced else none

end Visit

/-- The names among visits that refer to something. -/
def occurrencesOf (vs : List Visit) : List Occurrence := vs.filterMap Visit.use?

/-- What came to stand for something among visits. -/
def bindersOf (vs : List Visit) : List Binder := vs.filterMap Visit.binder?

/-- The names that an expression reads. -/
def Expr.reads (site : Site) (e : Expr) : List Visit :=
  e.refs.map fun id => .uses ⟨site, .value, id⟩

/-- The name that an expression is, if it is one. -/
def Expr.names (site : Site) (role : Role) : Expr → List Visit
  | ident id => [.uses ⟨site, role, id⟩]
  | binary .. | unary .. | integer .. | boolean .. | register .. => []

/-- The names in an argument. -/
def Operand.visits (site : Site) (arg : Expr) : Operand → List Visit
  | register => arg.names site .register
  | integer | any => arg.reads site

/-- The names in arguments. -/
def operandVisits (site : Site) : List (Expr × Operand) → List Visit
  | [] => []
  | (arg, operand) :: rest => operand.visits site arg ++ operandVisits site rest

/-- The declarations of a block, behind those in `earlier`. -/
def declVisits (earlier : List Decl) : List Decl → List Visit
  | [] => []
  | d :: rest => .declares earlier d :: declVisits (earlier ++ [d]) rest

mutual

def Stmt.visits (site : Site) : Stmt → List Visit
  | .assign target value _ => value.reads site ++ target.names site .target
  | .compound _ target value _ => target.names site .compound ++ value.reads site
  | .ifThen cond body _ => cond.reads site ++ body.visits site
  | .ifElse cond body _ elseBody _ =>
    cond.reads site ++ (body.visits site ++ elseBody.visits site)
  | .whileLoop cond body _ => cond.reads site ++ body.visits site
  | .func _ body _ => body.visits site
  | .ret none _ => []
  | .ret (some value) _ => value.reads site
  | .intrinsic i args _ => operandVisits site (args.args.zip i.operands)
  | .call name _ _ => [.uses ⟨site, .callee, name⟩]

/-- What analysis meets in a block at a site. -/
def Block.visits (outer : Site) : Block → List Visit
  | ⟨decls, body, _⟩ => declVisits [] decls ++ stmtsVisits (⟨decls, []⟩ :: outer) body

def stmtsVisits (site : Site) : List Stmt → List Visit
  | [] => []
  | s :: rest => s.visits site ++ stmtsVisits (site.after s) rest

end

/-- What analysis meets in a program. -/
def Program.visits (p : Program) : List Visit := p.block.visits []

/-- The names in a program that refer to something, in the order of its `visits`. -/
def Program.occurrences (p : Program) : List Occurrence := occurrencesOf p.visits

/-! ### The rules of scoping

`Permitted` is about one visit and `WellShaped` about the shape of statements; neither knows
of types.  A function may be called and nothing else, and only an alias names a register to
an intrinsic.
-/

/-- What a name may stand for where it is written for this. -/
def Role.Allows : Role → DeclKind → Prop
  | value, kind | target, kind | compound, kind => kind ≠ .func
  | callee, kind => kind = .func
  | register, kind => ∃ r, kind = .registerAlias r

/-- No block declares a name twice, and every name stands for something that is allowed there. -/
def Visit.Permitted : Visit → Prop
  | declares earlier d => ∀ e ∈ earlier, e.name.name ≠ d.name.name
  | uses o => ∃ d, o.binder? = some d ∧ o.role.Allows d.kind

mutual

/-- Only names and registers are written to, and every intrinsic and call has its arguments. -/
def Stmt.WellShaped : Stmt → Prop
  | .assign target _ _ => target.target?.isSome
  | .compound _ target _ _ => target.target?.isSome
  | .ifThen _ body _ => body.WellShaped
  | .ifElse _ body _ elseBody _ => body.WellShaped ∧ elseBody.WellShaped
  | .whileLoop _ body _ => body.WellShaped
  | .func _ body _ => body.WellShaped
  | .ret .. => True
  | .intrinsic i args _ =>
    args.args.length = i.arity ∧
      ∀ arg operand, (arg, operand) ∈ args.args.zip i.operands → operand = .register →
        arg.target?.isSome
  | .call _ args _ => args.args = []

def Block.WellShaped : Block → Prop
  | ⟨_, body, _⟩ => stmtsWellShaped body

def stmtsWellShaped : List Stmt → Prop
  | [] => True
  | s :: rest => s.WellShaped ∧ stmtsWellShaped rest

end

/--
A program that keeps all rules but those about types: its visits are `Permitted`, its
statements `WellShaped`.
-/
structure Program.WellScoped (p : Program) : Prop where
  shape : p.block.WellShaped
  names : ∀ v ∈ p.visits, v.Permitted

/-! ### Visits in pieces

Lemmas by which `occurrencesOf` and `bindersOf` go through the definition of `visits`; those
that always apply are tagged for `simp`.
-/

@[simp] theorem occurrencesOf_nil : occurrencesOf [] = [] := rfl

@[simp] theorem occurrencesOf_append (vs ws : List Visit) :
    occurrencesOf (vs ++ ws) = occurrencesOf vs ++ occurrencesOf ws := List.filterMap_append

@[simp] theorem occurrencesOf_uses (o : Occurrence) (vs : List Visit) :
    occurrencesOf (.uses o :: vs) = o :: occurrencesOf vs := rfl

@[simp] theorem occurrencesOf_declares (earlier : List Decl) (d : Decl) (vs : List Visit) :
    occurrencesOf (.declares earlier d :: vs) = occurrencesOf vs := rfl

@[simp] theorem bindersOf_nil : bindersOf [] = [] := rfl

@[simp] theorem bindersOf_append (vs ws : List Visit) :
    bindersOf (vs ++ ws) = bindersOf vs ++ bindersOf ws := List.filterMap_append

@[simp] theorem bindersOf_declares (earlier : List Decl) (d : Decl) (vs : List Visit) :
    bindersOf (.declares earlier d :: vs) = d.binder :: bindersOf vs := rfl

theorem bindersOf_introduces {o : Occurrence} (h : o.introduces = true) :
    bindersOf [.uses o] = [o.id.introduced] := by
  simp [bindersOf, Visit.binder?, h]

theorem bindersOf_not_introduces {o : Occurrence} (h : o.introduces = false) :
    bindersOf [.uses o] = [] := by
  simp [bindersOf, Visit.binder?, h]

/-- Only the `target` of a plain assignment introduces anything. -/
theorem Occurrence.introduces_eq_false {o : Occurrence} (h : o.role ≠ .target) :
    o.introduces = false := by
  simp [Occurrence.introduces, h]

theorem Occurrence.introduces_iff {o : Occurrence} :
    o.introduces = true ↔ o.role = .target ∧ o.site.visible? o.id.name = none := by
  simp [Occurrence.introduces]

theorem Expr.occurrencesOf_reads (site : Site) (e : Expr) :
    occurrencesOf (e.reads site) = e.refs.map fun id => ⟨site, .value, id⟩ := by
  simp [occurrencesOf, Expr.reads, List.filterMap_map, Function.comp_def, Visit.use?]

theorem Expr.bindersOf_reads (site : Site) (e : Expr) : bindersOf (e.reads site) = [] := by
  simp [bindersOf, Expr.reads, List.filterMap_map, Function.comp_def, Visit.binder?,
    Occurrence.introduces]

theorem Expr.bindersOf_names (site : Site) {role : Role} (h : role ≠ .target) (e : Expr) :
    bindersOf (e.names site role) = [] := by
  cases e with
  | ident id => exact bindersOf_not_introduces (Occurrence.introduces_eq_false h)
  | _ => rfl

private theorem Operand.bindersOf_visits (site : Site) (arg : Expr) (operand : Operand) :
    bindersOf (operand.visits site arg) = [] := by
  cases operand with
  | register => exact arg.bindersOf_names site (by simp)
  | integer => exact arg.bindersOf_reads site
  | any => exact arg.bindersOf_reads site

theorem bindersOf_operandVisits (site : Site) :
    ∀ args : List (Expr × Operand), bindersOf (operandVisits site args) = []
  | [] => rfl
  | (arg, operand) :: rest => by
      rw [operandVisits, bindersOf_append, Operand.bindersOf_visits, bindersOf_operandVisits]
      rfl

theorem occurrencesOf_declVisits (decls : List Decl) :
    ∀ earlier, occurrencesOf (declVisits earlier decls) = [] := by
  induction decls with
  | nil => intro earlier; rfl
  | cons d rest ih => intro earlier; exact ih (earlier ++ [d])

theorem bindersOf_declVisits (decls : List Decl) :
    ∀ earlier, bindersOf (declVisits earlier decls) = decls.map Decl.binder := by
  induction decls with
  | nil => intro earlier; rfl
  | cons d rest ih =>
      intro earlier
      rw [declVisits, bindersOf_declares, ih, List.map_cons]

end StackCode
