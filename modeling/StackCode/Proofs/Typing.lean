/-
What a program that passed analysis is known to satisfy.

Analysis types a name when it meets it, and goes on changing what is known of other names
after that.  The rules here (`HasType`, `Stmt.Typed`) say what it means to be well typed
against the resolutions as they are in the end.  That the two agree is the main result
(`Program.typed_of_analyze`): a type that was used once is never changed, and the place of a
name is recorded once, so what was checked on the way still holds when the walk is over
(`Resolutions.Keeps`).
-/
import Mathlib.Data.List.Forall2
import StackCode.Proofs.Trace

namespace StackCode

open Sequencing

/-! ### The rules

They know of no order.  A name has the type of its symbol, an operator maps types to a type,
and each statement says which type it calls for.
-/

/-- The type of an expression's value, by the operators' `unaryType?` and `binaryType?`. -/
inductive HasType (r : Resolutions) : Expr → ValueType → Prop where
  | integer (n : UInt64) (span : Span) : HasType r (.integer n span) .integer
  | boolean (b : Bool) (span : Span) : HasType r (.boolean b span) .boolean
  | register (reg : Register) (span : Span) : HasType r (.register reg span) .integer
  /-- A variable or an alias has the type that is known of it. -/
  | ident {id : Ident} {s : Symbol} {τ : ValueType} (resolved : r.resolveSymbol? id = some s)
      (known : s.type? = some τ) : HasType r (.ident id) τ
  | unary {op : Operator} {e : Expr} {τ σ : ValueType} (span : Span) (operand : HasType r e τ)
      (result : op.unaryType? τ = some σ) : HasType r (.unary op e span) σ
  | binary {op : Operator} {e e' : Expr} {τ τ' σ : ValueType} (span : Span)
      (left : HasType r e τ) (right : HasType r e' τ') (result : op.binaryType? τ τ' = some σ) :
      HasType r (.binary op e e' span) σ

/-- The expression is a register or an alias of one. -/
inductive NamesRegister (r : Resolutions) : Expr → Prop where
  | register (reg : Register) (span : Span) : NamesRegister r (.register reg span)
  | ident {id : Ident} {s : Symbol} {reg : Register} (resolved : r.resolveSymbol? id = some s)
      (known : s.kind = .registerAlias reg) : NamesRegister r (.ident id)

/-- The argument is what the intrinsic takes there, as `Intrinsic.operands` says. -/
def OperandTyped (r : Resolutions) : Operand → Expr → Prop
  | .register, arg => NamesRegister r arg
  | .integer, arg => HasType r arg .integer
  | .any, arg => ∃ τ, HasType r arg τ

mutual

/-- Every value in the statement has the type that is called for. -/
def Stmt.Typed (r : Resolutions) : Stmt → Prop
  | .assign target value _ =>
    target.target?.isSome ∧ ∃ τ, HasType r target τ ∧ HasType r value τ
  | .compound op target value _ =>
    target.target?.isSome ∧
      ∃ τ σ, HasType r target τ ∧ HasType r value σ ∧ op.binaryType? τ σ = some τ
  | .ifThen cond body _ => HasType r cond .boolean ∧ body.Typed r
  | .ifElse cond body _ elseBody _ => HasType r cond .boolean ∧ body.Typed r ∧ elseBody.Typed r
  | .whileLoop cond body _ => HasType r cond .boolean ∧ body.Typed r
  | .func _ body _ => body.Typed r
  | .ret none _ => True
  | .ret (some value) _ => HasType r value .integer
  | .intrinsic i args _ => List.Forall₂ (OperandTyped r) i.operands args.args
  | .call name args _ => (∃ s, r.resolveSymbol? name = some s ∧ s.kind = .func) ∧ args.args = []

def Block.Typed (r : Resolutions) : Block → Prop
  | ⟨_, body, _⟩ => stmtsTyped r body

def stmtsTyped (r : Resolutions) : List Stmt → Prop
  | [] => True
  | s :: rest => s.Typed r ∧ stmtsTyped r rest

end

/-! ### Later changes keep types

A type depends on the resolutions only through the names in the tree.  So it is enough that
these stand for the same settled symbols afterwards, and that is what `Keeps` says.
-/

section Keep

variable {r r' : Resolutions}

theorem Resolutions.Keeps.left {ids ids' : List Ident} (h : r.Keeps r' (ids ++ ids')) :
    r.Keeps r' ids := fun id hid => h id (List.mem_append_left _ hid)

theorem Resolutions.Keeps.right {ids ids' : List Ident} (h : r.Keeps r' (ids ++ ids')) :
    r.Keeps r' ids' := fun id hid => h id (List.mem_append_right _ hid)

private theorem HasType.keep {e : Expr} {τ : ValueType} (ht : HasType r e τ) :
    r.Keeps r' e.refs → HasType r' e τ := by
  induction ht with
  | integer n span => intro _; exact .integer n span
  | boolean b span => intro _; exact .boolean b span
  | register reg span => intro _; exact .register reg span
  | ident resolved known =>
      intro h
      exact .ident (h _ List.mem_cons_self _ (Symbol.settled_of_type? known) resolved) known
  | unary span _ result ih => intro h; exact .unary span (ih h) result
  | binary span _ _ result ihl ihr => intro h; exact .binary span (ihl h.left) (ihr h.right) result

private theorem NamesRegister.keep {e : Expr} (hreg : NamesRegister r e) (h : r.Keeps r' e.refs) :
    NamesRegister r' e := by
  cases hreg with
  | register reg span => exact .register reg span
  | @ident id s reg resolved known =>
      have hsettled : s.Settled := Symbol.settled_of_kind_ne (by simp [known])
      exact .ident (h id List.mem_cons_self s hsettled resolved) known

private theorem OperandTyped.keep {operand : Operand} {arg : Expr} (ht : OperandTyped r operand arg)
    (h : r.Keeps r' arg.refs) : OperandTyped r' operand arg := by
  cases operand with
  | register => exact NamesRegister.keep ht h
  | integer => exact HasType.keep ht h
  | any =>
      obtain ⟨τ, ht⟩ := ht
      exact ⟨τ, ht.keep h⟩

private theorem operandsTyped_keep {operands : List Operand} {args : List Expr}
    (ht : List.Forall₂ (OperandTyped r) operands args) :
    r.Keeps r' (exprsRefs args) → List.Forall₂ (OperandTyped r') operands args := by
  induction ht with
  | nil => intro _; exact .nil
  | cons head _ ih => intro h; exact .cons (head.keep h.left) (ih h.right)

mutual

theorem Stmt.Typed.keep : ∀ {s : Stmt}, s.Typed r → r.Keeps r' s.refs → s.Typed r'
  | .assign .., ht, h => by
      rw [Stmt.Typed] at ht ⊢
      rw [Stmt.refs] at h
      obtain ⟨htarget, τ, hl, hv⟩ := ht
      exact ⟨htarget, τ, hl.keep h.left, hv.keep h.right⟩
  | .compound .., ht, h => by
      rw [Stmt.Typed] at ht ⊢
      rw [Stmt.refs] at h
      obtain ⟨htarget, τ, σ, hl, hv, hop⟩ := ht
      exact ⟨htarget, τ, σ, hl.keep h.left, hv.keep h.right, hop⟩
  | .ifThen .., ht, h => by
      rw [Stmt.Typed] at ht ⊢
      rw [Stmt.refs] at h
      exact ⟨ht.1.keep h.left, ht.2.keep h.right⟩
  | .ifElse .., ht, h => by
      rw [Stmt.Typed] at ht ⊢
      rw [Stmt.refs] at h
      exact ⟨ht.1.keep h.left, ht.2.1.keep h.right.left, ht.2.2.keep h.right.right⟩
  | .whileLoop .., ht, h => by
      rw [Stmt.Typed] at ht ⊢
      rw [Stmt.refs] at h
      exact ⟨ht.1.keep h.left, ht.2.keep h.right⟩
  | .func _ body _, ht, h => by
      rw [Stmt.Typed] at ht ⊢
      rw [Stmt.refs] at h
      exact ht.keep h
  | .ret none _, _, _ => by
      rw [Stmt.Typed]
      trivial
  | .ret (some value) _, ht, h => by
      rw [Stmt.Typed] at ht ⊢
      rw [Stmt.refs] at h
      exact HasType.keep ht h
  | .intrinsic .., ht, h => by
      rw [Stmt.Typed] at ht ⊢
      rw [Stmt.refs] at h
      exact operandsTyped_keep ht h
  | .call .., ht, h => by
      rw [Stmt.Typed] at ht ⊢
      rw [Stmt.refs] at h
      -- A function has no type to wait for, so it is settled from the start.
      obtain ⟨⟨s, hres, hkind⟩, hargs⟩ := ht
      exact ⟨⟨s, h _ List.mem_cons_self s (Symbol.settled_of_func hkind) hres, hkind⟩, hargs⟩

theorem Block.Typed.keep : ∀ {b : Block}, b.Typed r → r.Keeps r' b.refs → b.Typed r'
  | ⟨_, body, _⟩, ht, h => by
      rw [Block.Typed] at ht ⊢
      rw [Block.refs] at h
      exact stmtsTyped_keep ht h

theorem stmtsTyped_keep :
    ∀ {body : List Stmt}, stmtsTyped r body → r.Keeps r' (stmtsRefs body) → stmtsTyped r' body
  | [], _, _ => by
      rw [stmtsTyped]
      trivial
  | s :: rest, ht, h => by
      rw [stmtsTyped] at ht ⊢
      rw [stmtsRefs] at h
      exact ⟨ht.1.keep h.left, stmtsTyped_keep ht.2 h.right⟩

end

end Keep

/-! ### Names that were looked up

A name that was met stands for a symbol that has a type from then on.  `fixType` writes one
if there is none, so the type is that of the symbol or the new one.
-/

/-- The names stand at different places, so what is recorded for one says nothing of another. -/
abbrev DistinctSpans (ids : List Ident) : Prop := (ids.map (·.span)).Nodup

theorem DistinctSpans.append {ids ids' : List Ident} (h : DistinctSpans (ids ++ ids')) :
    DistinctSpans ids ∧ DistinctSpans ids' ∧ SpansApart ids ids' := by
  rw [DistinctSpans, List.map_append, List.nodup_append] at h
  refine ⟨h.1, h.2.1, ?_⟩
  intro id hid id' hid'
  exact h.2.2 _ (List.mem_map_of_mem hid) _ (List.mem_map_of_mem hid')

namespace Resolutions

variable {r : Resolutions} {id : Ident} {n : Nat} {s : Symbol}

theorem resolveSymbol?_of_resolve? (hres : r.resolve? id = some n)
    (hsym : r.symbols[n]? = some s) : r.resolveSymbol? id = some s := by
  rw [resolveSymbol?, hres, Option.bind_some, hsym]

theorem resolve?_bindReference (r : Resolutions) (id : Ident) (n : Nat) :
    (r.bindReference id.span n).resolve? id = some n := by
  simp [resolve?, bindReference]

/-- What was met under a name stands for it, with the type that `fixType` leaves it with. -/
theorem hasType_meet {type τ : ValueType} (hsym : r.symbols[n]? = some s)
    (htype : (s.fixType type).type? = some τ) (id : Ident) :
    HasType (r.meet id n type) (.ident id) τ := by
  have hsym : (r.bindReference id.span n).symbols[n]? = some s := hsym
  exact .ident (resolveSymbol?_of_resolve? (resolve?_bindReference r id n)
    (getElem?_fixType_self hsym type)) htype

end Resolutions

/-- A symbol that can be read has the type `readType` that it is read with. -/
theorem Symbol.type?_of_read {s : Symbol} (hfits : s.FitsKind) (hkind : s.kind ≠ .func) :
    (s.fixType .integer).type? = some s.readType := by
  cases hk : s.kind with
  | var =>
      cases htype : s.type? with
      | none => rw [type?_fixType hk htype, readType, hk, htype]; rfl
      | some τ => rw [fixType_of_settled (settled_of_type? htype), readType, hk, htype]; rfl
  | registerAlias reg =>
      rw [fixType_of_settled (settled_of_kind_ne (by simp [hk])), readType, hk]
      exact hfits.type?_of_registerAlias hk
  | func => exact absurd hk hkind

/-- A symbol that takes a value (`Takes`) has the type of the value from then on. -/
theorem Symbol.type?_of_takes {s : Symbol} {τ : ValueType} (hfits : s.FitsKind)
    (htakes : s.Takes τ) : (s.fixType τ).type? = some τ := by
  cases hk : s.kind with
  | var =>
      cases htype : s.type? with
      | none => exact type?_fixType hk htype τ
      | some ρ =>
          rw [fixType_of_settled (settled_of_type? htype), htype]
          simpa [Takes, hk, htype] using htakes
  | registerAlias reg =>
      obtain rfl : τ = .integer := by simpa [Takes, hk] using htakes
      rw [fixType_of_settled (settled_of_kind_ne (by simp [hk]))]
      exact hfits.type?_of_registerAlias hk
  | func => exact absurd hk htakes.kind_ne

namespace Analysis

variable {a b : Analysis}

/-! ### Expressions

The left operand was typed before the right one was looked at.  Its type is kept because the
names on the right stand elsewhere (`DistinctSpans.append`).
-/

theorem ReadsName.typed {id : Ident} {x : Analyzing ValueType} (hx : ReadsName id x)
    (ha : a.Sound) {τ : ValueType} (h : x a = .ok τ b) : HasType b.resolutions (.ident id) τ := by
  obtain ⟨n, -, hkind, rfl, rfl⟩ := hx.eq_ok.mp h
  have hsym := Resolutions.getElem?_of_kind hkind
  exact Resolutions.hasType_meet hsym (Symbol.type?_of_read (ha.fits _ _ hsym) hkind) id

theorem unaryResult_eq_ok {op : Operator} {τ σ : ValueType} {span : Span}
    (h : unaryResult op τ span a = .ok σ b) : op.unaryType? τ = some σ ∧ a = b := by
  unfold unaryResult at h
  generalize op.unaryType? τ = result at h
  cases result with
  | some type =>
      obtain ⟨rfl, rfl⟩ := pure_eq_ok.mp h
      exact ⟨rfl, rfl⟩
  | none => simp [wrongType] at h

theorem binaryResult_eq_ok {op : Operator} {τ τ' σ : ValueType} {span : Span}
    (h : binaryResult op τ τ' span a = .ok σ b) : op.binaryType? τ τ' = some σ ∧ a = b := by
  unfold binaryResult at h
  generalize op.binaryType? τ τ' = result at h
  cases result with
  | some type =>
      obtain ⟨rfl, rfl⟩ := pure_eq_ok.mp h
      exact ⟨rfl, rfl⟩
  | none => simp [wrongType] at h

/-- **An expression has the type that `exprType` found for it.** -/
theorem exprType_typed : ∀ {e : Expr} {τ : ValueType} {a b : Analysis}, a.Sound →
    DistinctSpans e.refs → exprType e a = .ok τ b → HasType b.resolutions e τ
  | .integer n span, τ, a, b, _, _, h => by
      obtain ⟨rfl, -⟩ := pure_eq_ok.mp h
      exact .integer n span
  | .boolean v span, τ, a, b, _, _, h => by
      obtain ⟨rfl, -⟩ := pure_eq_ok.mp h
      exact .boolean v span
  | .register reg span, τ, a, b, _, _, h => by
      obtain ⟨rfl, -⟩ := pure_eq_ok.mp h
      exact .register reg span
  | .ident id, τ, a, b, ha, _, h => (identType_reads id).typed ha h
  | .unary op operand span, τ, a, b, ha, hd, h => by
      obtain ⟨type, m, hoperand, h⟩ := bind_eq_ok.mp h
      obtain ⟨hresult, rfl⟩ := unaryResult_eq_ok h
      exact .unary span (exprType_typed ha hd hoperand) hresult
  | .binary op left right span, τ, a, b, ha, hd, h => by
      obtain ⟨l, m, hleft, h⟩ := bind_eq_ok.mp h
      obtain ⟨r, n, hright, h⟩ := bind_eq_ok.mp h
      obtain ⟨hresult, rfl⟩ := binaryResult_eq_ok h
      obtain ⟨hdl, hdr, hapart⟩ := DistinctSpans.append hd
      have hm := (exprType_traces left).sound ha hleft
      have hkeep := (exprType_traces right).keeps hm hright hapart
      exact .binary span ((exprType_typed ha hdl hleft).keep hkeep) (exprType_typed hm hdr hright)
        hresult

private theorem checkExpr_typed {expected : ValueType} {e : Expr} {what : String} (ha : a.Sound)
    (hd : DistinctSpans e.refs) (h : checkExpr expected e what a = .ok () b) :
    HasType b.resolutions e expected := by
  obtain ⟨found, m, hexpr, h⟩ := bind_eq_ok.mp h
  obtain ⟨rfl, rfl⟩ := expectType_eq_ok.mp h
  exact exprType_typed ha hd hexpr

/-! ### Assignments

In a plain assignment the value comes first and is kept while the target is written to; in a
compound one it is the other way round.
-/

/-- A name that `assignIdent` wrote to has the type of the value. -/
theorem assignIdent_typed {id : Ident} {τ : ValueType} {span : Span} (ha : a.Sound)
    (h : assignIdent id τ span a = .ok () b) : HasType b.resolutions (.ident id) τ := by
  rcases assignIdent_eq_ok h with ⟨n, m, -, hdeclare, rfl⟩ | ⟨n, -, htakes, rfl⟩
  · obtain ⟨hsym, hkind, htype⟩ := symbol_of_declare hdeclare
    exact Resolutions.hasType_meet hsym (Symbol.type?_fixType hkind (htype rfl) τ) id
  · have hsym := Resolutions.getElem?_of_kind htakes.kind_ne
    exact Resolutions.hasType_meet hsym (Symbol.type?_of_takes (ha.fits _ _ hsym) htakes) id

theorem target?_eq_register {e : Expr} {reg : Register} (h : e.target? = some (.register reg)) :
    ∃ span, e = .register reg span := by
  cases e <;> simp_all [Expr.target?]

theorem target?_eq_ident {e : Expr} {id : Ident} (h : e.target? = some (.ident id)) :
    e = .ident id := by
  cases e <;> simp_all [Expr.target?]

private theorem assign_typed {left value : Expr} {span : Span} (ha : a.Sound)
    (hd : DistinctSpans (left.refs ++ value.refs)) (h : assign left value a = .ok () b) :
    (Stmt.assign left value span).Typed b.resolutions := by
  obtain ⟨t, m, htarget, hrest⟩ := bind_eq_ok.mp h
  obtain ⟨ht, rfl⟩ := target_eq_ok htarget
  obtain ⟨τ, m, hvalue, hwrite⟩ := bind_eq_ok.mp hrest
  obtain ⟨-, hdv, hapart⟩ := hd.append
  have hv := exprType_typed ha hdv hvalue
  have hm := (exprType_traces value).sound ha hvalue
  rw [Stmt.Typed]
  refine ⟨by rw [ht]; rfl, τ, ?_⟩
  cases t with
  | register reg =>
      obtain ⟨rfl, rfl⟩ := expectType_eq_ok.mp hwrite
      obtain ⟨span, rfl⟩ := target?_eq_register ht
      exact ⟨.register reg span, hv⟩
  | ident id =>
      obtain rfl := target?_eq_ident ht
      have hkeep := (assignIdent_traces id τ value.span).keeps hm hwrite hapart.symm
      exact ⟨assignIdent_typed hm hwrite, hv.keep hkeep⟩

private theorem compoundTargetType_typed {e : Expr} {t : Target} {τ : ValueType} (ha : a.Sound)
    (ht : e.target? = some t) (h : compoundTargetType t a = .ok τ b) :
    HasType b.resolutions e τ := by
  cases t with
  | register reg =>
      obtain ⟨span, rfl⟩ := target?_eq_register ht
      obtain ⟨rfl, rfl⟩ := pure_eq_ok.mp h
      exact .register reg span
  | ident id =>
      obtain rfl := target?_eq_ident ht
      exact (compoundTargetType_reads id).typed ha h

private theorem compound_typed {op : Operator} {left value : Expr} {span : Span} (ha : a.Sound)
    (hd : DistinctSpans (left.refs ++ value.refs)) (h : compound op left value span a = .ok () b) :
    (Stmt.compound op left value span).Typed b.resolutions := by
  obtain ⟨t, m, htarget, h⟩ := bind_eq_ok.mp h
  obtain ⟨ht, rfl⟩ := target_eq_ok htarget
  obtain ⟨τ, m, hleft, h⟩ := bind_eq_ok.mp h
  obtain ⟨σ, n, hvalue, h⟩ := bind_eq_ok.mp h
  obtain ⟨result, n', hresult, h⟩ := bind_eq_ok.mp h
  obtain ⟨hop, rfl⟩ := binaryResult_eq_ok hresult
  obtain ⟨rfl, rfl⟩ := expectType_eq_ok.mp h
  obtain ⟨-, hdv, hapart⟩ := hd.append
  have hm := (compoundTargetType_traces ht).sound ha hleft
  have hl := (compoundTargetType_typed ha ht hleft).keep
    ((exprType_traces value).keeps hm hvalue hapart)
  rw [Stmt.Typed]
  exact ⟨by rw [ht]; rfl, τ, σ, hl, exprType_typed hm hdv hvalue, hop⟩

/-! ### Intrinsics and calls

`checkOperands` goes along arguments and operands paired off, and there are as many of the
one as of the other.
-/

private theorem isRegister_typed {e : Expr} (h : isRegister e a = .ok true b) :
    NamesRegister b.resolutions e := by
  cases e with
  | register reg span => exact .register reg span
  | ident id =>
      obtain ⟨n, -, hreg, rfl⟩ := isRegister_eq_ok.mp h
      cases hkind : (a.resolutions.symbol n).kind with
      | registerAlias reg =>
          have hsym : a.resolutions.symbols[n]? = some (a.resolutions.symbol n) :=
            Resolutions.getElem?_of_kind (by simp [hkind])
          exact .ident (Resolutions.resolveSymbol?_of_resolve?
            (Resolutions.resolve?_bindReference _ id n) hsym) hkind
      | var => simp [Symbol.register?, hkind] at hreg
      | func => simp [Symbol.register?, hkind] at hreg
  | integer n span => simp [isRegister] at h
  | boolean v span => simp [isRegister] at h
  | unary op operand span => simp [isRegister] at h
  | binary op left right span => simp [isRegister] at h

private theorem checkOperand_typed {i : Intrinsic} {index : Nat} {arg : Expr} {operand : Operand}
    (ha : a.Sound) (hd : DistinctSpans arg.refs)
    (h : checkOperand i index arg operand a = .ok () b) :
    OperandTyped b.resolutions operand arg := by
  cases operand with
  | register =>
      obtain ⟨found, m, hreg, h⟩ := bind_eq_ok.mp h
      cases found with
      | true =>
          obtain ⟨-, rfl⟩ := pure_eq_ok.mp h
          exact isRegister_typed hreg
      | false => simp [wrongType] at h
  | integer => exact checkExpr_typed ha hd h
  | any =>
      obtain ⟨τ, m, hexpr, h⟩ := bind_eq_ok.mp h
      obtain ⟨-, rfl⟩ := pure_eq_ok.mp h
      exact ⟨τ, exprType_typed ha hd hexpr⟩

private theorem checkOperands_typed {i : Intrinsic} :
    ∀ {index : Nat} {args : List Expr} {operands : List Operand} {a b : Analysis}, a.Sound →
      args.length = operands.length → DistinctSpans (exprsRefs args) →
      checkOperands i index (args.zip operands) a = .ok () b →
        List.Forall₂ (OperandTyped b.resolutions) operands args
  | _, [], [], _, _, _, _, _, _ => .nil
  | index, arg :: args, operand :: operands, a, b, ha, hlen, hd, h => by
      obtain ⟨_, m, hhead, h⟩ := bind_eq_ok.mp h
      obtain ⟨hda, hdr, hapart⟩ := DistinctSpans.append hd
      have hlen : args.length = operands.length := by simpa using hlen
      have hm := (checkOperand_traces i index arg operand).sound ha hhead
      have htraces := checkOperands_traces i (index + 1) (args.zip operands)
      rw [List.map_fst_zip (Nat.le_of_eq hlen)] at htraces
      exact .cons ((checkOperand_typed ha hda hhead).keep (htraces.keeps hm h hapart))
        (checkOperands_typed hm hlen hdr h)

private theorem intrinsic_typed {i : Intrinsic} {args : Arguments} {span : Span} (ha : a.Sound)
    (hd : DistinctSpans (exprsRefs args.args)) (h : intrinsic i args.args span a = .ok () b) :
    (Stmt.intrinsic i args span).Typed b.resolutions := by
  unfold intrinsic at h
  rw [Stmt.Typed]
  split at h
  · rename_i hlen
    have harity : i.arity = i.operands.length := by cases i <;> rfl
    exact checkOperands_typed ha (hlen.trans harity) hd h
  · simp at h

private theorem call_typed {name : Ident} {args : Arguments} {span : Span} (ha : a.Sound)
    (h : call name args.args span a = .ok () b) :
    (Stmt.call name args span).Typed b.resolutions := by
  obtain ⟨n, hn, hkind, hargs, rfl⟩ := call_eq_ok h
  rw [Stmt.Typed]
  have hsym : a.resolutions.symbols[n]? = some (a.resolutions.symbol n) :=
    ha.getElem?_of_lookup? hn
  exact ⟨⟨_, Resolutions.resolveSymbol?_of_resolve?
    (Resolutions.resolve?_bindReference _ name n) hsym, hkind⟩, hargs⟩

/-! ### Statements

A part of a statement keeps the type that was found for it while the parts behind it are
analysed, because they account for changes at other names only.  So the claim that is followed
through a program is `Traces` and typing together.
-/

/-- A step that makes these changes only, and if it passes, then this is well typed. -/
structure LeavesTyped (refs : List Ident) (decls : List Decl) (typed : Resolutions → Prop)
    (x : Analyzing Unit) : Prop where
  traces : Traces x refs decls
  typed : ∀ ⦃a b⦄, a.Sound → DistinctSpans refs → x a = .ok () b → typed b.resolutions

namespace LeavesTyped

variable {refs refs' : List Ident} {decls decls' : List Decl} {typed typed' : Resolutions → Prop}
  {x y : Analyzing Unit}

/--
What the first part found is kept by the second, which accounts for other names only
(`Traces.keeps`).
-/
theorem bind (hx : LeavesTyped refs decls typed x)
    (hkeep : ∀ {r r'}, typed r → r.Keeps r' refs → typed r')
    (hy : LeavesTyped refs' decls' typed' y) :
    LeavesTyped (refs ++ refs') (decls ++ decls') (fun r => typed r ∧ typed' r)
      (x >>= fun _ => y) := by
  refine ⟨hx.traces.bind fun _ => hy.traces, fun a b ha hd h => ?_⟩
  obtain ⟨_, m, hxm, hym⟩ := bind_eq_ok.mp h
  obtain ⟨hdx, hdy, hapart⟩ := hd.append
  have hm := hx.traces.sound ha hxm
  exact ⟨hkeep (hx.typed ha hdx hxm) (hy.traces.keeps hm hym hapart), hy.typed hm hdy hym⟩

theorem inScope (hx : LeavesTyped refs decls typed x) :
    LeavesTyped refs decls typed (inScope x) := by
  refine ⟨inScope_traces hx.traces, fun a b ha hd h => ?_⟩
  obtain ⟨c, hc, rfl⟩ := inScope_eq_ok.mp h
  have htyped : typed c.resolutions := hx.typed ha.push hd hc
  exact htyped

theorem check (expected : ValueType) (e : Expr) (what : String) :
    LeavesTyped e.refs [] (HasType · e expected) (checkExpr expected e what) :=
  ⟨checkExpr_traces expected e what, fun _ _ ha hd h => checkExpr_typed ha hd h⟩

end LeavesTyped

/-- Each part of a program that passed is well typed. -/
abbrev typing : Claim where
  stmt s := LeavesTyped s.refs s.declared s.Typed
  block b := LeavesTyped b.refs b.declared b.Typed
  stmts body := LeavesTyped (stmtsRefs body) (stmtsDeclared body) (stmtsTyped · body)

private theorem typing_rules : typing.Rules where
  assign left value span := ⟨assign_traces left value, fun _ _ ha hd h => assign_typed ha hd h⟩
  compound op left value span :=
    ⟨compound_traces op left value span, fun _ _ ha hd h => compound_typed ha hd h⟩
  ifThen cond _ _ hbody := (LeavesTyped.check .boolean cond _).bind HasType.keep hbody
  ifElse cond _ _ _ _ hbody helse :=
    (LeavesTyped.check .boolean cond _).bind HasType.keep (hbody.bind Block.Typed.keep helse)
  whileLoop cond _ _ hbody := (LeavesTyped.check .boolean cond _).bind HasType.keep hbody
  func _ _ _ hbody := hbody
  ret _ := ⟨.pure (), fun _ _ _ _ _ => trivial⟩
  retValue value _ := LeavesTyped.check .integer value _
  intrinsic i args span :=
    ⟨intrinsic_traces i args.args span, fun _ _ ha hd h => intrinsic_typed ha hd h⟩
  call name args span := ⟨call_traces name args.args span, fun _ _ ha _ h => call_typed ha h⟩
  block decls body _ hbody := by
    refine LeavesTyped.inScope ⟨(declareAll_traces decls).bind fun _ => hbody.traces, ?_⟩
    intro a b ha hd h
    obtain ⟨_, m, hdecls, hrest⟩ := bind_eq_ok.mp h
    exact hbody.typed ((declareAll_traces decls).sound ha hdecls) hd hrest
  nil := ⟨.pure (), fun _ _ _ _ _ => trivial⟩
  cons _ _ hs hrest := hs.bind Stmt.Typed.keep hrest

end Analysis

/-- **A program that passed analysis is well typed, in what analysis left behind.** -/
theorem Program.typed_of_analyze {p : Program} {r : Resolutions} (hnamed : p.WellNamed)
    (h : p.analyze = .ok r) : p.block.Typed r := by
  have hd : DistinctSpans (p.block.refs ++ funcNames p.block.functions) := hnamed.refs
  simp only [Program.analyze] at h
  split at h
  · rename_i a hblock
    simp only [Except.ok.injEq] at h
    subst h
    exact (Analysis.typing_rules.blocks p.block).typed Analysis.sound_start hd.append.1 hblock
  · simp at h

/-! ### Functions

A function stands inside the block that declares it and is typed there, so its body is typed
by itself.
-/

mutual

theorem Stmt.Typed.functions {r : Resolutions} : ∀ {s : Stmt}, s.Typed r →
    ∀ f ∈ s.functions, f.body.Typed r
  | .func name body span, ht, f, hf => by
      rw [Stmt.Typed] at ht
      rw [Stmt.functions, List.mem_cons] at hf
      rcases hf with rfl | hf
      · exact ht
      · exact ht.functions f hf
  | .ifThen cond body span, ht, f, hf => by
      rw [Stmt.Typed] at ht
      rw [Stmt.functions] at hf
      exact ht.2.functions f hf
  | .ifElse cond body ifSpan elseBody span, ht, f, hf => by
      rw [Stmt.Typed] at ht
      rw [Stmt.functions, List.mem_append] at hf
      rcases hf with hf | hf
      · exact ht.2.1.functions f hf
      · exact ht.2.2.functions f hf
  | .whileLoop cond body span, ht, f, hf => by
      rw [Stmt.Typed] at ht
      rw [Stmt.functions] at hf
      exact ht.2.functions f hf
  | .assign .., _, f, hf | .compound .., _, f, hf | .ret .., _, f, hf
  | .intrinsic .., _, f, hf | .call .., _, f, hf => by
      rw [Stmt.functions] at hf
      simp at hf

theorem Block.Typed.functions {r : Resolutions} : ∀ {b : Block}, b.Typed r →
    ∀ f ∈ b.functions, f.body.Typed r
  | ⟨_, body, _⟩, ht, f, hf => by
      rw [Block.Typed] at ht
      rw [Block.functions] at hf
      exact stmtsTyped_functions ht f hf

/-- The bodies of functions in a well-typed program are well typed. -/
theorem stmtsTyped_functions {r : Resolutions} : ∀ {body : List Stmt}, stmtsTyped r body →
    ∀ f ∈ stmtsFunctions body, f.body.Typed r
  | [], _, f, hf => by
      rw [stmtsFunctions] at hf
      simp at hf
  | s :: rest, ht, f, hf => by
      rw [stmtsTyped] at ht
      rw [stmtsFunctions, List.mem_append] at hf
      rcases hf with hf | hf
      · exact ht.1.functions f hf
      · exact stmtsTyped_functions ht.2 f hf

end

end StackCode
