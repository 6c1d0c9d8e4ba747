/-
What the single steps of analysis do.

Few steps of analysis touch its tables: a scope is opened or closed, a name is declared,
looked up or written to, and the type of a variable is written.  Each of them has lemmas here
that say when it succeeds, with which state, and what is left behind if it fails.  What
follows analysis through a program uses these lemmas and does not open the steps again.

`Resolutions.setType` writes a type whatever was there before.  It is the walk that asks
first: `readType` and `assignIdent` write only to a variable that has no type.  `fixType` is
the write together with that question, and `readType_eq` and `assignIdent_of_takes` say that
the two steps come down to it.

Scopes and tables speak of symbols by number.  `Sound` says that all numbers in scope are
those of symbols, and that all symbols fit their kinds.  Every step keeps it.
-/
import StackCode.Analysis
import StackCode.Proofs.Frames
import StackCode.Proofs.Sequencing

namespace StackCode

open Sequencing

/-! ### Symbols

A symbol is `Untyped` while its type can still be written, and `Settled` from then on.  All
symbols have slots and types that fit their kinds (`FitsKind`): they are declared so, and
`fixType` gives a type to variables only.
-/

namespace Symbol

variable {s : Symbol}

/-- Slot and type fit the kind: only variables have slots, and aliases are integers. -/
def FitsKind (s : Symbol) : Prop :=
  match s.kind with
  | .var => s.slot?.isSome
  | .registerAlias _ => s.slot? = none ∧ s.type? = some .integer
  | .func => s.slot? = none ∧ s.type? = none

/-- The symbol is a variable that has no type yet. -/
def Untyped (s : Symbol) : Prop := s.kind = .var ∧ s.type? = none

instance (s : Symbol) : Decidable s.Untyped := inferInstanceAs (Decidable (_ ∧ _))

/-- No type is written to the symbol any more. -/
def Settled (s : Symbol) : Prop := ¬s.Untyped

/-- The symbol with a type, if it is a variable that has none. -/
def fixType (type : ValueType) (s : Symbol) : Symbol := if s.Untyped then s.setType type else s

theorem settled_of_type? {type : ValueType} (h : s.type? = some type) : s.Settled := by
  simp [Settled, Untyped, h]

theorem settled_of_kind_ne (h : s.kind ≠ .var) : s.Settled := by
  simp [Settled, Untyped, h]

theorem settled_of_func (h : s.kind = .func) : s.Settled := settled_of_kind_ne (by simp [h])

private theorem fixType_of_untyped (h : s.Untyped) (type : ValueType) :
    s.fixType type = s.setType type := if_pos h

theorem fixType_of_settled (h : s.Settled) (type : ValueType) : s.fixType type = s := if_neg h

/-- Only the type changes. -/
theorem fixType_eq (type : ValueType) (s : Symbol) :
    s.fixType type = { s with type? := (s.fixType type).type? } := by
  unfold fixType
  split <;> rfl

@[simp] theorem kind_fixType (type : ValueType) (s : Symbol) : (s.fixType type).kind = s.kind := by
  rw [fixType_eq]

@[simp] theorem slot?_fixType (type : ValueType) (s : Symbol) :
    (s.fixType type).slot? = s.slot? := by
  rw [fixType_eq]

@[simp] theorem name_fixType (type : ValueType) (s : Symbol) : (s.fixType type).name = s.name := by
  rw [fixType_eq]

@[simp] theorem span_fixType (type : ValueType) (s : Symbol) : (s.fixType type).span = s.span := by
  rw [fixType_eq]

@[simp] theorem isImplicit_fixType (type : ValueType) (s : Symbol) :
    (s.fixType type).isImplicit = s.isImplicit := by
  rw [fixType_eq]

theorem type?_fixType (hkind : s.kind = .var) (h : s.type? = none) (type : ValueType) :
    (s.fixType type).type? = some type := by
  rw [fixType_of_untyped ⟨hkind, h⟩]
  rfl

theorem FitsKind.setType (h : s.FitsKind) (hkind : s.kind = .var) (type : ValueType) :
    (s.setType type).FitsKind := by
  simp only [FitsKind, Symbol.setType, hkind] at h ⊢
  exact h

theorem FitsKind.fixType (h : s.FitsKind) (type : ValueType) : (s.fixType type).FitsKind := by
  by_cases huntyped : s.Untyped
  · rw [fixType_of_untyped huntyped]
    exact h.setType huntyped.1 type
  · rwa [fixType_of_settled huntyped]

theorem FitsKind.slot?_of_var (h : s.FitsKind) (hkind : s.kind = .var) :
    ∃ slot, s.slot? = some slot := by
  simp only [FitsKind, hkind] at h
  exact Option.isSome_iff_exists.mp h

theorem FitsKind.type?_of_registerAlias (h : s.FitsKind) {reg : Register}
    (hkind : s.kind = .registerAlias reg) : s.type? = some .integer := by
  simp only [FitsKind, hkind] at h
  exact h.2

theorem FitsKind.type?_of_func (h : s.FitsKind) (hkind : s.kind = .func) : s.type? = none := by
  simp only [FitsKind, hkind] at h
  exact h.2

/-- Only variables have slots. -/
theorem FitsKind.var_of_slot? (h : s.FitsKind) {slot : Nat} (hslot : s.slot? = some slot) :
    s.kind = .var := by
  cases hkind : s.kind <;> simp_all [FitsKind]

end Symbol

namespace Resolutions

variable {r : Resolutions} {n : Nat} {s : Symbol}

/-- All symbols fit their kinds. -/
def Fits (r : Resolutions) : Prop := ∀ (n : Nat) (s : Symbol), r.symbols[n]? = some s → s.FitsKind

theorem fits_empty : empty.Fits := by
  intro n s hs
  simp [empty] at hs

theorem symbol_eq (h : r.symbols[n]? = some s) : r.symbol n = s := by
  rw [symbol, getElem!_def, h]

/-- A number that leads to a variable or an alias is that of a symbol. -/
theorem getElem?_of_kind (h : (r.symbol n).kind ≠ .func) :
    r.symbols[n]? = some (r.symbol n) := by
  cases hs : r.symbols[n]? with
  | none =>
      rw [symbol, getElem!_def, hs] at h
      exact absurd rfl h
  | some s => rw [symbol_eq hs]

private theorem getElem?_of_lt (h : n < r.symbols.size) : r.symbols[n]? = some (r.symbol n) := by
  rw [symbol_eq (Array.getElem?_eq_getElem h), Array.getElem?_eq_getElem h]

/-- A declaration adds one symbol behind those that are there. -/
theorem addSymbol_symbols (r : Resolutions) (id : Ident) (kind : DeclKind) (implicit : Bool) :
    ∃ s, (r.addSymbol id kind implicit).symbols = r.symbols.push s ∧ s.name = id.name ∧
      s.kind = kind.symbolKind ∧ s.span = id.span ∧ s.isImplicit = implicit ∧ s.FitsKind ∧
      (kind = .var → s.type? = none) ∧ ∀ slot, s.slot? = some slot → slot = r.variableCount := by
  cases kind with
  | var =>
      refine ⟨_, rfl, rfl, rfl, rfl, rfl, rfl, fun _ => rfl, fun slot hslot => ?_⟩
      exact (Option.some.inj hslot).symm
  | func => exact ⟨_, rfl, rfl, rfl, rfl, rfl, ⟨rfl, rfl⟩, by simp, by simp⟩
  | registerAlias reg => exact ⟨_, rfl, rfl, rfl, rfl, rfl, ⟨rfl, rfl⟩, by simp, by simp⟩

theorem getElem?_addSymbol {id : Ident} {kind : DeclKind} {implicit : Bool}
    (h : r.symbols[n]? = some s) : (r.addSymbol id kind implicit).symbols[n]? = some s := by
  obtain ⟨new, hnew, -⟩ := r.addSymbol_symbols id kind implicit
  obtain ⟨hlt, -⟩ := Array.getElem?_eq_some_iff.mp h
  rw [hnew, Array.getElem?_push, if_neg (Nat.ne_of_lt hlt), h]

private theorem size_addSymbol (r : Resolutions) (id : Ident) (kind : DeclKind) (implicit : Bool) :
    (r.addSymbol id kind implicit).symbols.size = r.symbols.size + 1 := by
  obtain ⟨new, hnew, -⟩ := r.addSymbol_symbols id kind implicit
  rw [hnew, Array.size_push]

theorem Fits.addSymbol (h : r.Fits) (id : Ident) (kind : DeclKind) (implicit : Bool) :
    (r.addSymbol id kind implicit).Fits := by
  obtain ⟨new, hnew, -, -, -, -, hfits, -⟩ := r.addSymbol_symbols id kind implicit
  intro n s hs
  rw [hnew, Array.getElem?_push] at hs
  split at hs
  · obtain rfl := Option.some.inj hs
    exact hfits
  · exact h n s hs

/-- Write the type of a symbol, if it is a variable that has none. -/
def fixType (r : Resolutions) (n : Nat) (type : ValueType) : Resolutions :=
  { r with symbols := r.symbols.modify n (Symbol.fixType type) }

theorem getElem?_fixType (r : Resolutions) (n i : Nat) (type : ValueType) :
    (r.fixType n type).symbols[i]? =
      if n = i then r.symbols[i]?.map (Symbol.fixType type) else r.symbols[i]? :=
  Array.getElem?_modify

theorem getElem?_fixType_self (h : r.symbols[n]? = some s) (type : ValueType) :
    (r.fixType n type).symbols[n]? = some (s.fixType type) := by
  rw [getElem?_fixType, if_pos rfl, h]
  rfl

/-- Every symbol is one that was there, or that symbol with a type. -/
theorem getElem?_of_fixType {i : Nat} {type : ValueType}
    (h : (r.fixType n type).symbols[i]? = some s) :
    ∃ s₀, r.symbols[i]? = some s₀ ∧ (s = s₀ ∨ s = s₀.fixType type) := by
  rw [getElem?_fixType] at h
  split at h
  · obtain ⟨s₀, hs₀, rfl⟩ := Option.map_eq_some_iff.mp h
    exact ⟨s₀, hs₀, .inr rfl⟩
  · exact ⟨s, h, .inl rfl⟩

theorem Fits.fixType (h : r.Fits) (n : Nat) (type : ValueType) : (r.fixType n type).Fits := by
  intro i s hs
  obtain ⟨s₀, hs₀, rfl | rfl⟩ := getElem?_of_fixType hs
  · exact h i s hs₀
  · exact (h i s₀ hs₀).fixType type

/-- Symbols are compared by what they are at each number. -/
private theorem modify_congr {symbols : Array Symbol} {f g : Symbol → Symbol}
    (h : ∀ s, symbols[n]? = some s → f s = g s) : symbols.modify n f = symbols.modify n g := by
  apply Array.ext_getElem?
  intro i
  rw [Array.getElem?_modify, Array.getElem?_modify]
  by_cases hi : n = i
  · subst hi
    rw [if_pos rfl, if_pos rfl]
    cases hs : symbols[n]? with
    | none => rfl
    | some s => rw [Option.map_some, Option.map_some, h s hs]
  · rw [if_neg hi, if_neg hi]

/-- What the walk writes to a variable without a type. -/
theorem setType_eq_fixType (h : (r.symbol n).Untyped) (type : ValueType) :
    r.setType n type = r.fixType n type := by
  rw [setType, fixType, modify_congr]
  intro s hs
  rw [symbol_eq hs] at h
  exact (Symbol.fixType_of_untyped h type).symm

/-- There is nothing to write to a symbol that is settled. -/
theorem fixType_of_settled (h : (r.symbol n).Settled) (type : ValueType) :
    r.fixType n type = r := by
  have hsame : r.symbols.modify n (Symbol.fixType type) = r.symbols.modify n id := by
    refine modify_congr fun s hs => ?_
    rw [symbol_eq hs] at h
    exact Symbol.fixType_of_settled h type
  have hid : r.symbols.modify n id = r.symbols := by
    apply Array.ext_getElem?
    intro i
    rw [Array.getElem?_modify]
    split
    · exact Option.map_id_apply
    · rfl
  rw [fixType, hsame, hid]

/-- The resolutions once a name was met, with a type for what it stands for. -/
def meet (r : Resolutions) (id : Ident) (n : Nat) (type : ValueType) : Resolutions :=
  (r.bindReference id.span n).fixType n type

theorem meet_of_settled (h : (r.symbol n).Settled) (id : Ident) (type : ValueType) :
    r.meet id n type = r.bindReference id.span n :=
  fixType_of_settled (r := r.bindReference id.span n) h type

end Resolutions

namespace Analysis

variable {a b : Analysis} {id : Ident} {n : Nat}

/-! ### Scopes and symbols

`Sound` is the invariant of analysis.  With it every number that a lookup gives leads to a
symbol, so that `symbol` never has to answer with a default.
-/

/-- Scopes and symbols are in order. -/
structure Sound (a : Analysis) : Prop where
  /-- All numbers in scope are those of symbols. -/
  inRange : ∀ name b, a.scopes.Contains name b → b.decl < a.resolutions.symbols.size
  fits : a.resolutions.Fits

theorem sound_start : start.Sound :=
  ⟨fun name b h => absurd h (Scopes.not_contains_empty name b), Resolutions.fits_empty⟩

/-- What a name stands for is a symbol. -/
theorem Sound.getElem?_of_lookup? (h : a.Sound) {name : String}
    (hn : a.scopes.lookup? name = some n) :
    a.resolutions.symbols[n]? = some (a.resolutions.symbol n) := by
  obtain ⟨b, hb, rfl⟩ := Scopes.contains_of_lookup? hn
  exact Resolutions.getElem?_of_lt (h.inRange name b hb)

/-! ### Looking a name up

A lookup records the use and nothing else.  `symbol_bind` and `update_bind` take the small
steps out of a sequence, so that it can be rewritten from the left.
-/

theorem symbol_eq (n : Nat) (a : Analysis) : symbol n a = .ok (a.resolutions.symbol n) a := rfl

private theorem update_eq (f : Resolutions → Resolutions) (a : Analysis) :
    update f a = .ok () { a with resolutions := f a.resolutions } := rfl

/-- A step that looks at a symbol goes on with what is known of it. -/
theorem symbol_bind {α : Type} (n : Nat) (f : Symbol → Analyzing α) (a : Analysis) :
    (symbol n >>= f) a = f (a.resolutions.symbol n) a := rfl

private theorem update_bind {α : Type} (f : Resolutions → Resolutions) (g : Unit → Analyzing α)
    (a : Analysis) :
    (update f >>= g) a = g () { a with resolutions := f a.resolutions } := rfl

theorem lookup_of_none (h : a.scopes.lookup? id.name = none) :
    lookup id a = .error (.identifierNotFound id.span id.name) a := by
  rw [lookup, bind_of_ok (get_eq a), h]
  rfl

theorem lookup_of_some (h : a.scopes.lookup? id.name = some n) :
    lookup id a = .ok n { a with resolutions := a.resolutions.bindReference id.span n } := by
  rw [lookup, bind_of_ok (get_eq a), h]
  rfl

/-- A name that was found is recorded as a use of what it stands for. -/
theorem lookup_eq_ok : lookup id a = .ok n b ↔ a.scopes.lookup? id.name = some n ∧
    b = { a with resolutions := a.resolutions.bindReference id.span n } := by
  cases h : a.scopes.lookup? id.name with
  | none => simp [lookup_of_none h]
  | some m =>
      rw [lookup_of_some h, EStateM.Result.ok.injEq, Option.some.injEq]
      constructor
      · rintro ⟨rfl, rfl⟩
        exact ⟨rfl, rfl⟩
      · rintro ⟨rfl, rfl⟩
        exact ⟨rfl, rfl⟩

/-! ### Declaring a name

`declare` enters the number of the next symbol, then adds the symbol, then records it.  Only
the first of the three can fail, and it does so before anything has changed.
-/

section Declare

variable {kind : DeclKind} {implicit : Bool}

/-- A declaration enters the number of the symbol that it adds. -/
theorem declare_eq_ok : declare id kind implicit a = .ok n b ↔
    n = a.resolutions.symbols.size ∧
      ∃ scopes, Scopes.declare id.name n a.scopes = .ok () scopes ∧
        b = ⟨scopes, (a.resolutions.addSymbol id kind implicit).bindDeclaration id.span n⟩ := by
  rw [declare, bind_of_ok (get_eq a)]
  cases hscopes : Scopes.declare id.name a.resolutions.symbols.size a.scopes with
  | ok u scopes =>
      have henter : enter id a.resolutions.symbols.size a = .ok () { a with scopes } := by
        rw [enter, hscopes]
      rw [bind_of_ok henter, update_bind, update_bind, pure_eq_ok]
      constructor
      · rintro ⟨rfl, rfl⟩
        exact ⟨rfl, scopes, hscopes, rfl⟩
      · rintro ⟨rfl, scopes', hscopes', rfl⟩
        obtain ⟨-, rfl⟩ := EStateM.Result.ok.inj (hscopes.symm.trans hscopes')
        exact ⟨rfl, rfl⟩
  | error previous scopes =>
      have henter : enter id a.resolutions.symbols.size a = .error (.alreadyDefined id.span id.name
          (a.resolutions.symbol previous).span) { a with scopes } := by
        rw [enter, hscopes]
      constructor
      · intro h
        obtain ⟨u, m, hm, -⟩ := bind_eq_ok.mp h
        rw [henter] at hm
        cases hm
      · rintro ⟨rfl, scopes', hscopes', -⟩
        cases hscopes.symm.trans hscopes'

/-- A declaration that fails changes nothing, and names the one that was there before. -/
theorem declare_eq_error {e : SemanticError} (h : declare id kind implicit a = .error e b) :
    b = a ∧ ∃ previous, a.scopes.lookup? id.name = some previous ∧
      e = .alreadyDefined id.span id.name (a.resolutions.symbol previous).span := by
  rw [declare, bind_of_ok (get_eq a)] at h
  cases hscopes : Scopes.declare id.name a.resolutions.symbols.size a.scopes with
  | ok u scopes =>
      have henter : enter id a.resolutions.symbols.size a = .ok () { a with scopes } := by
        rw [enter, hscopes]
      rw [bind_of_ok henter, update_bind, update_bind] at h
      cases h
  | error previous scopes =>
      obtain ⟨rfl, old, hold, -, rfl⟩ := Scopes.declare_eq_error hscopes
      have henter : enter id a.resolutions.symbols.size a = .error (.alreadyDefined id.span id.name
          (a.resolutions.symbol old.decl).span) a := by
        rw [enter, hscopes]
      rcases bind_eq_error.mp h with h | ⟨_, _, hok, -⟩
      · obtain ⟨rfl, rfl⟩ := EStateM.Result.error.inj (henter.symm.trans h)
        refine ⟨rfl, old.decl, ?_, rfl⟩
        rw [Scopes.lookup?, hold]
        rfl
      · cases henter.symm.trans hok

/-- The number of a new symbol leads to the symbol. -/
theorem symbol_of_declare (h : declare id kind implicit a = .ok n b) :
    b.resolutions.symbols[n]? = some (b.resolutions.symbol n) ∧
      (b.resolutions.symbol n).kind = kind.symbolKind ∧
      (kind = .var → (b.resolutions.symbol n).type? = none) := by
  obtain ⟨rfl, scopes, -, rfl⟩ := declare_eq_ok.mp h
  obtain ⟨s, hsymbols, -, hkind, -, -, -, htype, -⟩ :=
    a.resolutions.addSymbol_symbols id kind implicit
  have hs : (a.resolutions.addSymbol id kind implicit).symbols[a.resolutions.symbols.size]? =
      some s := by
    rw [hsymbols, Array.getElem?_push_size]
  have hsym := Resolutions.symbol_eq (r := (a.resolutions.addSymbol id kind
    implicit).bindDeclaration id.span a.resolutions.symbols.size) hs
  rw [hsym]
  exact ⟨hs, hkind, htype⟩

theorem Sound.declare (h : a.Sound) (hdeclare : Analysis.declare id kind implicit a = .ok n b) :
    b.Sound := by
  obtain ⟨rfl, scopes, hscopes, rfl⟩ := declare_eq_ok.mp hdeclare
  refine ⟨fun name binding hb => ?_, h.fits.addSymbol id kind implicit⟩
  show binding.decl < (a.resolutions.addSymbol id kind implicit).symbols.size
  rw [Resolutions.size_addSymbol]
  rcases Scopes.contains_of_declare hscopes hb with hb | ⟨-, heq⟩
  · exact Nat.lt_succ_of_lt (h.inRange name binding hb)
  · rw [heq]
    exact Nat.lt_succ_self _

/-- A name that is not visible can be declared. -/
theorem declare_of_none (h : a.scopes.lookup? id.name = none) (kind : DeclKind)
    (implicit : Bool) : ∃ b, declare id kind implicit a = .ok a.resolutions.symbols.size b := by
  have hfree : a.scopes.bindings[id.name]? = none := Option.map_eq_none_iff.mp h
  exact ⟨_, declare_eq_ok.mpr ⟨rfl, _, Scopes.declare_of_free hfree _, rfl⟩⟩

end Declare

theorem Sound.use (h : a.Sound) (id : Ident) (n : Nat) :
    ({ a with resolutions := a.resolutions.bindReference id.span n } : Analysis).Sound :=
  ⟨h.inRange, h.fits⟩

theorem Sound.meet (h : a.Sound) (id : Ident) (n : Nat) (type : ValueType) :
    ({ a with resolutions := a.resolutions.meet id n type } : Analysis).Sound := by
  refine ⟨fun name b hb => ?_, Resolutions.Fits.fixType (r := a.resolutions.bindReference id.span n)
    h.fits n type⟩
  show b.decl < (a.resolutions.symbols.modify n (Symbol.fixType type)).size
  rw [Array.size_modify]
  exact h.inRange name b hb

/-! ### Reading a name

`identType` and `compoundTargetType` differ only in the error that they give for a function.
`ReadsName` says what they have in common.
-/

/-- Reading a variable gives it a type if it has none. -/
theorem readType_eq (hkind : (a.resolutions.symbol n).kind = .var) :
    readType n a = .ok ((a.resolutions.symbol n).type?.getD .integer)
      { a with resolutions := a.resolutions.fixType n .integer } := by
  rw [readType, symbol_bind]
  cases htype : (a.resolutions.symbol n).type? with
  | some type =>
      rw [Resolutions.fixType_of_settled (Symbol.settled_of_type? htype)]
      rfl
  | none =>
      rw [← Resolutions.setType_eq_fixType ⟨hkind, htype⟩]
      rfl

end Analysis

/-- The type that a symbol is read with. -/
def Symbol.readType (s : Symbol) : ValueType :=
  match s.kind with
  | .var => s.type?.getD .integer
  | .registerAlias _ | .func => .integer

namespace Analysis

variable {a b : Analysis} {id : Ident} {n : Nat}

/-- The step looks a name up and reads what it stands for. -/
structure ReadsName (id : Ident) (x : Analyzing ValueType) : Prop where
  missing : ∀ ⦃a⦄, a.scopes.lookup? id.name = none →
    x a = .error (.identifierNotFound id.span id.name) a
  /-- A variable or an alias has a value, and a variable has a type from then on. -/
  value : ∀ ⦃a n⦄, a.scopes.lookup? id.name = some n → (a.resolutions.symbol n).kind ≠ .func →
    x a = .ok (a.resolutions.symbol n).readType
      { a with resolutions := a.resolutions.meet id n .integer }
  func : ∀ ⦃a n⦄, a.scopes.lookup? id.name = some n → (a.resolutions.symbol n).kind = .func →
    ∃ e, e.span = id.span ∧
      x a = .error e { a with resolutions := a.resolutions.bindReference id.span n }

/-- What is done with a symbol that was looked up to be read. -/
private theorem readsName_of {k : Nat → Analyzing ValueType}
    (hvar : ∀ {m n}, (m.resolutions.symbol n).kind = .var → k n m = Analysis.readType n m)
    (halias : ∀ {m n reg}, (m.resolutions.symbol n).kind = .registerAlias reg →
      k n m = .ok .integer m)
    (hfunc : ∀ {m n}, (m.resolutions.symbol n).kind = .func →
      ∃ e, e.span = id.span ∧ k n m = .error e m) : ReadsName id (lookup id >>= k) := by
  refine ⟨fun a hnone => ?_, fun a n hn hkind => ?_, fun a n hn hkind => ?_⟩
  · exact bind_eq_error.mpr (.inl (lookup_of_none hnone))
  · rw [bind_of_ok (lookup_of_some hn), Symbol.readType]
    cases hk : (a.resolutions.symbol n).kind with
    | var =>
        have hread : readType n { a with resolutions := a.resolutions.bindReference id.span n } =
            .ok ((a.resolutions.symbol n).type?.getD .integer)
              { a with resolutions := a.resolutions.meet id n .integer } := readType_eq hk
        have hsame := hvar (m := { a with resolutions := a.resolutions.bindReference id.span n }) hk
        exact hsame.trans hread
    | registerAlias reg =>
        have hsettled := Symbol.settled_of_kind_ne (s := a.resolutions.symbol n) (by simp [hk])
        rw [Resolutions.meet_of_settled hsettled]
        exact halias hk
    | func => exact absurd hk hkind
  · rw [bind_of_ok (lookup_of_some hn)]
    exact hfunc hkind

theorem identType_reads (id : Ident) : ReadsName id (identType id) := by
  refine readsName_of (fun h => ?_) (fun h => ?_) fun h => ?_
  · rw [symbol_bind, h]
  · rw [symbol_bind, h]
    rfl
  · rw [symbol_bind, h]
    exact ⟨.wrongType id.span ("function '" ++ id.name ++ "' cannot be used as a value"), rfl, rfl⟩

theorem compoundTargetType_reads (id : Ident) :
    ReadsName id (compoundTargetType (.ident id)) := by
  refine readsName_of (fun h => ?_) (fun h => ?_) fun h => ?_
  · rw [symbol_bind, h]
  · rw [symbol_bind, h]
    rfl
  · rw [symbol_bind, h]
    exact ⟨.expectedLValue id.span, rfl, rfl⟩

/-- What was read was visible, and is no function. -/
theorem ReadsName.eq_ok {x : Analyzing ValueType} (hx : ReadsName id x) {type : ValueType} :
    x a = .ok type b ↔ ∃ n, a.scopes.lookup? id.name = some n ∧
      (a.resolutions.symbol n).kind ≠ .func ∧ type = (a.resolutions.symbol n).readType ∧
      b = { a with resolutions := a.resolutions.meet id n .integer } := by
  constructor
  · intro h
    cases hn : a.scopes.lookup? id.name with
    | none => cases (hx.missing hn).symm.trans h
    | some n =>
        by_cases hkind : (a.resolutions.symbol n).kind = .func
        · obtain ⟨e, -, herror⟩ := hx.func hn hkind
          cases herror.symm.trans h
        · obtain ⟨rfl, rfl⟩ := EStateM.Result.ok.inj ((hx.value hn hkind).symm.trans h)
          exact ⟨n, rfl, hkind, rfl, rfl⟩
  · rintro ⟨n, hn, hkind, rfl, rfl⟩
    exact hx.value hn hkind

/-! ### Writing to a name

`Takes` says which values a symbol takes.  A new name is declared and then met like any
other, so in every case that succeeds the name is met in the end.
-/

end Analysis

/-- A value of the type can be written to the symbol. -/
def Symbol.Takes (s : Symbol) (type : ValueType) : Prop :=
  match s.kind with
  | .var => s.type? = none ∨ s.type? = some type
  | .registerAlias _ => type = .integer
  | .func => False

theorem Symbol.Takes.kind_ne {s : Symbol} {type : ValueType} (h : s.Takes type) :
    s.kind ≠ .func := by
  intro hkind
  simp [Takes, hkind] at h

namespace Analysis

variable {a b : Analysis} {id : Ident} {n : Nat} {type : ValueType} {span : Span}

theorem expectType_of_eq (type : ValueType) (span : Span) (what : String) (a : Analysis) :
    expectType type type span what a = .ok () a := by
  rw [expectType, if_pos rfl]
  rfl

private theorem expectType_of_ne {expected found : ValueType} (h : expected ≠ found) (span : Span)
    (what : String) (a : Analysis) :
    ∃ message, expectType expected found span what a = .error (.wrongType span message) a := by
  rw [expectType, if_neg h]
  exact ⟨_, rfl⟩

theorem expectType_eq_ok {expected found : ValueType} {span : Span} {what : String} {u : Unit} :
    expectType expected found span what a = .ok u b ↔ expected = found ∧ b = a := by
  by_cases h : expected = found
  · subst h
    rw [expectType_of_eq, EStateM.Result.ok.injEq]
    simp [eq_comm]
  · obtain ⟨message, herror⟩ := expectType_of_ne h span what a
    simp [herror, h]

/-- A name that is visible nowhere is declared, and then met like any other. -/
theorem assignIdent_of_none (hnone : a.scopes.lookup? id.name = none) {m : Analysis}
    (hdeclare : declare id .var true a = .ok n m) :
    assignIdent id type span a = .ok () { m with resolutions := m.resolutions.meet id n type } := by
  obtain ⟨-, hkind, htype⟩ := symbol_of_declare hdeclare
  have huntyped : ((m.resolutions.bindReference id.span n).symbol n).Untyped := ⟨hkind, htype rfl⟩
  rw [assignIdent, bind_of_ok (get_eq a), hnone]
  dsimp only
  rw [bind_of_ok hdeclare, update_bind, update_eq, Resolutions.setType_eq_fixType huntyped]
  rfl

/-- A name that is visible is met, if it takes the value. -/
theorem assignIdent_of_takes (hn : a.scopes.lookup? id.name = some n)
    (htakes : (a.resolutions.symbol n).Takes type) :
    assignIdent id type span a = .ok () { a with resolutions := a.resolutions.meet id n type } := by
  rw [assignIdent, bind_of_ok (get_eq a), hn]
  dsimp only
  rw [update_bind, symbol_bind]
  have hsame : (a.resolutions.bindReference id.span n).symbol n = a.resolutions.symbol n := rfl
  rw [hsame]
  cases hkind : (a.resolutions.symbol n).kind with
  | func => simp [Symbol.Takes, hkind] at htakes
  | registerAlias reg =>
      obtain rfl : type = .integer := by simpa [Symbol.Takes, hkind] using htakes
      rw [Resolutions.meet_of_settled (Symbol.settled_of_kind_ne (by simp [hkind]))]
      exact expectType_of_eq _ _ _ _
  | var =>
      dsimp only
      rw [symbol_bind, hsame]
      cases htype : (a.resolutions.symbol n).type? with
      | none =>
          have huntyped : ((a.resolutions.bindReference id.span n).symbol n).Untyped :=
            ⟨hkind, htype⟩
          dsimp only
          rw [update_eq, Resolutions.setType_eq_fixType huntyped]
          rfl
      | some fixed =>
          obtain rfl : fixed = type := by simpa [Symbol.Takes, hkind, htype] using htakes
          rw [Resolutions.meet_of_settled (Symbol.settled_of_type? htype)]
          exact expectType_of_eq _ _ _ _

/-- A name that does not take the value is recorded all the same. -/
theorem assignIdent_of_not_takes (hn : a.scopes.lookup? id.name = some n)
    (htakes : ¬(a.resolutions.symbol n).Takes type) (span : Span) :
    ∃ e, (e.span = id.span ∨ e.span = span) ∧ assignIdent id type span a =
      .error e { a with resolutions := a.resolutions.bindReference id.span n } := by
  rw [assignIdent, bind_of_ok (get_eq a), hn]
  dsimp only
  rw [update_bind, symbol_bind]
  have hsame : (a.resolutions.bindReference id.span n).symbol n = a.resolutions.symbol n := rfl
  rw [hsame]
  cases hkind : (a.resolutions.symbol n).kind with
  | func => exact ⟨.expectedLValue id.span, .inl rfl, rfl⟩
  | registerAlias reg =>
      have hne : .integer ≠ type := by simpa [Symbol.Takes, hkind, eq_comm] using htakes
      obtain ⟨message, herror⟩ := expectType_of_ne hne span
        ("assignment to register alias '" ++ id.name ++ "'")
        { a with resolutions := a.resolutions.bindReference id.span n }
      exact ⟨_, .inr rfl, herror⟩
  | var =>
      dsimp only
      rw [symbol_bind, hsame]
      cases htype : (a.resolutions.symbol n).type? with
      | none => simp [Symbol.Takes, hkind, htype] at htakes
      | some fixed =>
          have hne : fixed ≠ type := by simpa [Symbol.Takes, hkind, htype] using htakes
          obtain ⟨message, herror⟩ := expectType_of_ne hne span
            ("assignment to '" ++ id.name ++ "'")
            { a with resolutions := a.resolutions.bindReference id.span n }
          exact ⟨_, .inr rfl, herror⟩

/-- Whatever was written to was visible or is new, and has been met. -/
theorem assignIdent_eq_ok (h : assignIdent id type span a = .ok () b) :
    (∃ n m, a.scopes.lookup? id.name = none ∧ declare id .var true a = .ok n m ∧
      b = { m with resolutions := m.resolutions.meet id n type }) ∨
    ∃ n, a.scopes.lookup? id.name = some n ∧ (a.resolutions.symbol n).Takes type ∧
      b = { a with resolutions := a.resolutions.meet id n type } := by
  cases hn : a.scopes.lookup? id.name with
  | none =>
      obtain ⟨m, hdeclare⟩ := declare_of_none hn .var true
      obtain ⟨-, rfl⟩ :=
        EStateM.Result.ok.inj ((assignIdent_of_none hn hdeclare).symm.trans h)
      exact .inl ⟨_, m, rfl, hdeclare, rfl⟩
  | some n =>
      by_cases htakes : (a.resolutions.symbol n).Takes type
      · obtain ⟨-, rfl⟩ := EStateM.Result.ok.inj ((assignIdent_of_takes hn htakes).symm.trans h)
        exact .inr ⟨n, rfl, htakes, rfl⟩
      · obtain ⟨e, -, herror⟩ := assignIdent_of_not_takes hn htakes span
        cases herror.symm.trans h

/-! ### Other uses of a name

A call and a register operand only record the use: a function has no type to be fixed, and
an alias has one already.
-/

private theorem isRegister_of_some (hn : a.scopes.lookup? id.name = some n) :
    isRegister (.ident id) a = .ok (a.resolutions.symbol n).register?.isSome
      { a with resolutions := a.resolutions.bindReference id.span n } := by
  rw [isRegister, bind_of_ok (lookup_of_some hn)]
  rfl

theorem isRegister_eq_ok {found : Bool} : isRegister (.ident id) a = .ok found b ↔
    ∃ n, a.scopes.lookup? id.name = some n ∧
      found = (a.resolutions.symbol n).register?.isSome ∧
      b = { a with resolutions := a.resolutions.bindReference id.span n } := by
  cases hn : a.scopes.lookup? id.name with
  | none =>
      have herror : isRegister (.ident id) a = .error (.identifierNotFound id.span id.name) a :=
        bind_eq_error.mpr (.inl (lookup_of_none hn))
      simp [herror]
  | some n =>
      rw [isRegister_of_some hn, EStateM.Result.ok.injEq]
      simp [eq_comm]

theorem call_of_func (hn : a.scopes.lookup? id.name = some n)
    (hkind : (a.resolutions.symbol n).kind = .func) (span : Span) :
    call id [] span a =
      .ok () { a with resolutions := a.resolutions.bindReference id.span n } := by
  rw [call, bind_of_ok (lookup_of_some hn), symbol_bind]
  have hsame : (a.resolutions.bindReference id.span n).symbol n = a.resolutions.symbol n := rfl
  rw [hsame, if_pos hkind]
  rfl

/-- Only functions are called, and without arguments. -/
theorem call_eq_ok {args : List Expr} (h : call id args span a = .ok () b) :
    ∃ n, a.scopes.lookup? id.name = some n ∧ (a.resolutions.symbol n).kind = .func ∧ args = [] ∧
      b = { a with resolutions := a.resolutions.bindReference id.span n } := by
  obtain ⟨n, m, hlook, h⟩ := bind_eq_ok.mp h
  obtain ⟨hn, rfl⟩ := lookup_eq_ok.mp hlook
  rw [symbol_bind] at h
  have hsame : (a.resolutions.bindReference id.span n).symbol n = a.resolutions.symbol n := rfl
  rw [hsame] at h
  split at h
  · rename_i hkind
    split at h
    · rename_i hargs
      obtain ⟨-, rfl⟩ := pure_eq_ok.mp h
      exact ⟨n, hn, hkind, List.isEmpty_iff.mp hargs, rfl⟩
    · simp at h
  · simp [wrongType] at h

/-! ### Scopes

A scope that is opened holds no numbers, and one that is closed takes its numbers with it.
What was declared in it stays among the symbols.
-/

theorem Sound.push (h : a.Sound) : ({ a with scopes := a.scopes.push } : Analysis).Sound :=
  ⟨h.inRange, h.fits⟩

theorem Sound.pop (h : a.Sound) : ({ a with scopes := a.scopes.pop } : Analysis).Sound :=
  ⟨fun name b hb => h.inRange name b (Scopes.contains_of_pop hb), h.fits⟩

/-- A scope of its own is opened before the step and closed behind it. -/
theorem inScope_eq_ok {body : Analyzing Unit} : inScope body a = .ok () b ↔
    ∃ c, body { a with scopes := a.scopes.push } = .ok () c ∧
      b = { c with scopes := c.scopes.pop } := by
  rw [inScope]
  cases hbody : body { a with scopes := a.scopes.push } with
  | ok u c => simp [eq_comm]
  | error e c => simp

end Analysis

end StackCode
