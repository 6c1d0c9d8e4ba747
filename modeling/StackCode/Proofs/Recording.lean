/-
What analysis has recorded, against the rules of scoping.

`Records` says of the resolutions, and `Stands` of the scopes as well, that they hold
just what was met so far: every binder has a number and a symbol, every name that was
met is recorded with the number of what it stands for, and a variable has a type once
it has been met.  The type is an integer if the variable was read before it was
written to.

Analysis changes what it knows in two ways.  A name comes to stand for something, or
a name that stands for something is met.  Each of the two keeps `Stands`, and that is
all that later arguments need of the tables.
-/
import StackCode.Proofs.Frames
import StackCode.Proofs.Scoping
import StackCode.Proofs.Symbols

namespace StackCode

/-! ### Symbols and what they were declared as

`Symbol.binder` is what a symbol is the symbol of, in the words of `Scoping`.  It does not
depend on the type, so it stays the same when a type is written.
-/

/-- What a symbol was declared as. -/
def SymbolKind.declKind : SymbolKind → DeclKind
  | var => .var
  | func => .func
  | registerAlias r => .registerAlias r

private theorem DeclKind.declKind_symbolKind (kind : DeclKind) :
    kind.symbolKind.declKind = kind := by
  cases kind <;> rfl

/-- What a symbol is the symbol of. -/
def Symbol.binder (s : Symbol) : Binder := ⟨s.kind.declKind, ⟨s.name, s.span⟩, s.isImplicit⟩

@[simp] theorem Symbol.binder_fixType (σ : ValueType) (s : Symbol) :
    (s.fixType σ).binder = s.binder := by
  simp [Symbol.binder]

theorem Symbol.declKind_of_kind {s : Symbol} {kind : SymbolKind} (h : s.kind = kind) :
    s.binder.kind = kind.declKind := congrArg SymbolKind.declKind h

theorem Symbol.kind_eq_func {s : Symbol} (h : s.binder.kind = .func) : s.kind = .func := by
  cases hkind : s.kind <;> simp_all [Symbol.binder, SymbolKind.declKind]

private theorem Symbol.kind_eq_var {s : Symbol} (h : s.binder.kind = .var) : s.kind = .var := by
  cases hkind : s.kind <;> simp_all [Symbol.binder, SymbolKind.declKind]

/-- A symbol names a register (`register?`) just if it was declared as an alias. -/
theorem Symbol.isSome_register?_iff {s : Symbol} :
    s.register?.isSome = true ↔ ∃ r, s.binder.kind = .registerAlias r := by
  cases hkind : s.kind with
  | registerAlias r => simp [Symbol.register?, Symbol.binder, hkind, SymbolKind.declKind]
  | var => simp [Symbol.register?, Symbol.binder, hkind, SymbolKind.declKind]
  | func => simp [Symbol.register?, Symbol.binder, hkind, SymbolKind.declKind]

namespace Resolutions

variable {r : Resolutions}

/-- A declaration adds the symbol of what it declares; a variable has no type at first. -/
theorem addSymbol_binder (r : Resolutions) (id : Ident) (kind : DeclKind) (implicit : Bool) :
    ∃ s, (r.addSymbol id kind implicit).symbols = r.symbols.push s ∧
      s.binder = ⟨kind, id, implicit⟩ ∧ s.FitsKind ∧ (kind = .var → s.type? = none) := by
  obtain ⟨s, hsymbols, hname, hkind, hspan, himplicit, hfits, htype, -⟩ :=
    r.addSymbol_symbols id kind implicit
  refine ⟨s, hsymbols, ?_, hfits, htype⟩
  rw [Symbol.binder, hname, hkind, hspan, himplicit, DeclKind.declKind_symbolKind]

/-! ### Records

`Records` has what the tables must say about the binders and occurrences that were met so
far.  Numbers are found under spans, so each of the two steps below asks that the span is
new.  `TypedSince` is about the first occurrence, and a later one changes neither that nor
the type.
-/

/--
The number that a binder has: that of its symbol, under which its declaration is recorded
(`declaration?`).
-/
structure Numbers (r : Resolutions) (d : Binder) (n : Nat) : Prop where
  declared : r.declaration? d.name = some n
  symbol : ∃ s, r.symbols[n]? = some s ∧ s.binder = d

theorem Numbers.unique {d : Binder} {n m : Nat} (h : r.Numbers d n) (h' : r.Numbers d m) :
    n = m := Option.some.inj (h.declared.symm.trans h'.declared)

end Resolutions

/-- Names that are read where they stand. -/
def Role.Reads : Role → Prop
  | value | compound => True
  | target | callee | register => False

/-- A variable has a type just when it was met, and an integer if it was read first. -/
def TypedSince (first : Option Occurrence) (type? : Option ValueType) : Prop :=
  match first, type? with
  | none, none => True
  | some o, some σ => o.role.Reads → σ = .integer
  | none, some _ | some _, none => False

/-- The first of the occurrences of what a binder declares. -/
def firstOf (os : List Occurrence) (d : Binder) : Option Occurrence :=
  os.find? (·.binder? = some d)

private theorem firstOf_append (os : List Occurrence) (o : Occurrence) (d : Binder) :
    firstOf (os ++ [o]) d =
      (firstOf os d).or (if o.binder? = some d then some o else none) := by
  rw [firstOf, List.find?_append]
  by_cases h : o.binder? = some d
  · simp [firstOf, h]
  · simp [firstOf, h]

theorem firstOf_eq_none {os : List Occurrence} {d : Binder} :
    firstOf os d = none ↔ ∀ o ∈ os, o.binder? ≠ some d := by
  simp [firstOf]

/-- The resolutions hold what was met: these binders and these occurrences, in this order. -/
structure Resolutions.Records (r : Resolutions) (ds : List Binder) (os : List Occurrence) :
    Prop where
  fits : r.Fits
  /-- Every binder has a number. -/
  numbered : ∀ d ∈ ds, ∃ n, r.Numbers d n
  /-- Every symbol is the symbol of a binder. -/
  origin : ∀ {n : Nat} {s : Symbol}, r.symbols[n]? = some s → s.binder ∈ ds ∧ r.Numbers s.binder n
  /-- Every occurrence is recorded with the number of what it stands for. -/
  resolved : ∀ o ∈ os, ∃ d n, o.binder? = some d ∧ r.Numbers d n ∧ r.resolve? o.id = some n
  /-- Variables have types from their first occurrence on. -/
  typed : ∀ {n : Nat} {s : Symbol}, r.symbols[n]? = some s → s.binder.kind = .var →
    TypedSince (firstOf os s.binder) s.type?

namespace Resolutions

variable {r : Resolutions} {ds : List Binder} {os : List Occurrence}

private theorem records_empty : empty.Records [] [] := by
  refine ⟨fits_empty, by simp, ?_, by simp, ?_⟩
  · intro n s hs
    simp [empty] at hs
  · intro n s hs
    simp [empty] at hs

theorem Records.mem_of_numbers (h : r.Records ds os) {d : Binder} {n : Nat} (hn : r.Numbers d n) :
    d ∈ ds := by
  obtain ⟨s, hs, rfl⟩ := hn.symbol
  exact (h.origin hs).1

/-! #### A name comes to stand for something

`Event.declare` adds a symbol behind the others and its declaration.  Nothing that was met
before can stand for it, since what it stands for is among the binders of that time.
-/

section Declare

variable {id : Ident} {kind : DeclKind} {implicit : Bool}

theorem Numbers.declare {d : Binder} {n : Nat} (h : r.Numbers d n) (hne : d.name.span ≠ id.span) :
    ((Event.declare id kind implicit).apply r).Numbers d n := by
  obtain ⟨s, hs, hbinder⟩ := h.symbol
  refine ⟨?_, s, getElem?_addSymbol hs, hbinder⟩
  rw [declaration?, declarations_declare, if_neg (Ne.symm hne)]
  exact h.declared

theorem numbers_declare_self (r : Resolutions) (id : Ident) (kind : DeclKind) (implicit : Bool) :
    ((Event.declare id kind implicit).apply r).Numbers ⟨kind, id, implicit⟩ r.symbols.size := by
  obtain ⟨s, hsymbols, hbinder, -⟩ := r.addSymbol_binder id kind implicit
  refine ⟨?_, s, ?_, hbinder⟩
  · rw [declaration?, declarations_declare, if_pos rfl]
  · show (r.addSymbol id kind implicit).symbols[r.symbols.size]? = some s
    rw [hsymbols, Array.getElem?_push_size]

/-- A new name is recorded behind the others by `Event.declare`. -/
theorem Records.declare (h : r.Records ds os) (hfresh : ∀ d ∈ ds, d.name.span ≠ id.span) :
    ((Event.declare id kind implicit).apply r).Records (ds ++ [⟨kind, id, implicit⟩]) os := by
  obtain ⟨new, hsymbols, hnew, -, htype⟩ := r.addSymbol_binder id kind implicit
  have hself := numbers_declare_self r id kind implicit
  have hkeep : ∀ {d n}, r.Numbers d n → ((Event.declare id kind implicit).apply r).Numbers d n :=
    fun hn => hn.declare (hfresh _ (h.mem_of_numbers hn))
  have hcases : ∀ {n s}, ((Event.declare id kind implicit).apply r).symbols[n]? = some s →
      r.symbols[n]? = some s ∨ n = r.symbols.size ∧ s = new := by
    intro n s hs
    have hs : (r.symbols.push new)[n]? = some s := hsymbols ▸ hs
    rw [Array.getElem?_push] at hs
    by_cases hn : n = r.symbols.size
    · rw [if_pos hn] at hs
      exact .inr ⟨hn, (Option.some.inj hs).symm⟩
    · rw [if_neg hn] at hs
      exact .inl hs
  refine ⟨h.fits.addSymbol id kind implicit, ?_, ?_, ?_, ?_⟩
  · intro d hd
    rcases List.mem_append.mp hd with hd | hd
    · obtain ⟨n, hn⟩ := h.numbered d hd
      exact ⟨n, hkeep hn⟩
    · obtain rfl := List.mem_singleton.mp hd
      exact ⟨_, hself⟩
  · intro n s hs
    rcases hcases hs with hs | ⟨rfl, rfl⟩
    · obtain ⟨hmem, hn⟩ := h.origin hs
      exact ⟨List.mem_append_left _ hmem, hkeep hn⟩
    · rw [hnew]
      exact ⟨List.mem_append_right _ (List.mem_singleton_self _), hself⟩
  · intro o ho
    obtain ⟨d, n, hd, hn, href⟩ := h.resolved o ho
    refine ⟨d, n, hd, hkeep hn, ?_⟩
    have hsame : (r.addSymbol id kind implicit).references = r.references := by
      cases kind <;> rfl
    show (r.addSymbol id kind implicit).references[o.id.span]? = some n
    rw [hsame]
    exact href
  · intro n s hs hkind
    rcases hcases hs with hs | ⟨rfl, rfl⟩
    · exact h.typed hs hkind
    · -- Nothing that was met before can stand for the new name.
      rw [hnew] at hkind ⊢
      have hnone : firstOf os ⟨kind, id, implicit⟩ = none := by
        rw [firstOf_eq_none]
        intro o ho heq
        obtain ⟨d, m, hd, hm, -⟩ := h.resolved o ho
        obtain rfl := Option.some.inj (hd.symm.trans heq)
        exact hfresh _ (h.mem_of_numbers hm) rfl
      rw [hnone, htype hkind]
      trivial

end Declare

/-! #### A name that stands for something is met

`Resolutions.meet` records a reference, and it writes a type if there is none.  The binder of
the symbol is the same before and after.
-/

section Meet

variable {o : Occurrence} {d : Binder} {n : Nat} {σ : ValueType}

theorem getElem?_meet (r : Resolutions) (id : Ident) (n i : Nat) (σ : ValueType) :
    (r.meet id n σ).symbols[i]? =
      if n = i then r.symbols[i]?.map (Symbol.fixType σ) else r.symbols[i]? :=
  getElem?_fixType (r.bindReference id.span n) n i σ

theorem Numbers.meet {d' : Binder} {m : Nat} (h : r.Numbers d' m) (id : Ident) (n : Nat)
    (σ : ValueType) : (r.meet id n σ).Numbers d' m := by
  obtain ⟨s, hs, rfl⟩ := h.symbol
  refine ⟨h.declared, ?_⟩
  rw [getElem?_meet, hs]
  by_cases hm : n = m
  · rw [if_pos hm]
    exact ⟨s.fixType σ, rfl, Symbol.binder_fixType σ s⟩
  · rw [if_neg hm]
    exact ⟨s, rfl, rfl⟩

private theorem resolve?_meet_self (r : Resolutions) (id : Ident) (n : Nat) (σ : ValueType) :
    (r.meet id n σ).resolve? id = some n := resolve?_bindReference r id n

private theorem resolve?_meet_of_ne {id id' : Ident} (h : id'.span ≠ id.span) :
    (r.meet id n σ).resolve? id' = r.resolve? id' := by
  show (r.references.insert id.span n)[id'.span]? = _
  rw [Std.TreeMap.getElem?_insert, if_neg (by simpa using Ne.symm h)]
  rfl

/-- The symbol of a variable that was met has a type: `fixType` keeps `TypedSince`. -/
theorem typedSince_meet {s : Symbol} {first : Option Occurrence}
    (h : TypedSince first s.type?) (hkind : s.binder.kind = .var)
    (hσ : o.role.Reads → σ = .integer) :
    TypedSince (first.or (some o)) (s.fixType σ).type? := by
  cases first with
  | none =>
      cases htype : s.type? with
      | none =>
          rw [Symbol.type?_fixType (Symbol.kind_eq_var hkind) htype]
          exact hσ
      | some τ =>
          rw [htype] at h
          exact h.elim
  | some first =>
      cases htype : s.type? with
      | none =>
          rw [htype] at h
          exact h.elim
      | some τ =>
          rw [Symbol.fixType_of_settled (Symbol.settled_of_type? htype), htype]
          rw [htype] at h
          exact h

/-- A name that was met is recorded behind the others by `Resolutions.meet`. -/
theorem Records.meet (h : r.Records ds os) (hd : o.binder? = some d) (hn : r.Numbers d n)
    (hfresh : ∀ o' ∈ os, o'.id.span ≠ o.id.span)
    (hσ : d.kind = .var → o.role.Reads → σ = .integer) :
    (r.meet o.id n σ).Records ds (os ++ [o]) := by
  refine ⟨Fits.fixType (r := r.bindReference o.id.span n) h.fits n σ, ?_, ?_, ?_, ?_⟩
  · intro d' hd'
    obtain ⟨m, hm⟩ := h.numbered d' hd'
    exact ⟨m, hm.meet o.id n σ⟩
  · intro i s hs
    rw [getElem?_meet] at hs
    by_cases hi : n = i
    · rw [if_pos hi] at hs
      obtain ⟨s₀, hs₀, rfl⟩ := Option.map_eq_some_iff.mp hs
      rw [Symbol.binder_fixType]
      exact ⟨(h.origin hs₀).1, (h.origin hs₀).2.meet o.id n σ⟩
    · rw [if_neg hi] at hs
      exact ⟨(h.origin hs).1, (h.origin hs).2.meet o.id n σ⟩
  · intro o' ho'
    rcases List.mem_append.mp ho' with ho' | ho'
    · obtain ⟨d', m, hd', hm, href⟩ := h.resolved o' ho'
      exact ⟨d', m, hd', hm.meet o.id n σ, (resolve?_meet_of_ne (hfresh o' ho')).trans href⟩
    · obtain rfl := List.mem_singleton.mp ho'
      exact ⟨d, n, hd, hn.meet o'.id n σ, resolve?_meet_self r o'.id n σ⟩
  · intro i s hs hkind
    rw [getElem?_meet] at hs
    rw [firstOf_append]
    by_cases hi : n = i
    · -- The symbol that was met: this occurrence is the first one if there was none before.
      subst hi
      rw [if_pos rfl] at hs
      obtain ⟨s₀, hs₀, rfl⟩ := Option.map_eq_some_iff.mp hs
      obtain ⟨s₁, hs₁, hbinder⟩ := hn.symbol
      obtain rfl := Option.some.inj (hs₀.symm.trans hs₁)
      rw [Symbol.binder_fixType] at hkind ⊢
      rw [if_pos (hd.trans (congrArg some hbinder.symm))]
      exact typedSince_meet (h.typed hs₀ hkind) hkind (hσ (hbinder ▸ hkind))
    · rw [if_neg hi] at hs
      have hother : o.binder? ≠ some s.binder := by
        intro heq
        obtain rfl := Option.some.inj (hd.symm.trans heq)
        exact hi (hn.unique (h.origin hs).2)
      rw [if_neg hother, Option.or_none]
      exact h.typed hs hkind

end Meet

end Resolutions

/-! ### Scopes

The frames of the scopes are those of the blocks around the site, with numbers for binders
(`Site.frames`).  A new declaration changes the innermost frame and no other, and a type or a
reference changes none.  `Stands` puts tables and scopes together.
-/

/-- What the names of a block are numbered. -/
def Enclosing.frame (r : Resolutions) (b : Enclosing) : Frame :=
  fun name => (b.binder? name).bind fun d => r.declaration? d.name

/-- The frames of the scopes at a site; below them is one that stays empty. -/
def Site.frames (r : Resolutions) (site : Site) : List Frame :=
  site.map (Enclosing.frame r) ++ [Frame.empty]

/-- Everything that the blocks around the site make visible is among the binders. -/
def Site.Holds (site : Site) (ds : List Binder) : Prop :=
  ∀ b ∈ site, ∀ name d, b.binder? name = some d → d ∈ ds

/-- Analysis stands at a site, has met these binders and occurrences, and knows no more. -/
structure Analysis.Stands (a : Analysis) (site : Site) (ds : List Binder) (os : List Occurrence) :
    Prop where
  records : a.resolutions.Records ds os
  holds : site.Holds ds
  scopes : a.scopes.Represents (site.frames a.resolutions)

private theorem Enclosing.frame_congr {r r' : Resolutions} {b : Enclosing}
    (h : ∀ name d, b.binder? name = some d → r'.declaration? d.name = r.declaration? d.name) :
    b.frame r' = b.frame r := by
  funext name
  cases hb : b.binder? name with
  | none => simp [Enclosing.frame, hb]
  | some d => simp [Enclosing.frame, hb, h name d hb]

private theorem Site.frames_congr {r r' : Resolutions} {site : Site} {ds : List Binder}
    (hholds : site.Holds ds) (h : ∀ d ∈ ds, r'.declaration? d.name = r.declaration? d.name) :
    site.frames r' = site.frames r := by
  rw [Site.frames, Site.frames]
  congr 1
  apply List.map_congr_left
  intro b hb
  exact Enclosing.frame_congr fun name d hd => h d (hholds b hb name d hd)

/-- A name stands for the same thing in the `frames` as it does by `visible?` at the site. -/
theorem Site.lookupIn_frames {r : Resolutions} {name : String} :
    ∀ {site : Site}, (∀ b ∈ site, ∀ d, b.binder? name = some d →
        ∃ n, r.declaration? d.name = some n) →
      Scopes.lookupIn (site.frames r) name =
        (site.visible? name).bind fun d => r.declaration? d.name
  | [], _ => rfl
  | b :: outer, h => by
      have ih : Scopes.lookupIn (Site.frames r outer) name =
          (Site.visible? outer name).bind fun d => r.declaration? d.name :=
        Site.lookupIn_frames fun b' hb' => h b' (List.mem_cons_of_mem _ hb')
      have hunfold : Scopes.lookupIn (Site.frames r (b :: outer)) name =
          (b.frame r name).or (Scopes.lookupIn (Site.frames r outer) name) := by
        show List.findSome? _ (b.frame r :: Site.frames r outer) = _
        rw [List.findSome?_cons]
        cases b.frame r name <;> rfl
      rw [hunfold, ih, Site.visible?_cons]
      cases hb : b.binder? name with
      | none => simp [Enclosing.frame, hb]
      | some d =>
          obtain ⟨n, hn⟩ := h b List.mem_cons_self d hb
          simp [Enclosing.frame, hb, hn]

namespace Analysis.Stands

variable {a : Analysis} {site outer : Site} {b : Enclosing} {ds : List Binder}
  {os : List Occurrence} {name : String} {d : Binder}

theorem start : Analysis.start.Stands [] [] [] :=
  ⟨Resolutions.records_empty, by simp [Site.Holds], Scopes.represents_empty⟩

private theorem lookup?_eq (h : a.Stands site ds os) (name : String) :
    a.scopes.lookup? name =
      (site.visible? name).bind fun d => a.resolutions.declaration? d.name := by
  rw [h.scopes.lookup?]
  apply Site.lookupIn_frames
  intro b hb d hd
  obtain ⟨n, hn⟩ := h.records.numbered d (h.holds b hb name d hd)
  exact ⟨n, hn.declared⟩

/-- A name that is visible nowhere is not found by `lookup?`. -/
theorem lookup?_none (h : a.Stands site ds os) (hnone : site.visible? name = none) :
    a.scopes.lookup? name = none := by
  rw [h.lookup?_eq, hnone]
  rfl

private theorem mem_of_visible? (h : a.Stands site ds os) (hd : site.visible? name = some d) :
    d ∈ ds := by
  obtain ⟨b, hb, hbd⟩ := List.exists_of_findSome?_eq_some hd
  exact h.holds b hb name d hbd

/-- A name that is visible is found by `lookup?`, as the symbol of what it stands for. -/
theorem lookup?_some (h : a.Stands site ds os) (hd : site.visible? name = some d) :
    ∃ n, a.resolutions.Numbers d n ∧ a.resolutions.symbols[n]? = some (a.resolutions.symbol n) ∧
      (a.resolutions.symbol n).binder = d ∧ a.scopes.lookup? name = some n := by
  obtain ⟨n, hn⟩ := h.records.numbered d (h.mem_of_visible? hd)
  obtain ⟨s, hs, hbinder⟩ := hn.symbol
  have hlookup : a.scopes.lookup? name = some n := by
    rw [h.lookup?_eq, hd, Option.bind_some, hn.declared]
  obtain rfl := Resolutions.symbol_eq hs
  exact ⟨n, hn, hs, hbinder, hlookup⟩

/-- A name that stands for something is met. -/
theorem meet (h : a.Stands site ds os) {o : Occurrence} {n : Nat} {σ : ValueType}
    (hd : o.binder? = some d) (hn : a.resolutions.Numbers d n)
    (hfresh : ∀ o' ∈ os, o'.id.span ≠ o.id.span)
    (hσ : d.kind = .var → o.role.Reads → σ = .integer) :
    ({ a with resolutions := a.resolutions.meet o.id n σ } : Analysis).Stands site ds
      (os ++ [o]) := by
  refine ⟨h.records.meet hd hn hfresh hσ, h.holds, ?_⟩
  have hframes : site.frames (a.resolutions.meet o.id n σ) = site.frames a.resolutions :=
    Site.frames_congr h.holds fun _ _ => rfl
  show a.scopes.Represents (site.frames (a.resolutions.meet o.id n σ))
  rw [hframes]
  exact h.scopes

/-- The block with one more name that it had not, which `binder?` finds from then on. -/
structure Adds (b b' : Enclosing) (d : Binder) : Prop where
  fresh : b.binder? d.name.name = none
  added : b'.binder? d.name.name = some d
  others : ∀ name, name ≠ d.name.name → b'.binder? name = b.binder? name

/-- A name comes to stand for something in the innermost block. -/
theorem declare (h : a.Stands (b :: outer) ds os) {b' : Enclosing} {id : Ident} {kind : DeclKind}
    {implicit : Bool} (hfresh : ∀ d ∈ ds, d.name.span ≠ id.span)
    (hadds : Adds b b' ⟨kind, id, implicit⟩) :
    ∃ a', Analysis.declare id kind implicit a = .ok a.resolutions.symbols.size a' ∧
      a'.resolutions = (Event.declare id kind implicit).apply a.resolutions ∧
      a'.Stands (b' :: outer) (ds ++ [⟨kind, id, implicit⟩]) os := by
  have hnone : b.frame a.resolutions id.name = none := by
    simp [Enclosing.frame, hadds.fresh]
  obtain ⟨scopes, hdeclare, hscopes⟩ :=
    h.scopes.declare_of_none hnone a.resolutions.symbols.size
  have hrecords : ((Event.declare id kind implicit).apply a.resolutions).Records
      (ds ++ [⟨kind, id, implicit⟩]) os := h.records.declare hfresh
  have hself := Resolutions.numbers_declare_self a.resolutions id kind implicit
  have hsame : ∀ d ∈ ds,
      ((Event.declare id kind implicit).apply a.resolutions).declaration? d.name =
        a.resolutions.declaration? d.name := by
    intro d hd
    rw [Resolutions.declaration?, Resolutions.declarations_declare, if_neg (hfresh d hd).symm]
    rfl
  have hholds : Site.Holds outer ds := fun b'' hb'' => h.holds b'' (List.mem_cons_of_mem _ hb'')
  refine ⟨⟨scopes, (Event.declare id kind implicit).apply a.resolutions⟩, ?_, rfl, hrecords, ?_, ?_⟩
  · exact declare_eq_ok.mpr ⟨rfl, scopes, hdeclare, rfl⟩
  · intro b'' hb'' name d hd
    rcases List.mem_cons.mp hb'' with rfl | hb''
    · by_cases hname : name = id.name
      · subst hname
        obtain rfl := Option.some.inj (hd.symm.trans hadds.added)
        exact List.mem_append_right _ (List.mem_singleton_self _)
      · rw [hadds.others name hname] at hd
        exact List.mem_append_left _ (h.holds b List.mem_cons_self name d hd)
    · exact List.mem_append_left _ (hholds b'' hb'' name d hd)
  · show scopes.Represents (b'.frame ((Event.declare id kind implicit).apply a.resolutions) ::
      Site.frames ((Event.declare id kind implicit).apply a.resolutions) outer)
    rw [Site.frames_congr hholds hsame]
    -- The frame of the innermost block gets one more name, with the number of the new symbol.
    have hframe : b'.frame ((Event.declare id kind implicit).apply a.resolutions) =
        (b.frame a.resolutions).bind id.name a.resolutions.symbols.size := by
      funext name
      by_cases hname : name = id.name
      · subst hname
        have hadded : b'.binder? id.name = some ⟨kind, id, implicit⟩ := hadds.added
        rw [Frame.bind_self, Enclosing.frame, hadded, Option.bind_some, hself.declared]
      · rw [Frame.bind_of_ne _ _ hname, Enclosing.frame, Enclosing.frame,
          hadds.others name hname]
        cases hb : b.binder? name with
        | none => rfl
        | some d => exact hsame d (h.holds b List.mem_cons_self name d hb)
    rw [hframe]
    exact hscopes

/-- Opening a scope adds a block without names, and an empty frame (`Scopes.push`). -/
theorem push (h : a.Stands outer ds os) :
    ({ a with scopes := a.scopes.push } : Analysis).Stands (⟨[], []⟩ :: outer) ds os := by
  refine ⟨h.records, ?_, h.scopes.push⟩
  intro b hb name d hd
  rcases List.mem_cons.mp hb with rfl | hb
  · simp [Enclosing.binder?] at hd
  · exact h.holds b hb name d hd

/-- Closing a scope takes the names of its block away (`Scopes.pop`). -/
theorem pop (h : a.Stands (b :: outer) ds os) :
    ({ a with scopes := a.scopes.pop } : Analysis).Stands outer ds os := by
  refine ⟨h.records, fun b' hb' => h.holds b' (List.mem_cons_of_mem _ hb'), h.scopes.pop ?_⟩
  simp

end Analysis.Stands

end StackCode
