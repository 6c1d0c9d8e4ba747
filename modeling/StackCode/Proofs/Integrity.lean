/-
What holds in every state of the analysis.

Symbols are only ever added behind the others, a variable with the next slot, and a symbol
changes only by getting a type that it did not have.  So the slots of the variables are
0, 1, 2 and so on in the order of their declarations, slots and types fit the kinds of their
symbols, and a type that is known stays.  A write of a type would undo all but the slots if
it could happen to any symbol.  It is because `Change.fix` has asked for the kind and the type
that `Fits.setType` and `typesKept_of_change` hold.

Tables refer to symbols by number: the tables of references and declarations, the scopes,
and what the scopes hide.  A number comes into a table only with a name that its symbol has,
and there are always more symbols than numbers in use.  References and declarations are kept
by spans, and in a program that was parsed a span belongs to one name.
-/
import StackCode.Proofs.History

namespace StackCode

/-! ### Symbols

What is true of the symbols does not depend on scopes.  `addSymbol` puts a symbol behind the
others and `setType` changes one in place, and each lemma says what one of the two does to
one of the properties.
-/

/-- At most one name stands at a place. -/
def Unambiguous (names : List Ident) : Prop :=
  ∀ id ∈ names, ∀ id' ∈ names, id.span = id'.span → id.name = id'.name

namespace Resolutions

variable {r : Resolutions}

/-- The slots of the variables, in the order of their declarations. -/
def slots (r : Resolutions) : List Nat := r.symbols.toList.filterMap Symbol.slot?

private theorem slots_addSymbol (id : Ident) (kind : DeclKind) (implicit : Bool)
    (h : r.slots = List.range r.variableCount) :
    (r.addSymbol id kind implicit).slots =
      List.range (r.addSymbol id kind implicit).variableCount := by
  cases kind with
  | var =>
      show (r.symbols.push _).toList.filterMap Symbol.slot? = List.range (r.variableCount + 1)
      rw [Array.toList_push, List.filterMap_append, List.range_succ, ← h]
      rfl
  | func | registerAlias =>
      show (r.symbols.push _).toList.filterMap Symbol.slot? = List.range r.variableCount
      rw [Array.toList_push, List.filterMap_append, ← h]
      exact List.append_nil _

private theorem slots_setType (r : Resolutions) (decl : Nat) (type : ValueType) :
    (r.setType decl type).slots = r.slots := by
  have hsame : (r.setType decl type).symbols.toList.map Symbol.slot? =
      r.symbols.toList.map Symbol.slot? := by
    refine List.ext_getElem? fun i => ?_
    simp only [setType, List.getElem?_map, Array.getElem?_toList, Array.getElem?_modify]
    split
    · rw [Option.map_map]
      rfl
    · rfl
  have hslots : ∀ ss : List Symbol,
      ss.filterMap Symbol.slot? = (ss.map Symbol.slot?).filterMap id := by
    intro ss
    rw [List.filterMap_map]
    rfl
  rw [slots, slots, hslots, hsame, ← hslots]

/-- A variable may get any type. -/
theorem Fits.setType {decl : Nat} (h : r.Fits) (hkind : (r.symbol decl).kind = .var)
    (type : ValueType) : (r.setType decl type).Fits := by
  intro i s hs
  have hs : (r.symbols.modify decl (Symbol.setType type))[i]? = some s := hs
  rw [Array.getElem?_modify] at hs
  split at hs
  · rename_i hi
    subst hi
    obtain ⟨s₀, hs₀, rfl⟩ := Option.map_eq_some_iff.mp hs
    rw [symbol_eq hs₀] at hkind
    exact (h decl s₀ hs₀).setType hkind type
  · exact h i s hs

/-- There is a symbol of this number, and it has this name. -/
def HasName (r : Resolutions) (decl : Nat) (name : String) : Prop :=
  ∃ s, r.symbols[decl]? = some s ∧ s.name = name

theorem HasName.addSymbol {decl : Nat} {name : String} (h : r.HasName decl name) (id : Ident)
    (kind : DeclKind) (implicit : Bool) : (r.addSymbol id kind implicit).HasName decl name := by
  obtain ⟨s, hs, hname⟩ := h
  exact ⟨s, getElem?_addSymbol hs, hname⟩

theorem HasName.setType {decl : Nat} {name : String} (h : r.HasName decl name) (other : Nat)
    (type : ValueType) : (r.setType other type).HasName decl name := by
  obtain ⟨s, hs, hname⟩ := h
  simp only [HasName, Resolutions.setType, Array.getElem?_modify, hs]
  split
  · exact ⟨s.setType type, rfl, hname⟩
  · exact ⟨s, rfl, hname⟩

private theorem hasName_addSymbol (r : Resolutions) (id : Ident) (kind : DeclKind)
    (implicit : Bool) :
    (r.addSymbol id kind implicit).HasName r.symbols.size id.name := by
  cases kind <;> exact ⟨_, Array.getElem?_push_size, rfl⟩

/--
The span is that of a name among the given ones, and the symbol has the name that is there
(`HasName`).
-/
def AgreesAt (r : Resolutions) (names : List Ident) (span : Span) (decl : Nat) : Prop :=
  (∃ id ∈ names, id.span = span) ∧ ∀ id ∈ names, id.span = span → r.HasName decl id.name

private theorem AgreesAt.of_hasName {names : List Ident} (hnames : Unambiguous names) {id : Ident}
    (hid : id ∈ names) {decl : Nat} (h : r.HasName decl id.name) :
    r.AgreesAt names id.span decl := by
  refine ⟨⟨id, hid, rfl⟩, fun id' hid' hspan => ?_⟩
  rw [hnames id' hid' id hid hspan]
  exact h

theorem AgreesAt.imp {r' : Resolutions} {names : List Ident} {span : Span} {decl : Nat}
    (h : r.AgreesAt names span decl) (himp : ∀ {name}, r.HasName decl name → r'.HasName decl name) :
    r'.AgreesAt names span decl :=
  ⟨h.1, fun id hid hspan => himp (h.2 id hid hspan)⟩

end Resolutions

namespace Analysis

/-! ### Well-formed states

`WellFormed` is the invariant, and `of_change` has one case for each constructor of
`Change`.  The table of scopes is part of it because a number that is recorded as a use comes
from there.  `TypesKept` is no property of a state but of two, and is transitive, so it is
taken along the history as a relation.
-/

/-- What is known of the given names is in order. -/
structure WellFormed (names : List Ident) (a : Analysis) : Prop where
  /-- Variables have the slots from 0 on, in the order of their declarations. -/
  slots : a.resolutions.slots = List.range a.resolutions.variableCount
  /-- Only variables have slots, aliases are integers, and functions have no type. -/
  kinds : a.resolutions.Fits
  /-- References lead to symbols of the names that refer to them. -/
  references : ∀ span decl, a.resolutions.references[span]? = some decl →
    a.resolutions.AgreesAt names span decl
  /-- Declarations lead to symbols of the names that declare them. -/
  declarations : ∀ span decl, a.resolutions.declarations[span]? = some decl →
    a.resolutions.AgreesAt names span decl
  /-- Names in scope stand for symbols of that name, and so do those that are hidden. -/
  scopes : ∀ name b, a.scopes.Contains name b → a.resolutions.HasName b.decl name

namespace WellFormed

variable {names : List Ident} {a b : Analysis}

theorem start (names : List Ident) : WellFormed names start where
  slots := rfl
  kinds := Resolutions.fits_empty
  references := by simp [Analysis.start, Resolutions.empty]
  declarations := by simp [Analysis.start, Resolutions.empty]
  scopes := fun name b hb => absurd hb (Scopes.not_contains_empty name b)

theorem push (h : WellFormed names a) : WellFormed names { a with scopes := a.scopes.push } :=
  { h with scopes := fun name b hb => h.scopes name b (Scopes.contains_of_push hb) }

theorem pop (h : WellFormed names a) : WellFormed names { a with scopes := a.scopes.pop } :=
  { h with scopes := fun name b hb => h.scopes name b (Scopes.contains_of_pop hb) }

theorem fix (h : WellFormed names a) {decl : Nat} (hkind : (a.resolutions.symbol decl).kind = .var)
    (type : ValueType) :
    WellFormed names { a with resolutions := a.resolutions.setType decl type } where
  slots := (a.resolutions.slots_setType decl type).trans h.slots
  kinds := h.kinds.setType hkind type
  references := fun span d hd => (h.references span d hd).imp fun hname => hname.setType decl type
  declarations := fun span d hd =>
    (h.declarations span d hd).imp fun hname => hname.setType decl type
  scopes := fun name b hb => (h.scopes name b hb).setType decl type

/--
A name is recorded as a use of a symbol that has this name, by `AgreesAt` for what it was
looked up as.
-/
theorem use (h : WellFormed names a) (hnames : Unambiguous names) {id : Ident} {decl : Nat}
    (hid : id ∈ names) (hlookup : a.scopes.lookup? id.name = some decl) :
    WellFormed names { a with resolutions := a.resolutions.bindReference id.span decl } := by
  obtain ⟨b, hb, rfl⟩ := Scopes.contains_of_lookup? hlookup
  have hname := h.scopes id.name b hb
  refine { h with references := fun span d hd => ?_ }
  simp only [Resolutions.bindReference, Std.TreeMap.getElem?_insert, Std.compare_eq_iff_eq] at hd
  split at hd
  · rename_i hspan
    subst hspan
    obtain rfl := Option.some.inj hd
    exact .of_hasName hnames hid hname
  · exact h.references span d hd

/-- A new symbol has the name that is declared, and nothing else changes its symbol. -/
theorem declare (h : WellFormed names a) (hnames : Unambiguous names) {id : Ident}
    {kind : DeclKind} {implicit : Bool} {decl : Nat} (hid : id ∈ names)
    (hdeclare : Analysis.declare id kind implicit a = .ok decl b) : WellFormed names b := by
  obtain ⟨rfl, scopes, hscopes, rfl⟩ := declare_eq_ok.mp hdeclare
  have hkeep : ∀ {d name}, a.resolutions.HasName d name →
      ((Event.declare id kind implicit).apply a.resolutions).HasName d name :=
    fun hname => hname.addSymbol id kind implicit
  have hnew : ((Event.declare id kind implicit).apply a.resolutions).HasName
      a.resolutions.symbols.size id.name := a.resolutions.hasName_addSymbol id kind implicit
  constructor
  case slots => exact Resolutions.slots_addSymbol id kind implicit h.slots
  case kinds => exact h.kinds.addSymbol id kind implicit
  case references =>
    intro span d hd
    have hsame : ((Event.declare id kind implicit).apply a.resolutions).references =
        a.resolutions.references := by
      cases kind <;> rfl
    have hentry : ((Event.declare id kind implicit).apply a.resolutions).references[span]? =
        some d := hd
    rw [hsame] at hentry
    exact (h.references span d hentry).imp hkeep
  case declarations =>
    intro span d hd
    have hentry : ((Event.declare id kind implicit).apply a.resolutions).declarations[span]? =
        some d := hd
    rw [Resolutions.declarations_declare] at hentry
    split at hentry
    · rename_i hspan
      subst hspan
      obtain rfl := Option.some.inj hentry
      exact .of_hasName hnames hid hnew
    · exact (h.declarations span d hentry).imp hkeep
  case scopes =>
    -- The number that was entered is that of the symbol that was added behind the others.
    intro name b hb
    rcases Scopes.contains_of_declare hscopes hb with hb | ⟨rfl, heq⟩
    · exact hkeep (h.scopes name b hb)
    · rw [heq]
      exact hnew

/-- **Every `Change` leaves a well-formed state well-formed.** -/
theorem of_change (hnames : Unambiguous names) (hchange : Change names a b)
    (h : WellFormed names a) : WellFormed names b := by
  cases hchange with
  | none => exact h
  | push => exact h.push
  | pop => exact h.pop
  | declare hid hdeclare => exact h.declare hnames hid hdeclare
  | use hid hlookup => exact h.use hnames hid hlookup
  | fix hkind _ type => exact h.fix hkind type

end WellFormed

/-- Symbols whose types are known are the same in both. -/
def TypesKept (a b : Analysis) : Prop :=
  ∀ (i : Nat) (s : Symbol) (type : ValueType), a.resolutions.symbols[i]? = some s →
    s.type? = some type → b.resolutions.symbols[i]? = some s

theorem TypesKept.trans {a b c : Analysis} (h : TypesKept a b) (h' : TypesKept b c) :
    TypesKept a c :=
  fun i s type hs htype => h' i s type (h i s type hs htype) htype

/-- **No `Change` takes a type back**: one is written only where there is none. -/
theorem typesKept_of_change {names : List Ident} {a b : Analysis} (h : Change names a b) :
    TypesKept a b := by
  intro i s type hs htype
  cases h with
  | none | push | pop => exact hs
  | declare hid hdeclare =>
      obtain ⟨rfl, scopes, -, rfl⟩ := declare_eq_ok.mp hdeclare
      exact Resolutions.getElem?_addSymbol hs
  | use => exact hs
  | @fix decl _ _ hnone new =>
      have hother : decl ≠ i := by
        rintro rfl
        rw [Resolutions.symbol_eq hs] at hnone
        cases hnone.symm.trans htype
      show (a.resolutions.symbols.modify decl (Symbol.setType new))[i]? = some s
      rw [Array.getElem?_modify, if_neg hother, hs]

end Analysis

/-- In a program that was parsed, a place has one name: its names are `Unambiguous`. -/
theorem Program.unambiguous_of_parse {source : String} {tabWidth : Nat} {p : Program}
    (h : Program.parse source tabWidth = .ok p) : Unambiguous p.idents := by
  obtain ⟨ts, -, -, hnodup, hnamed⟩ := named_of_parse h
  have hwritten : ∀ id ∈ p.idents, ∃ t ∈ ts, id = t.ident := by
    intro id hid
    rw [← p.mentions_ids] at hid
    obtain ⟨m, hm, rfl⟩ := List.mem_map.mp hid
    obtain ⟨t, ht, -, hid⟩ := hnamed.written m hm
    exact ⟨t, ht, hid⟩
  intro id hid id' hid' hspan
  obtain ⟨t, ht, rfl⟩ := hwritten id hid
  obtain ⟨t', ht', rfl⟩ := hwritten id' hid'
  rw [List.inj_on_of_nodup_map hnodup ht ht' hspan]

/-- What `analyze` answers is in the state that the analysis of the block leaves behind. -/
theorem Program.resolutions_of_analyze {p : Program} {r : Resolutions} (h : p.analyze = .ok r) :
    (Analysis.outcome (Analysis.block p.block) .start).resolutions = r := by
  unfold analyze at h
  split at h
  · rename_i hblock
    rw [Analysis.outcome_of_ok hblock]
    exact Except.ok.inj h
  · cases h

/--
**Analysis keeps its tables in order all the way.**  Whatever program was parsed, and whether
or not there is an error in it, its analysis goes through the states of its history, one
change at a time, up to the state that it leaves behind, where its answer is.  In each of
these states variables have the slots from 0 on in the order of their declarations and
nothing else has a slot, aliases are integers and functions have no type, and every number
of a symbol in a table is that of a symbol with the name that it is looked up by.  A type
that is known in one state is the same in all later ones.
-/
theorem Program.history_wellFormed {source : String} {tabWidth : Nat} {p : Program}
    (h : Program.parse source tabWidth = .ok p) :
    Analysis.Visits p.idents .start p.history (Analysis.outcome (Analysis.block p.block) .start) ∧
    (∀ r, p.analyze = .ok r →
      (Analysis.outcome (Analysis.block p.block) .start).resolutions = r) ∧
    (∀ a ∈ Analysis.start :: p.history, a.WellFormed p.idents) ∧
    (Analysis.start :: p.history).Pairwise Analysis.TypesKept := by
  refine ⟨p.visits_history, fun r => resolutions_of_analyze, ?_, ?_⟩
  · exact p.visits_history.forall_mem (.of_change (unambiguous_of_parse h)) (.start _)
  · exact p.visits_history.pairwise Analysis.typesKept_of_change .trans

/-- Two variables of one name, and an error in the inner block, where a boolean is added to. -/
def addedBoolean : String :=
  "alias q = r1; var n; y = n > q; if y \x7b var n = y; z = n + 1; \x7d"

theorem Program.history_of_addedBoolean :
    ∃ p, Program.parse addedBoolean 4 = .ok p ∧ p.analyze.isOk = false ∧ p.history.length = 22 ∧
      (p.history.map (·.resolutions.slots)).getLast? = some [0, 1, 2] ∧
      (∀ a ∈ Analysis.start :: p.history, a.WellFormed p.idents) ∧
      (Analysis.start :: p.history).Pairwise Analysis.TypesKept := by
  have hviews : (Program.parse addedBoolean 4).toOption.map (fun p => (p.analyze.isOk,
      p.history.length, (p.history.map (·.resolutions.slots)).getLast?)) =
        some (false, 22, some [0, 1, 2]) := by
    decide +kernel
  cases hparse : Program.parse addedBoolean 4 with
  | error e =>
      rw [hparse] at hviews
      simp [Except.toOption] at hviews
  | ok p =>
      rw [hparse] at hviews
      simp only [Except.toOption, Option.map_some, Option.some.injEq, Prod.mk.injEq] at hviews
      obtain ⟨hanalyze, hlength, hslots⟩ := hviews
      exact ⟨p, rfl, hanalyze, hlength, hslots, (history_wellFormed hparse).2.2⟩

end StackCode
