/-
Resolution is lexical scoping.

Analysis finds what a name stands for in one table that changes as it goes, and records the
answer under the span of the name.  Here the records that are left in the end are compared
with what the text says (`Program.LexicallyResolved`): every name that refers to something
is recorded, with the number of what the innermost block around it makes of the name, and a
variable that was never declared belongs to the one assignment that introduced it and to the
block of that assignment.
-/
import StackCode.Proofs.Sections
import StackCode.Proofs.Walking

namespace StackCode

/-! ### Well-typed programs are well shaped

That analysis passes is known as `Typed`, and the walk along the visits asks for
`WellShaped`, which has the part of it that is not about types.  From there
`records_of_analyze` has all that is known of a program that passed.
-/

section WellShaped

variable {r : Resolutions}

private theorem NamesRegister.isSome_target? {e : Expr} (h : NamesRegister r e) :
    e.target?.isSome := by
  cases h with
  | register reg span => rfl
  | ident resolved known => rfl

private theorem isSome_target?_of_operandsTyped {operands : List Operand} {args : List Expr}
    (h : List.Forall₂ (OperandTyped r) operands args) :
    ∀ arg operand, (arg, operand) ∈ args.zip operands → operand = .register →
      arg.target?.isSome := by
  induction h with
  | nil =>
      intro arg operand hmem
      simp at hmem
  | cons head _ ih =>
      intro arg operand hmem hoperand
      rcases List.mem_cons.mp hmem with heq | hmem
      · obtain ⟨rfl, rfl⟩ := Prod.mk.inj heq
        subst hoperand
        exact NamesRegister.isSome_target? head
      · exact ih arg operand hmem hoperand

mutual

theorem Stmt.Typed.wellShaped : ∀ {s : Stmt}, s.Typed r → s.WellShaped
  | .assign .., h => by
      rw [Stmt.Typed] at h
      rw [Stmt.WellShaped]
      exact h.1
  | .compound .., h => by
      rw [Stmt.Typed] at h
      rw [Stmt.WellShaped]
      exact h.1
  | .ifThen .., h => by
      rw [Stmt.Typed] at h
      rw [Stmt.WellShaped]
      exact h.2.wellShaped
  | .ifElse .., h => by
      rw [Stmt.Typed] at h
      rw [Stmt.WellShaped]
      exact ⟨h.2.1.wellShaped, h.2.2.wellShaped⟩
  | .whileLoop .., h => by
      rw [Stmt.Typed] at h
      rw [Stmt.WellShaped]
      exact h.2.wellShaped
  | .func _ body _, h => by
      rw [Stmt.Typed] at h
      rw [Stmt.WellShaped]
      exact h.wellShaped
  | .ret .., _ => by
      rw [Stmt.WellShaped]
      trivial
  | .intrinsic i args _, h => by
      rw [Stmt.Typed] at h
      rw [Stmt.WellShaped]
      exact ⟨h.length_eq.symm.trans i.arity_eq_length_operands.symm,
        isSome_target?_of_operandsTyped h⟩
  | .call .., h => by
      rw [Stmt.Typed] at h
      rw [Stmt.WellShaped]
      exact h.2

theorem Block.Typed.wellShaped : ∀ {b : Block}, b.Typed r → b.WellShaped
  | ⟨_, body, _⟩, h => by
      rw [Block.Typed] at h
      rw [Block.WellShaped]
      exact stmtsTyped_wellShaped h

theorem stmtsTyped_wellShaped : ∀ {body : List Stmt}, stmtsTyped r body → stmtsWellShaped body
  | [], _ => by
      rw [stmtsWellShaped]
      trivial
  | s :: rest, h => by
      rw [stmtsTyped] at h
      rw [stmtsWellShaped]
      exact ⟨h.1.wellShaped, stmtsTyped_wellShaped h.2⟩

end

end WellShaped

/--
What analysis has recorded of a parsed program (`Records`), and what is known of the program
then.
-/
theorem Program.records_of_analyze {p : Program} {r : Resolutions} (hnamed : p.WellNamed)
    (h : p.analyze = .ok r) :
    r.Records (bindersOf p.visits) p.occurrences ∧ p.WellScoped ∧ DistinctVisits p.visits := by
  have hshape := (typed_of_analyze hnamed h).wellShaped
  have hdistinct := hnamed.distinctVisits hshape
  obtain ⟨hrecords, hnames⟩ := reached_of_analyze hdistinct h
  exact ⟨hrecords, ⟨hshape, hnames⟩, hdistinct⟩

/-! ### Names and what they stand for

What a block makes of a name has that name, and what was introduced was introduced by an
assignment.  Two occurrences at one place are one occurrence
(`DistinctVisits.occurrence_eq`), so the assignment that has introduced a variable is known
by its name.
-/

/-- What a block makes of a name by `binder?` has that name. -/
theorem Enclosing.name_of_binder? {b : Enclosing} {name : String} {d : Binder}
    (h : b.binder? name = some d) : d.name.name = name := by
  rw [Enclosing.binder?, Option.or_eq_some_iff, Option.map_eq_some_iff] at h
  rcases h with ⟨e, he, rfl⟩ | ⟨-, h⟩
  · simpa using List.find?_some he
  · obtain ⟨id, hid, rfl⟩ := Option.map_eq_some_iff.mp h
    simpa using List.find?_some hid

private theorem Occurrence.name_of_binder? {o : Occurrence} {d : Binder} (h : o.binder? = some d) :
    d.name.name = o.id.name := by
  unfold Occurrence.binder? at h
  by_cases hintro : o.introduces = true
  · rw [if_pos hintro] at h
    obtain rfl := Option.some.inj h
    rfl
  · rw [if_neg hintro] at h
    obtain ⟨b, -, hb⟩ := List.exists_of_findSome?_eq_some h
    exact Enclosing.name_of_binder? hb

/--
A variable without a declaration that is visible is among the `implicits` of a block around
the site.
-/
theorem Site.exists_of_visible?_introduced {site : Site} {name : String} {id : Ident}
    (h : site.visible? name = some id.introduced) :
    ∃ inner decls before behind outer,
      site = inner ++ ⟨decls, before ++ id :: behind⟩ :: outer := by
  obtain ⟨b, hb, hid⟩ := List.exists_of_findSome?_eq_some h
  obtain ⟨inner, outer, rfl⟩ := List.append_of_mem hb
  rw [Enclosing.binder?, Option.or_eq_some_iff, Option.map_eq_some_iff] at hid
  rcases hid with ⟨e, -, he⟩ | ⟨-, hid⟩
  · simp [Decl.binder, Ident.introduced] at he
  · obtain ⟨id', hmem, heq⟩ := Option.map_eq_some_iff.mp hid
    obtain rfl : id' = id := congrArg Binder.name heq
    obtain ⟨before, behind, himplicits⟩ := List.append_of_mem (List.mem_of_find?_eq_some hmem)
    exact ⟨inner, b.decls, before, behind, outer, by rw [← himplicits]⟩

/-- Two names at the same place are the same occurrence, because the spans are distinct (`uses`). -/
theorem DistinctVisits.occurrence_eq {vs : List Visit} (h : DistinctVisits vs) {o o' : Occurrence}
    (ho : o ∈ occurrencesOf vs) (ho' : o' ∈ occurrencesOf vs) (hid : o.id = o'.id) : o = o' :=
  List.inj_on_of_nodup_map h.uses ho ho' (congrArg Ident.span hid)

/-- What was introduced was introduced by an assignment to a name that was not visible. -/
theorem exists_introduces_of_mem_bindersOf {vs : List Visit} {d : Binder} (h : d ∈ bindersOf vs)
    (himplicit : d.implicit = true) :
    ∃ o ∈ occurrencesOf vs, o.introduces = true ∧ d = o.id.introduced := by
  obtain ⟨v, hv, hd⟩ := List.mem_filterMap.mp h
  cases v with
  | declares earlier e =>
      obtain rfl := Option.some.inj hd
      simp [Decl.binder] at himplicit
  | uses o =>
      by_cases hintro : o.introduces = true
      · rw [Visit.binder?, if_pos hintro] at hd
        exact ⟨o, List.mem_filterMap.mpr ⟨.uses o, hv, rfl⟩, hintro, (Option.some.inj hd).symm⟩
      · rw [Visit.binder?, if_neg hintro] at hd
        simp at hd

private theorem introduced_mem_bindersOf {vs : List Visit} {o : Occurrence}
    (h : o ∈ occurrencesOf vs) (hintro : o.introduces = true) : o.id.introduced ∈ bindersOf vs := by
  obtain ⟨v, hv, ho⟩ := List.mem_filterMap.mp h
  cases v with
  | declares earlier d => simp [Visit.use?] at ho
  | uses o' =>
      obtain rfl := Option.some.inj ho
      exact List.mem_filterMap.mpr ⟨.uses o', hv, by rw [Visit.binder?, if_pos hintro]⟩

/-! ### The records of a program

All but the last field of `LexicallyResolved` is in `Records` already.  For `confined` one
goes from a number back to the binder: an occurrence with the number of a variable that was
introduced stands for that variable, so the block that makes it visible has the assignment
among those before the site.
-/

/-- What is recorded of the names of a program is what lexical scoping says. -/
structure Program.LexicallyResolved (p : Program) (r : Resolutions) : Prop where
  /-- Every name that refers to something is among the occurrences. -/
  occurs : ∀ id ∈ p.block.refs, ∃ o ∈ p.occurrences, o.id = id
  /-- Every declaration is recorded, with a symbol for what it declares. -/
  declared : ∀ d ∈ p.block.declared, ∃ n, r.Numbers d.binder n
  /-- An occurrence is recorded as a use of what the innermost block makes of its name. -/
  resolved : ∀ o ∈ p.occurrences, ∃ d n, o.binder? = some d ∧ d.name.name = o.id.name ∧
    r.Numbers d n ∧ r.resolve? o.id = some n
  /-- A name has a variable of its own just if it is assigned to where it is not visible. -/
  introduced : ∀ o ∈ p.occurrences, o.introduces = true ↔ ∃ n, r.Numbers o.id.introduced n
  /-- There are no other variables without a declaration. -/
  implicit : ∀ (n : Nat) (s : Symbol), r.symbols[n]? = some s → s.isImplicit = true →
    ∃ o ∈ p.occurrences, o.introduces = true ∧ s.binder = o.id.introduced
  /-- Such a variable is used behind the assignment, in its block and the blocks inside that. -/
  confined : ∀ o₀ ∈ p.occurrences, o₀.introduces = true → ∀ o ∈ p.occurrences,
    r.resolve? o.id = r.declaration? o₀.id → o = o₀ ∨
      ∃ b outer inner later, o₀.site = b :: outer ∧
        o.site = inner ++ ⟨b.decls, b.implicits ++ o₀.id :: later⟩ :: outer

namespace Program

variable {p : Program} {r : Resolutions}

/-- Two binders with one number are one binder: `Numbers` goes through the symbol. -/
theorem numbers_inj {d d' : Binder} {n : Nat} (h : r.Numbers d n) (h' : r.Numbers d' n) :
    d = d' := by
  obtain ⟨s, hs, rfl⟩ := h.symbol
  obtain ⟨s', hs', rfl⟩ := h'.symbol
  rw [Option.some.inj (hs.symm.trans hs')]

private theorem confined_of_records (hrecords : r.Records (bindersOf p.visits) p.occurrences)
    (hdistinct : DistinctVisits p.visits) {o₀ o : Occurrence} (ho₀ : o₀ ∈ p.occurrences)
    (hintro : o₀.introduces = true) (ho : o ∈ p.occurrences)
    (hsame : r.resolve? o.id = r.declaration? o₀.id) :
    o = o₀ ∨ ∃ b outer inner later, o₀.site = b :: outer ∧
      o.site = inner ++ ⟨b.decls, b.implicits ++ o₀.id :: later⟩ :: outer := by
  obtain ⟨d, n, hd, hn, href⟩ := hrecords.resolved o ho
  obtain ⟨m, hm⟩ := hrecords.numbered _ (introduced_mem_bindersOf ho₀ hintro)
  -- The two have one number, so the occurrence stands for what was introduced.
  have hnumber : some n = some m := href.symm.trans (hsame.trans hm.declared)
  obtain rfl := Option.some.inj hnumber
  obtain rfl := numbers_inj hn hm
  unfold Occurrence.binder? at hd
  by_cases hself : o.introduces = true
  · rw [if_pos hself] at hd
    have hid : o.id = o₀.id := congrArg Binder.name (Option.some.inj hd)
    exact .inl (hdistinct.occurrence_eq ho ho₀ hid)
  · rw [if_neg hself] at hd
    obtain ⟨inner, decls, before, behind, outer, hsite⟩ :=
      Site.exists_of_visible?_introduced hd
    obtain ⟨o₁, ho₁, -, hid, hsite₁⟩ := grounded ho inner decls before o₀.id behind outer hsite
    obtain rfl := hdistinct.occurrence_eq ho₁ ho₀ hid
    exact .inr ⟨⟨decls, before⟩, outer, inner, behind, hsite₁, hsite⟩

/--
**Name resolution is lexical scoping.**  If a parsed program passes analysis, every
name in it that refers to something is recorded as a use of what the innermost block
around it makes of the name, and every declaration has a symbol.  A plain assignment
introduces a variable just if no block around it makes the name visible; there are
no other variables without a declaration, and each is used only behind the assignment
and within its block.
-/
theorem lexicallyResolved_of_analyze {source : String} {tabWidth : Nat}
    (hparse : Program.parse source tabWidth = .ok p) (h : p.analyze = .ok r) :
    p.LexicallyResolved r := by
  have hnamed := wellNamed_of_parse hparse
  obtain ⟨hrecords, hscoped, hdistinct⟩ := records_of_analyze hnamed h
  refine ⟨?_, ?_, ?_, ?_, ?_, ?_⟩
  · intro id hid
    have hperm := Block.occurrencesOf_visits_perm [] hscoped.shape
    exact List.mem_map.mp (hperm.mem_iff.mpr hid)
  · intro d hd
    have hsub := p.block.declared_sublist_bindersOf []
    exact hrecords.numbered _ (hsub.subset (List.mem_map_of_mem hd))
  · intro o ho
    obtain ⟨d, n, hd, hn, href⟩ := hrecords.resolved o ho
    exact ⟨d, n, hd, Occurrence.name_of_binder? hd, hn, href⟩
  · intro o ho
    constructor
    · intro hintro
      exact hrecords.numbered _ (introduced_mem_bindersOf ho hintro)
    · intro hnumbered
      obtain ⟨n, hn⟩ := hnumbered
      obtain ⟨o', ho', hintro, heq⟩ :=
        exists_introduces_of_mem_bindersOf (hrecords.mem_of_numbers hn) rfl
      have hid : o.id = o'.id := congrArg Binder.name heq
      rw [hdistinct.occurrence_eq ho ho' hid]
      exact hintro
  · intro n s hs himplicit
    exact exists_introduces_of_mem_bindersOf (hrecords.origin hs).1 himplicit
  · intro o₀ ho₀ hintro o ho hsame
    exact confined_of_records hrecords hdistinct ho₀ hintro ho hsame

/--
A name that is introduced at the top, hidden in a block by a declaration behind its
use, and used in a function; and one that is introduced twice, in a block and
behind it.
-/
def shadowing : String :=
  "x = 1; if x == 1 { y = x; var x; x = 2; } y = 3; func f { y += x; } f();"

/-- The names of the sample are resolved, three of them to variables that they introduce. -/
theorem shadowing_lexicallyResolved :
    ∃ p r, Program.parse shadowing 4 = .ok p ∧ p.analyze = .ok r ∧ p.occurrences.length = 9 ∧
      (p.occurrences.filter (·.introduces)).length = 3 ∧ p.LexicallyResolved r := by
  have htest : Compiles.passes shadowing 4 .default (fun p _ _ =>
      p.occurrences.length == 9 && (p.occurrences.filter (·.introduces)).length == 3) = true := by
    decide +kernel
  obtain ⟨p, r, sections, hcompiles, hcount⟩ := Compiles.of_passes htest
  rw [Bool.and_eq_true, beq_iff_eq, beq_iff_eq] at hcount
  exact ⟨p, r, hcompiles.parsed, hcompiles.analyzed, hcount.1, hcount.2,
    lexicallyResolved_of_analyze hcompiles.parsed hcompiles.analyzed⟩

end Program

end StackCode
