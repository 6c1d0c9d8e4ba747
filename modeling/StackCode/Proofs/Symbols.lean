/-
The symbols that analysis leaves behind.

Variables are numbered as they are declared, so every slot is below the number of
variables and no two variables share one.  Every function of a program has a
symbol, no two functions have the same, and every symbol that is a function belongs
to one of them; that is what makes it safe to call whatever a name resolves to.

`Program.Resolved` collects what the phases after analysis rely on.
-/
import Mathlib.Data.List.Induction
import StackCode.Proofs.Parsing.Stmt
import StackCode.Proofs.Typing

namespace StackCode

namespace Resolutions

variable {r : Resolutions}

/-! ### One change

What an `Event` does to the symbols: at most one is added behind the others, and at most the
type of one is written.  `SameDecl` compares symbols without their types, since types do not
matter here.
-/

/-- The symbols differ at most in their types. -/
structure SameDecl (s s' : Symbol) : Prop where
  span : s.span = s'.span
  slot? : s.slot? = s'.slot?
  func : s.kind = .func ↔ s'.kind = .func

theorem SameDecl.refl (s : Symbol) : SameDecl s s := ⟨rfl, rfl, Iff.rfl⟩

private theorem sameDecl_fixType (τ : ValueType) (s : Symbol) : SameDecl (s.fixType τ) s :=
  ⟨s.span_fixType τ, s.slot?_fixType τ, by rw [Symbol.kind_fixType]⟩

/--
A symbol was there before the change, but for its type (`SameDecl`), or the change declares
it.
-/
theorem getElem?_apply_cases {e : Event} {i : Nat} {s : Symbol}
    (h : (e.apply r).symbols[i]? = some s) :
    (∃ s₀, r.symbols[i]? = some s₀ ∧ SameDecl s s₀) ∨
      ∃ id kind implicit, e = .declare id kind implicit ∧ i = r.symbols.size ∧ s.span = id.span ∧
        (s.kind = .func ↔ kind = .func) ∧
        (∀ n, s.slot? = some n → n = r.variableCount ∧ kind = .var) := by
  cases e with
  | use id decl => exact .inl ⟨s, h, .refl s⟩
  | fix decl τ =>
      obtain ⟨s₀, hs₀, rfl | rfl⟩ := getElem?_of_fixType h
      · exact .inl ⟨s, hs₀, .refl s⟩
      · exact .inl ⟨s₀, hs₀, sameDecl_fixType τ s₀⟩
  | declare id kind implicit =>
      obtain ⟨new, hsymbols, -, hkind, hspan, -, hfits, -, hslot⟩ :=
        r.addSymbol_symbols id kind implicit
      have hs : (r.symbols.push new)[i]? = some s := hsymbols ▸ h
      rw [Array.getElem?_push] at hs
      split at hs
      · rename_i hi
        obtain rfl := Option.some.inj hs
        refine .inr ⟨id, kind, implicit, rfl, hi, hspan, ?_, fun n hn => ⟨hslot n hn, ?_⟩⟩
        · rw [hkind]
          cases kind <;> simp [DeclKind.symbolKind]
        · have hvar := hfits.var_of_slot? hn
          rw [hkind] at hvar
          cases kind <;> simp_all [DeclKind.symbolKind]
      · exact .inl ⟨s, hs, .refl s⟩

/-- A symbol stays where it is, but for its type. -/
theorem getElem?_apply_of_getElem? (e : Event) {i : Nat} {s : Symbol}
    (h : r.symbols[i]? = some s) : ∃ s', (e.apply r).symbols[i]? = some s' ∧ SameDecl s' s := by
  cases e with
  | use id decl => exact ⟨s, h, .refl s⟩
  | declare id kind implicit => exact ⟨s, getElem?_addSymbol h, .refl s⟩
  | fix decl τ =>
      simp only [Event.apply, getElem?_fixType, h]
      split
      · exact ⟨s.fixType τ, rfl, sameDecl_fixType τ s⟩
      · exact ⟨s, rfl, .refl s⟩

private theorem variableCount_le_apply (e : Event) :
    r.variableCount ≤ (e.apply r).variableCount := by
  cases e with
  | use id decl => exact Nat.le_refl _
  | fix decl τ => exact Nat.le_refl _
  | declare id kind implicit => cases kind <;> simp [Event.apply, addSymbol, bindDeclaration]

theorem declarations_declare (r : Resolutions) (id : Ident) (kind : DeclKind) (implicit : Bool)
    (span : Span) : ((Event.declare id kind implicit).apply r).declarations[span]? =
      if id.span = span then some r.symbols.size else r.declarations[span]? := by
  have hsame : (r.addSymbol id kind implicit).declarations = r.declarations := by
    cases kind <;> rfl
  simp only [Event.apply, bindDeclaration, hsame, Std.TreeMap.getElem?_insert,
    Std.compare_eq_iff_eq]

/-! ### What every change keeps

`Coherent` holds at the start and is kept by each change, so it holds after any list of
changes (`Coherent.replay`).  That the changes come from a program is not used.
-/

/-- Slots and declarations fit together. -/
structure Coherent (r : Resolutions) : Prop where
  /-- Every symbol has a slot and a type just as its kind says. -/
  fits : r.Fits
  /-- A slot is below the number of variables. -/
  slot_lt : ∀ {i n : Nat} {s : Symbol}, r.symbols[i]? = some s → s.slot? = some n →
    n < r.variableCount
  /-- No two variables share a slot. -/
  slot_inj : ∀ {i j n : Nat} {s t : Symbol}, r.symbols[i]? = some s → r.symbols[j]? = some t →
    s.slot? = some n → t.slot? = some n → i = j
  /-- What is declared at a place is a symbol of that place. -/
  declared : ∀ {span : Span} {decl : Nat}, r.declarations[span]? = some decl →
    ∃ s, r.symbols[decl]? = some s ∧ s.span = span

private theorem coherent_empty : empty.Coherent := by
  refine ⟨fits_empty, ?_, ?_, ?_⟩ <;> intros <;> simp_all [empty]

private theorem Coherent.slot_lt_apply (h : r.Coherent) (e : Event) {i n : Nat} {s : Symbol}
    (hs : (e.apply r).symbols[i]? = some s) (hn : s.slot? = some n) :
    n < (e.apply r).variableCount := by
  rcases getElem?_apply_cases hs with ⟨s₀, hs₀, hsame⟩ | ⟨id, kind, implicit, rfl, -, -, -, hslot⟩
  · rw [hsame.slot?] at hn
    exact Nat.lt_of_lt_of_le (h.slot_lt hs₀ hn) (variableCount_le_apply e)
  · obtain ⟨rfl, rfl⟩ := hslot n hn
    exact Nat.lt_succ_self _

private theorem Coherent.slot_inj_apply (h : r.Coherent) (e : Event) {i j n : Nat} {s t : Symbol}
    (hs : (e.apply r).symbols[i]? = some s) (ht : (e.apply r).symbols[j]? = some t)
    (hn : s.slot? = some n) (hn' : t.slot? = some n) : i = j := by
  rcases getElem?_apply_cases hs with ⟨s₀, hs₀, hsame⟩ | ⟨_, _, _, -, hi, -, -, hslot⟩
  · rw [hsame.slot?] at hn
    rcases getElem?_apply_cases ht with ⟨t₀, ht₀, hsame'⟩ | ⟨_, _, _, -, -, -, -, hslot'⟩
    · rw [hsame'.slot?] at hn'
      exact h.slot_inj hs₀ ht₀ hn hn'
    · exact absurd (hslot' n hn').1 (Nat.ne_of_lt (h.slot_lt hs₀ hn))
  · rcases getElem?_apply_cases ht with ⟨t₀, ht₀, hsame'⟩ | ⟨_, _, _, -, hj, -, -, -⟩
    · rw [hsame'.slot?] at hn'
      exact absurd (hslot n hn).1 (Nat.ne_of_lt (h.slot_lt ht₀ hn'))
    · rw [hi, hj]

private theorem Coherent.declared_apply (h : r.Coherent) (e : Event) {span : Span} {decl : Nat}
    (hd : (e.apply r).declarations[span]? = some decl) :
    ∃ s, (e.apply r).symbols[decl]? = some s ∧ s.span = span := by
  have hold : r.declarations[span]? = some decl →
      ∃ s, (e.apply r).symbols[decl]? = some s ∧ s.span = span := by
    intro hd
    obtain ⟨s, hs, hspan⟩ := h.declared hd
    obtain ⟨s', hs', hsame⟩ := getElem?_apply_of_getElem? e hs
    exact ⟨s', hs', hsame.span.trans hspan⟩
  cases e with
  | use id decl => exact hold hd
  | fix decl τ => exact hold hd
  | declare id kind implicit =>
      rw [declarations_declare] at hd
      split at hd
      · rename_i hspan
        obtain rfl := Option.some.inj hd
        obtain ⟨s, hsymbols, -, -, hs, -⟩ := r.addSymbol_symbols id kind implicit
        refine ⟨s, ?_, hs.trans hspan⟩
        show (r.addSymbol id kind implicit).symbols[r.symbols.size]? = some s
        rw [hsymbols, Array.getElem?_push_size]
      · exact hold hd

theorem Fits.apply (h : r.Fits) (e : Event) : (e.apply r).Fits := by
  cases e with
  | use id decl => exact h
  | declare id kind implicit => exact h.addSymbol id kind implicit
  | fix decl τ => exact h.fixType decl τ

theorem Coherent.apply (h : r.Coherent) (e : Event) : (e.apply r).Coherent :=
  ⟨h.fits.apply e, h.slot_lt_apply e, h.slot_inj_apply e, h.declared_apply e⟩

theorem Coherent.replay (events : List Event) :
    ∀ {r : Resolutions}, r.Coherent → (r.replay events).Coherent := by
  induction events with
  | nil => intro r h; exact h
  | cons e events ih => intro r h; exact ih (h.apply e)

/-! ### Functions

Here it matters which changes there were.  `Accounts` knows that symbols come from
declarations of the tree and from assignments, `WellNamed` that no two declarations stand at
one place.  So a function is declared by just one change, and its symbol is found under its
name until the end.
-/

/-- What is declared at a place stays in `replay`, as long as nothing else is declared there. -/
theorem declarations_replay {span : Span} (events : List Event) :
    ∀ r : Resolutions, (∀ id kind implicit, .declare id kind implicit ∈ events → id.span ≠ span) →
      (r.replay events).declarations[span]? = r.declarations[span]? := by
  induction events with
  | nil => intro r _; rfl
  | cons e events ih =>
      intro r h
      have hrest := ih (e.apply r) fun id kind implicit hmem =>
        h id kind implicit (List.mem_cons_of_mem _ hmem)
      rw [replay_cons, hrest]
      cases e with
      | use id decl => rfl
      | fix decl τ => rfl
      | declare id kind implicit =>
          rw [declarations_declare, if_neg (h id kind implicit List.mem_cons_self)]

/--
Every function among the symbols was declared by some change, with the number that `replay`
had come to.
-/
theorem func_of_replay {events : List Event} {i : Nat} {s : Symbol}
    (h : (empty.replay events).symbols[i]? = some s) (hfunc : s.kind = .func) :
    ∃ before id implicit after, events = before ++ .declare id .func implicit :: after ∧
      i = (empty.replay before).symbols.size := by
  induction events using List.reverseRecOn generalizing s with
  | nil => simp [empty] at h
  | append_singleton events e ih =>
      rw [replay_append] at h
      rcases getElem?_apply_cases h with ⟨s₀, hs₀, hsame⟩ | ⟨id, kind, implicit, rfl, hi, -, hk, -⟩
      · obtain ⟨before, id, implicit, after, rfl, hi⟩ := ih hs₀ (hsame.func.mp hfunc)
        exact ⟨before, id, implicit, after ++ [e], by simp, hi⟩
      · obtain rfl := hk.mp hfunc
        exact ⟨events, id, implicit, [], rfl, hi⟩

end Resolutions

section Functions

variable {p : Program} {events before after : List Event} {id : Ident}

/-- A change that a block makes comes from one of its declarations. -/
theorem Accounts.mem_declared {refs : List Ident} {decls : List Decl} {kind : DeclKind}
    (hacc : Accounts events refs decls) (h : .declare id kind false ∈ events) :
    ⟨kind, id⟩ ∈ decls := by
  rw [← hacc.decls]
  exact List.mem_filterMap.mpr ⟨.declare id kind false, h, rfl⟩

theorem Program.WellNamed.mem_funcNames (hnamed : p.WellNamed) :
    id ∈ funcNames p.block.functions ↔ ⟨.func, id⟩ ∈ p.block.declared := by
  rw [Block.mem_funcNames hnamed.funcs, List.mem_filterMap]
  constructor
  · rintro ⟨⟨kind, name⟩, hmem, hfunc⟩
    cases kind <;> simp [Decl.func?] at hfunc
    subst hfunc
    exact hmem
  · intro hmem
    exact ⟨_, hmem, rfl⟩

/-- Analysis declares every function: `Accounts` has all declarations of the blocks. -/
theorem Program.WellNamed.declare_mem (hnamed : p.WellNamed)
    (hacc : Accounts events p.block.refs p.block.declared) {f : Func} (hf : f ∈ p.functions) :
    .declare f.name .func false ∈ events := by
  rw [p.functions_eq] at hf
  have hmem := hnamed.mem_funcNames.mp (List.mem_map_of_mem hf)
  rw [← hacc.decls] at hmem
  obtain ⟨e, he, hdecl⟩ := List.mem_filterMap.mp hmem
  obtain rfl : e = .declare f.name .func false := by
    rcases e with _ | ⟨id, kind, _ | _⟩ | _ <;> simp_all [Event.decl?]
  exact he

/-- Once a function is declared, nothing else is declared at its place. -/
theorem Program.WellNamed.span_ne_of_mem_after (hnamed : p.WellNamed)
    (hacc : Accounts (before ++ .declare id .func false :: after) p.block.refs p.block.declared)
    {id' : Ident} {kind : DeclKind} {implicit : Bool} (h : .declare id' kind implicit ∈ after) :
    id'.span ≠ id.span := by
  have hmem : .declare id' kind implicit ∈ before ++ .declare id .func false :: after := by
    simp [h]
  cases implicit with
  | true =>
      have hd : DistinctSpans (p.block.refs ++ funcNames p.block.functions) := hnamed.refs
      have hid : id ∈ funcNames p.block.functions :=
        hnamed.mem_funcNames.mpr (hacc.mem_declared (by simp))
      exact hd.append.2.2 id' (hacc.implicits id' kind hmem).1 id hid
  | false =>
      have hnodup := hnamed.decls
      rw [← hacc.decls, List.filterMap_append, List.filterMap_cons] at hnodup
      simp only [Event.decl?, List.map_append, List.map_cons] at hnodup
      have hfresh := (List.nodup_cons.mp (List.nodup_append.mp hnodup).2.1).1
      intro hspan
      refine hfresh ?_
      rw [← hspan]
      exact List.mem_map.mpr ⟨⟨kind, id'⟩, List.mem_filterMap.mpr ⟨_, h, rfl⟩, rfl⟩

theorem Program.WellNamed.declaration?_of_split (hnamed : p.WellNamed)
    (hacc : Accounts (before ++ .declare id .func false :: after) p.block.refs p.block.declared) :
    (Resolutions.empty.replay (before ++ .declare id .func false :: after)).declaration? id =
      some (Resolutions.empty.replay before).symbols.size := by
  rw [Resolutions.declaration?, Resolutions.replay_append, Resolutions.replay_cons,
    Resolutions.declarations_replay after _ fun id' kind implicit h =>
      hnamed.span_ne_of_mem_after hacc h,
    Resolutions.declarations_declare, if_pos rfl]

end Functions

/-- What the phases after analysis rely on: types, slots (`Coherent`) and functions. -/
structure Program.Resolved (p : Program) (r : Resolutions) : Prop where
  /-- Every value has the type that is called for. -/
  typed : p.block.Typed r
  coherent : r.Coherent
  /-- Every function has a symbol. -/
  declared : ∀ f ∈ p.functions, ∃ decl, r.declaration? f.name = some decl
  /-- Every symbol that is a function belongs to one of the program. -/
  defined : ∀ {decl : Nat} {s : Symbol}, r.symbols[decl]? = some s → s.kind = .func →
    ∃ f ∈ p.functions, r.declaration? f.name = some decl
  /-- No two functions have the same symbol. -/
  distinct : (p.functions.map fun f => r.declaration? f.name).Nodup

namespace Program

variable {p : Program} {r : Resolutions}

private theorem declaration?_inj (hr : r.Coherent) {id id' : Ident} {decl : Nat}
    (h : r.declaration? id = some decl) (h' : r.declaration? id' = some decl) :
    id.span = id'.span := by
  obtain ⟨s, hs, hspan⟩ := hr.declared h
  obtain ⟨s', hs', hspan'⟩ := hr.declared h'
  obtain rfl := Option.some.inj (hs.symm.trans hs')
  exact hspan.symm.trans hspan'

/-- **Analysis leaves behind what later phases rely on.** -/
theorem resolved_of_analyze (hnamed : p.WellNamed) (h : p.analyze = .ok r) : p.Resolved r := by
  have htyped := typed_of_analyze hnamed h
  obtain ⟨events, rfl, hacc⟩ := analyze_traces h
  have hcoherent : (Resolutions.empty.replay events).Coherent :=
    Resolutions.coherent_empty.replay events
  have hdeclared : ∀ f ∈ p.functions,
      ∃ decl, (Resolutions.empty.replay events).declaration? f.name = some decl := by
    intro f hf
    obtain ⟨before, after, rfl⟩ := List.append_of_mem (hnamed.declare_mem hacc hf)
    exact ⟨_, hnamed.declaration?_of_split hacc⟩
  refine ⟨htyped, hcoherent, hdeclared, ?_, ?_⟩
  · intro decl s hs hfunc
    obtain ⟨before, id, implicit, after, rfl, rfl⟩ := Resolutions.func_of_replay hs hfunc
    -- A variable is all that an assignment introduces, so a block declares the function.
    cases implicit with
    | true => exact absurd (hacc.implicits id .func (by simp)).2 (by simp)
    | false =>
        have hmem : id ∈ funcNames p.block.functions :=
          hnamed.mem_funcNames.mpr (hacc.mem_declared (by simp))
        obtain ⟨f, hf, rfl⟩ := List.mem_map.mp hmem
        rw [← functions_eq] at hf
        exact ⟨f, hf, hnamed.declaration?_of_split hacc⟩
  · have hd : DistinctSpans (p.block.refs ++ funcNames p.block.functions) := hnamed.refs
    have hnodup := hd.append.2.1
    rw [DistinctSpans, funcNames, List.map_map, ← functions_eq] at hnodup
    refine List.Nodup.map_on ?_ hnodup.of_map
    intro f hf g hg heq
    obtain ⟨decl, hdecl⟩ := hdeclared f hf
    have hspan := declaration?_inj hcoherent hdecl (heq.symm.trans hdecl)
    exact List.inj_on_of_nodup_map hnodup hf hg hspan

end Program

end StackCode
