/-
Scopes as a stack of frames.

One table holds the innermost binding of every name, and one stack holds the bindings
that are hidden, each under the depth of the scope that hides it.  What that amounts to is
a stack of frames, one for each open scope and one below them all, where a name is looked
for from the innermost frame outwards.  `Represents` relates the two.

The table alone does not say what comes back when a scope is closed.  That is what the
order of the hidden bindings is for.  `Hides` reads their stack from the top as one layer
for each frame: a `Layer` has the depth of its frame, and it has what the frames further
out say about every name that the frame binds too.  So the loop in `Scopes.pop`, which
stops at the first entry of another depth, takes back one layer and no more.

A stack of frames can be kept in place of the table.  Whatever is asked of the two, in
any order, they give the same answers.

Tables are compared by what they answer and not as trees, since a binding that was
put in and taken out again may leave another tree behind.
-/
import Mathlib.Logic.Function.Basic
import StackCode.Proofs.Sequencing
import StackCode.Scopes

namespace StackCode

open Sequencing

/-- What the names of one scope stand for. -/
abbrev Frame := String → Option Nat

namespace Frame

/-- The frame of a scope without names. -/
def empty : Frame := fun _ => none

/-- The frame with one more name. -/
def bind (f : Frame) (name : String) (decl : Nat) : Frame := Function.update f name (some decl)

@[simp] theorem bind_self (f : Frame) (name : String) (decl : Nat) :
    f.bind name decl name = some decl := Function.update_self ..

theorem bind_of_ne (f : Frame) {name other : String} (decl : Nat) (h : other ≠ name) :
    f.bind name decl other = f other := Function.update_of_ne h ..

end Frame

namespace Scopes

/-! ### Tables by what they answer

`Scopes.pop` does two things to the table.  `retain` erases what was bound at the depth that
is left, and `unshadow` inserts what was hidden there.  Both are folds, and both are
described by what the table answers afterwards: a filter (`answers_retain`), and entries
that overrule (`answers_putBack`).
-/

/-- What a table answers. -/
def answers (bindings : Std.TreeMap String Binding) : String → Option Binding :=
  fun name => bindings[name]?

private theorem answers_insert (bindings : Std.TreeMap String Binding) (name : String)
    (b : Binding) :
    answers (bindings.insert name b) = Function.update (answers bindings) name (some b) := by
  funext other
  by_cases h : other = name
  · subst h
    simp [answers]
  · rw [Function.update_of_ne h]
    simp [answers, Std.TreeMap.getElem?_insert, Ne.symm h]

private theorem answers_erase (bindings : Std.TreeMap String Binding) (name : String) :
    answers (bindings.erase name) = Function.update (answers bindings) name none := by
  funext other
  by_cases h : other = name
  · subst h
    simp [answers]
  · rw [Function.update_of_ne h]
    simp [answers, Std.TreeMap.getElem?_erase, Ne.symm h]

/-- A name is erased if it is listed with a binding that is not kept, and else left alone. -/
theorem answers_foldl_erase (p : Binding → Bool) (name : String) (l : List (String × Binding)) :
    ∀ bindings : Std.TreeMap String Binding,
      answers (l.foldl (fun kept e => if p e.2 then kept else kept.erase e.1) bindings) name =
        if l.any (fun e => e.1 == name && !p e.2) then none else answers bindings name := by
  induction l with
  | nil =>
      intro bindings
      simp
  | cons e l ih =>
      intro bindings
      rw [List.foldl_cons, ih, List.any_cons]
      cases hp : p e.2 with
      | true => rw [if_pos rfl, Bool.not_true, Bool.and_false, Bool.false_or]
      | false =>
          rw [if_neg Bool.false_ne_true, Bool.not_false, Bool.and_true, answers_erase]
          by_cases hname : name = e.1
          · simp [hname]
          · rw [Function.update_of_ne hname, beq_false_of_ne (Ne.symm hname), Bool.false_or]

private theorem answers_retain (p : Binding → Bool) (bindings : Std.TreeMap String Binding)
    (name : String) : answers (retain p bindings) name = (answers bindings name).filter p := by
  have hmem : ∀ b, (name, b) ∈ bindings.toList ↔ answers bindings name = some b :=
    fun b => Std.TreeMap.mem_toList_iff_getElem?_eq_some
  rw [retain, Std.TreeMap.foldl_eq_foldl_toList, answers_foldl_erase]
  by_cases h : bindings.toList.any (fun e => e.1 == name && !p e.2) = true
  · rw [if_pos h]
    obtain ⟨⟨other, b⟩, he, hout⟩ := List.any_eq_true.mp h
    obtain ⟨rfl, hp⟩ : other = name ∧ p b = false := by simpa using hout
    rw [(hmem b).mp he, Option.filter_some, hp]
    rfl
  · rw [if_neg h]
    cases hb : answers bindings name with
    | none => rfl
    | some b =>
        have hp : p b = true := by
          by_contra hne
          exact h (List.any_eq_true.mpr ⟨(name, b), (hmem b).mpr hb, by simpa using hne⟩)
        rw [Option.filter_some, if_pos hp]

/-- Put hidden bindings back into a table. -/
def putBack (entries : List Shadowed) (bindings : Std.TreeMap String Binding) :
    Std.TreeMap String Binding :=
  entries.foldl (fun bindings e => bindings.insert e.name e.binding) bindings

/-- Entries that say what another table says make up for the names that are missing. -/
theorem answers_putBack {table : String → Option Binding} (entries : List Shadowed) :
    ∀ bindings, (∀ e ∈ entries, table e.name = some e.binding) →
      (∀ name, (∀ e ∈ entries, e.name ≠ name) → answers bindings name = table name) →
      answers (putBack entries bindings) = table := by
  induction entries with
  | nil => exact fun bindings _ hrest => funext fun name => hrest name (by simp)
  | cons e entries ih =>
      intro bindings hentries hrest
      refine ih _ (fun e' he' => hentries e' (List.mem_cons_of_mem _ he')) fun name hname => ?_
      rw [answers_insert]
      by_cases h : name = e.name
      · rw [h, Function.update_self, hentries e List.mem_cons_self]
      · rw [Function.update_of_ne h]
        exact hrest name (List.forall_mem_cons.mpr ⟨Ne.symm h, hname⟩)

/-- The loop takes back the entries of one depth, up to the first of another. -/
theorem unshadow_append {depth : Nat} {here rest : List Shadowed}
    (hhere : ∀ e ∈ here, e.depth = depth) (hrest : ∀ e ∈ rest, e.depth < depth) :
    ∀ bindings, unshadow depth bindings (here ++ rest) = (putBack here bindings, rest) := by
  induction here with
  | nil =>
      intro bindings
      cases rest with
      | nil => rfl
      | cons e rest =>
          have hne := Nat.ne_of_lt (hrest e List.mem_cons_self)
          rw [List.nil_append, unshadow, if_neg hne]
          rfl
  | cons e here ih =>
      intro bindings
      rw [List.cons_append, unshadow, if_pos (hhere e List.mem_cons_self),
        ih fun e' he' => hhere e' (List.mem_cons_of_mem _ he')]
      rfl

/-! ### What scopes contain

A binding is in the table, or it is hidden and waits to come back.  `Contains` is both.  What
the scopes contain after a step was there before, but for the one binding that a declaration
makes (`contains_of_push`, `contains_of_pop`, `contains_of_declare`).
-/

/-- The scopes hold the binding for the name, or hide it. -/
def Contains (s : Scopes) (name : String) (b : Binding) : Prop :=
  s.bindings[name]? = some b ∨ ∃ e ∈ s.shadowed, e.name = name ∧ e.binding = b

theorem not_contains_empty (name : String) (b : Binding) : ¬empty.Contains name b := by
  simp [Contains, empty]

theorem contains_of_lookup? {s : Scopes} {name : String} {decl : Nat}
    (h : s.lookup? name = some decl) : ∃ b, s.Contains name b ∧ b.decl = decl := by
  obtain ⟨b, hb, rfl⟩ := Option.map_eq_some_iff.mp h
  exact ⟨b, .inl hb, rfl⟩

theorem contains_of_push {s : Scopes} {name : String} {b : Binding}
    (h : s.push.Contains name b) : s.Contains name b := h

/-- What comes back into the table was hidden, and what stays hidden was hidden too. -/
private theorem unshadow_subset (depth : Nat) (name : String) (b : Binding) :
    ∀ (hidden : List Shadowed) (bindings : Std.TreeMap String Binding),
      ((unshadow depth bindings hidden).1[name]? = some b →
        bindings[name]? = some b ∨ ∃ e ∈ hidden, e.name = name ∧ e.binding = b) ∧
      (unshadow depth bindings hidden).2 ⊆ hidden
  | [], _ => ⟨.inl, fun _ h => h⟩
  | e :: hidden, bindings => by
      by_cases hdepth : e.depth = depth
      · obtain ⟨hback, hrest⟩ :=
          unshadow_subset depth name b hidden (bindings.insert e.name e.binding)
        rw [unshadow, if_pos hdepth]
        refine ⟨fun h => ?_, List.subset_cons_of_subset e hrest⟩
        rcases hback h with h | ⟨e', he', heq⟩
        · rw [Std.TreeMap.getElem?_insert] at h
          split at h
          · rename_i hname
            exact .inr ⟨e, List.mem_cons_self, Std.compare_eq_iff_eq.mp hname, Option.some.inj h⟩
          · exact .inl h
        · exact .inr ⟨e', List.mem_cons_of_mem _ he', heq⟩
      · rw [unshadow, if_neg hdepth]
        exact ⟨.inl, fun _ h => h⟩

theorem contains_of_pop {s : Scopes} {name : String} {b : Binding} (h : s.pop.Contains name b) :
    s.Contains name b := by
  obtain ⟨hback, hrest⟩ := unshadow_subset s.depth name b s.shadowed
    (retain (·.depth < s.depth) s.bindings)
  rcases h with h | ⟨e, he, heq⟩
  · rcases hback h with h | h
    · have hkept : (answers s.bindings name).filter (·.depth < s.depth) = some b := by
        rw [← answers_retain]
        exact h
      exact .inl (Option.filter_eq_some_iff.mp hkept).1
    · exact .inr h
  · exact .inr ⟨e, hrest he, heq⟩

/-! ### Declarations

`Scopes.declare` has three outcomes, and which one it is depends on the table alone: the
name is free, bound further out, or bound here.  The lemmas below take the outcome apart for
whoever knows which case it is, and `declare_eq_ok` and `declare_eq_error` put the cases
together for whoever does not.
-/

section Declare

variable {s : Scopes} {name : String} {old : Binding}

theorem declare_of_free (h : s.bindings[name]? = none) (decl : Nat) :
    declare name decl s =
      .ok () { s with bindings := s.bindings.insert name ⟨decl, s.depth⟩ } := by
  rw [declare, bind_of_ok (get_eq s), h]
  rfl

private theorem declare_of_outside (h : s.bindings[name]? = some old) (hdepth : old.depth ≠ s.depth)
    (decl : Nat) :
    declare name decl s =
      .ok () ⟨s.bindings.insert name ⟨decl, s.depth⟩, s.depth,
        ⟨s.depth, name, old⟩ :: s.shadowed⟩ := by
  rw [declare, bind_of_ok (get_eq s), h]
  simp only [if_neg hdepth]
  rfl

private theorem declare_of_here (h : s.bindings[name]? = some old) (hdepth : old.depth = s.depth)
    (decl : Nat) : declare name decl s = .error old.decl s := by
  rw [declare, bind_of_ok (get_eq s), h]
  simp only [if_pos hdepth]
  rfl

/-- A declaration fails only where its own scope binds the name, and then it changes nothing. -/
theorem declare_eq_error {s s' : Scopes} {decl previous : Nat}
    (h : declare name decl s = .error previous s') :
    s' = s ∧ ∃ b, s.bindings[name]? = some b ∧ b.depth = s.depth ∧ b.decl = previous := by
  cases hb : s.bindings[name]? with
  | none =>
      rw [declare_of_free hb] at h
      cases h
  | some b =>
      by_cases hdepth : b.depth = s.depth
      · rw [declare_of_here hb hdepth] at h
        obtain ⟨rfl, rfl⟩ := EStateM.Result.error.inj h
        exact ⟨rfl, b, rfl, hdepth, rfl⟩
      · rw [declare_of_outside hb hdepth] at h
        cases h

theorem declare_eq_ok {s s' : Scopes} {decl : Nat} (h : declare name decl s = .ok () s') :
    s'.bindings = s.bindings.insert name ⟨decl, s.depth⟩ ∧
      (s'.shadowed = s.shadowed ∨
        ∃ b, s.bindings[name]? = some b ∧ s'.shadowed = ⟨s.depth, name, b⟩ :: s.shadowed) := by
  cases hb : s.bindings[name]? with
  | none =>
      rw [declare_of_free hb] at h
      obtain ⟨-, rfl⟩ := EStateM.Result.ok.inj h
      exact ⟨rfl, .inl rfl⟩
  | some b =>
      by_cases hdepth : b.depth = s.depth
      · rw [declare_of_here hb hdepth] at h
        cases h
      · rw [declare_of_outside hb hdepth] at h
        obtain ⟨-, rfl⟩ := EStateM.Result.ok.inj h
        exact ⟨rfl, .inr ⟨b, rfl, rfl⟩⟩

theorem lookup?_of_declare {s s' : Scopes} {decl : Nat} (h : declare name decl s = .ok () s') :
    s'.lookup? name = some decl := by
  rw [lookup?, (declare_eq_ok h).1, Std.TreeMap.getElem?_insert_self]
  rfl

/-- A declaration adds one binding, and hides one that was there. -/
theorem contains_of_declare {s s' : Scopes} {decl : Nat} (h : declare name decl s = .ok () s')
    {other : String} {b : Binding} (hb : s'.Contains other b) :
    s.Contains other b ∨ other = name ∧ b.decl = decl := by
  obtain ⟨hbindings, hshadowed⟩ := declare_eq_ok h
  rcases hb with hb | ⟨e, he, hname, hbinding⟩
  · rw [hbindings, Std.TreeMap.getElem?_insert] at hb
    split at hb
    · rename_i hname
      obtain rfl := Option.some.inj hb
      exact .inr ⟨(Std.compare_eq_iff_eq.mp hname).symm, rfl⟩
    · exact .inl (.inl hb)
  · rcases hshadowed with hsame | ⟨old, hold, hcons⟩
    · exact .inl (.inr ⟨e, hsame ▸ he, hname, hbinding⟩)
    · rw [hcons] at he
      rcases List.mem_cons.mp he with rfl | he
      · subst hname hbinding
        exact .inl (.inl hold)
      · exact .inl (.inr ⟨e, he, hname, hbinding⟩)

end Declare

/-! ### Frames

A frame says what the names of one scope stand for, and `bindingIn` adds at which depth,
counted from the bottom.  This depth is what `Scopes` keeps with each binding, so a table is
right if it answers like `bindingIn` for all names.
-/

/-- The binding of a name in a stack of frames, innermost first. -/
def bindingIn : List Frame → String → Option Binding
  | [], _ => none
  | f :: outer, name =>
    match f name with
    | some decl => some ⟨decl, outer.length⟩
    | none => bindingIn outer name

/-- What a name stands for in a stack of frames: the innermost frame that has it decides. -/
def lookupIn (frames : List Frame) (name : String) : Option Nat := frames.findSome? (· name)

private theorem bindingIn_map_decl (frames : List Frame) (name : String) :
    (bindingIn frames name).map (·.decl) = lookupIn frames name := by
  induction frames with
  | nil => rfl
  | cons f outer ih =>
      rw [bindingIn, lookupIn, List.findSome?_cons]
      cases f name with
      | some decl => rfl
      | none => exact ih

/-- A binding is no deeper than the frames that it was found in. -/
theorem depth_lt_of_bindingIn {frames : List Frame} {name : String} {b : Binding}
    (h : bindingIn frames name = some b) : b.depth < frames.length := by
  induction frames with
  | nil => simp [bindingIn] at h
  | cons f outer ih =>
      rw [bindingIn] at h
      rw [List.length_cons]
      cases hf : f name with
      | some decl =>
          rw [hf] at h
          obtain rfl := Option.some.inj h
          exact Nat.lt_succ_self _
      | none =>
          rw [hf] at h
          exact Nat.lt_succ_of_lt (ih h)

private theorem bindingIn_bind (f : Frame) (outer : List Frame) (name : String) (decl : Nat) :
    bindingIn (f.bind name decl :: outer) =
      Function.update (bindingIn (f :: outer)) name (some ⟨decl, outer.length⟩) := by
  funext other
  by_cases h : other = name
  · subst h
    simp [bindingIn]
  · rw [Function.update_of_ne h, bindingIn, bindingIn, Frame.bind_of_ne f decl h]

/-! ### Layers of hidden bindings

`Represents` has three parts, and the third is what makes `pop` work.  A declaration puts an
entry on top of the hidden bindings, so it joins the topmost layer, and a new scope starts a
layer without entries.  When a scope is closed its layer is on top, all of its entries are
of one depth, and the ones below are of smaller depths (`Hides.depth_lt`).
-/

/-- What a frame hides: all that the frames further out say about names that it binds. -/
structure Layer (here : List Shadowed) (f : Frame) (outer : List Frame) : Prop where
  depth : ∀ e ∈ here, e.depth = outer.length
  hidden : ∀ e ∈ here, bindingIn outer e.name = some e.binding
  complete : ∀ name, (f name).isSome = true → bindingIn outer name ≠ none →
    ∃ e ∈ here, e.name = name

/-- The hidden bindings lie in layers, one for each frame, the innermost on top. -/
def Hides : List Shadowed → List Frame → Prop
  | shadowed, [] => shadowed = []
  | shadowed, f :: outer => ∃ here rest, shadowed = here ++ rest ∧ Layer here f outer ∧
      Hides rest outer

/-- The hidden bindings are of smaller depths than the next frame would be. -/
theorem Hides.depth_lt : ∀ {frames : List Frame} {shadowed : List Shadowed},
    Hides shadowed frames → ∀ e ∈ shadowed, e.depth < frames.length
  | [], _, h, e, he => by
      obtain rfl : _ = [] := h
      simp at he
  | f :: outer, _, ⟨here, rest, hsplit, hlayer, hrest⟩, e, he => by
      rw [hsplit] at he
      rw [List.length_cons]
      rcases List.mem_append.mp he with he | he
      · rw [hlayer.depth e he]
        exact Nat.lt_succ_self _
      · exact Nat.lt_succ_of_lt (hrest.depth_lt e he)

/-- A new frame hides nothing. -/
theorem Hides.push {shadowed : List Shadowed} {frames : List Frame} (h : Hides shadowed frames) :
    Hides shadowed (Frame.empty :: frames) :=
  ⟨[], shadowed, rfl, ⟨by simp, by simp, by simp [Frame.empty]⟩, h⟩

/-- The scopes hold what the frames say, and what the frames hide. -/
structure Represents (s : Scopes) (frames : List Frame) : Prop where
  bindings : answers s.bindings = bindingIn frames
  depth : s.depth + 1 = frames.length
  shadowed : Hides s.shadowed frames

theorem represents_empty : empty.Represents [Frame.empty] := by
  have hnone : answers empty.bindings = bindingIn [Frame.empty] := by
    funext name
    simp [answers, empty, bindingIn, Frame.empty]
  exact ⟨hnone, rfl, Hides.push rfl⟩

namespace Represents

variable {s : Scopes} {f : Frame} {frames outer : List Frame}

theorem lookup? (h : s.Represents frames) (name : String) :
    s.lookup? name = lookupIn frames name := by
  rw [← bindingIn_map_decl, ← h.bindings]
  rfl

private theorem depth_eq (h : s.Represents (f :: outer)) :
    s.depth = outer.length := Nat.succ.inj h.depth

private theorem getElem?_bindings (h : s.Represents frames) (name : String) :
    s.bindings[name]? = bindingIn frames name := congrFun h.bindings name

/-- Opening a scope adds a frame without names. -/
theorem push (h : s.Represents frames) : s.push.Represents (Frame.empty :: frames) :=
  ⟨h.bindings, congrArg (· + 1) h.depth, h.shadowed.push⟩

/--
Closing a scope leaves what the frames further out say and hide.  A name that was not bound
here keeps its binding, which is of a smaller depth.  One that was bound here is in the layer
if it has a meaning further out, and else it has none.
-/
theorem pop_eq (h : s.Represents (f :: outer)) :
    answers s.pop.bindings = bindingIn outer ∧ Hides s.pop.shadowed outer := by
  obtain ⟨here, rest, hsplit, hlayer, hrest⟩ := h.shadowed
  have hunshadow := unshadow_append hlayer.depth hrest.depth_lt
    (retain (·.depth < s.depth) s.bindings)
  rw [← hsplit, ← h.depth_eq] at hunshadow
  simp only [Scopes.pop, hunshadow]
  refine ⟨answers_putBack here _ hlayer.hidden fun name hname => ?_, hrest⟩
  rw [answers_retain, h.bindings, h.depth_eq, bindingIn]
  cases hf : f name with
  | some decl =>
      have hnone : bindingIn outer name = none := by
        by_contra hsome
        obtain ⟨e, he, rfl⟩ := hlayer.complete name (by rw [hf]; rfl) hsome
        exact hname e he rfl
      rw [hnone]
      simp
  | none =>
      cases hb : bindingIn outer name with
      | none => rfl
      | some b =>
          have hlt := depth_lt_of_bindingIn hb
          simp [hlt]

/-- Closing a scope drops its frame. -/
theorem pop (h : s.Represents (f :: outer)) (hne : outer ≠ []) : s.pop.Represents outer := by
  obtain ⟨hbindings, hshadowed⟩ := h.pop_eq
  refine ⟨hbindings, ?_, hshadowed⟩
  show s.depth - 1 + 1 = outer.length
  have hpos := List.length_pos_iff.mpr hne
  rw [h.depth_eq]
  omega

/-- Closing the bottom scope leaves a frame without names. -/
theorem pop_bottom (h : s.Represents [f]) : s.pop.Represents [Frame.empty] := by
  obtain ⟨hbindings, hshadowed⟩ := h.pop_eq
  refine ⟨hbindings, ?_, hshadowed.push⟩
  show s.depth - 1 + 1 = 1
  rw [h.depth_eq]
  rfl

/-- A name is bound at the depth of the scopes just when the innermost frame has it. -/
theorem declaresHere (h : s.Represents (f :: outer)) (name : String) :
    s.declaresHere name = (f name).isSome := by
  rw [Scopes.declaresHere, h.getElem?_bindings, h.depth_eq, bindingIn]
  cases hname : f name with
  | some decl => simp
  | none =>
      cases hb : bindingIn outer name with
      | none => rfl
      | some b =>
          have hne := Nat.ne_of_lt (depth_lt_of_bindingIn hb)
          simpa using hne

/-- A name that the innermost frame has cannot be declared again, and nothing is changed. -/
theorem declare_of_some (h : s.Represents (f :: outer)) {name : String} {previous : Nat}
    (hname : f name = some previous) (decl : Nat) :
    Scopes.declare name decl s = .error previous s := by
  have hfound : s.bindings[name]? = some ⟨previous, outer.length⟩ := by
    rw [h.getElem?_bindings, bindingIn, hname]
  exact declare_of_here hfound h.depth_eq.symm decl

/-- Any other name can, and joins the innermost frame.  What it stood for is hidden. -/
theorem declare_of_none (h : s.Represents (f :: outer)) {name : String} (hname : f name = none)
    (decl : Nat) :
    ∃ s', Scopes.declare name decl s = .ok () s' ∧
      s'.Represents (f.bind name decl :: outer) := by
  have hfound : s.bindings[name]? = bindingIn outer name := by
    rw [h.getElem?_bindings, bindingIn, hname]
  have hbindings : answers (s.bindings.insert name ⟨decl, s.depth⟩) =
      bindingIn (f.bind name decl :: outer) := by
    rw [answers_insert, h.bindings, bindingIn_bind, h.depth_eq]
  obtain ⟨here, rest, hsplit, hlayer, hrest⟩ := h.shadowed
  -- The layer has every name that was in the frame before.
  have hcomplete : ∀ other, other ≠ name → (f.bind name decl other).isSome = true →
      bindingIn outer other ≠ none → ∃ e ∈ here, e.name = other := by
    intro other hother hbound
    rw [Frame.bind_of_ne f decl hother] at hbound
    exact hlayer.complete other hbound
  cases hb : bindingIn outer name with
  | none =>
      refine ⟨_, declare_of_free (hfound.trans hb) decl, hbindings, h.depth,
        here, rest, hsplit, ⟨hlayer.depth, hlayer.hidden, fun other hbound hsome => ?_⟩, hrest⟩
      refine hcomplete other (fun heq => ?_) hbound hsome
      rw [heq] at hsome
      exact hsome hb
  | some b =>
      have hdepth : b.depth ≠ s.depth := by
        rw [h.depth_eq]
        exact Nat.ne_of_lt (depth_lt_of_bindingIn hb)
      refine ⟨_, declare_of_outside (hfound.trans hb) hdepth decl, hbindings, h.depth,
        ⟨s.depth, name, b⟩ :: here, rest, congrArg (_ :: ·) hsplit, ⟨?_, ?_, ?_⟩, hrest⟩
      · exact List.forall_mem_cons.mpr ⟨h.depth_eq, hlayer.depth⟩
      · exact List.forall_mem_cons.mpr ⟨hb, hlayer.hidden⟩
      · intro other hbound hsome
        by_cases hother : other = name
        · exact ⟨_, List.mem_cons_self, hother.symm⟩
        · obtain ⟨e, he, hename⟩ := hcomplete other hother hbound hsome
          exact ⟨e, List.mem_cons_of_mem _ he, hename⟩

end Represents

end Scopes

/-! ### Runs

Both ways of keeping scopes are a `ScopeKeeper`, and a run is a list of requests to one of
them.  A request that is refused is part of the run: the scopes go on as they were.
`Represents.step` is the simulation and `Represents.run` takes it along the list.
-/

/-- Something that is done with nested scopes, or asked of them. -/
inductive ScopeRequest where
  | push
  | pop
  | declare (name : String) (decl : Nat)
  | lookup (name : String)
  | declaresHere (name : String)
  | depth
deriving DecidableEq, Repr

/-- The answer to a request. -/
inductive ScopeReply where
  | done
  /-- The innermost scope has the name already, for the declaration that is given. -/
  | taken (previous : Nat)
  | found (decl : Option Nat)
  | isHere (answer : Bool)
  | depth (n : Nat)
deriving DecidableEq, Repr

/-- A way of keeping nested scopes. -/
structure ScopeKeeper (σ : Type) where
  push : σ → σ
  pop : σ → σ
  declare : String → Nat → EStateM Nat σ Unit
  lookup? : σ → String → Option Nat
  declaresHere : σ → String → Bool
  depth : σ → Nat

namespace ScopeKeeper

variable {σ : Type}

/-- Answer a request, and go on with the state that it leaves behind, refused or not. -/
def step (k : ScopeKeeper σ) (s : σ) : ScopeRequest → ScopeReply × σ
  | .push => (.done, k.push s)
  | .pop => (.done, k.pop s)
  | .declare name decl =>
    match k.declare name decl s with
    | .ok _ s' => (.done, s')
    | .error previous s' => (.taken previous, s')
  | .lookup name => (.found (k.lookup? s name), s)
  | .declaresHere name => (.isHere (k.declaresHere s name), s)
  | .depth => (.depth (k.depth s), s)

private theorem step_of_ok {k : ScopeKeeper σ} {s s' : σ} {name : String} {decl : Nat}
    (h : k.declare name decl s = .ok () s') : k.step s (.declare name decl) = (.done, s') := by
  rw [step, h]

private theorem step_of_error {k : ScopeKeeper σ} {s s' : σ} {name : String} {decl previous : Nat}
    (h : k.declare name decl s = .error previous s') :
    k.step s (.declare name decl) = (.taken previous, s') := by
  rw [step, h]

/-- Answer requests one after another. -/
def run (k : ScopeKeeper σ) : σ → List ScopeRequest → List ScopeReply
  | _, [] => []
  | s, request :: rest => (k.step s request).1 :: run k (k.step s request).2 rest

end ScopeKeeper

/-- A frame for each open scope, and one at the bottom that is never dropped. -/
structure FrameStack where
  top : Frame
  below : List Frame

namespace FrameStack

/-- All frames, the innermost first. -/
def frames (f : FrameStack) : List Frame := f.top :: f.below

/-- The bottom frame alone, without names. -/
def bottom : FrameStack := ⟨Frame.empty, []⟩

/-- Add a frame without names. -/
def push (f : FrameStack) : FrameStack := ⟨Frame.empty, f.frames⟩

/-- Drop the top frame, or empty it if it is the only one. -/
def pop (f : FrameStack) : FrameStack :=
  match f.below with
  | [] => bottom
  | next :: below => ⟨next, below⟩

/-- Put a name into the top frame, or fail and change nothing if it is there already. -/
def declare (name : String) (decl : Nat) : EStateM Nat FrameStack Unit := fun f =>
  match f.top name with
  | some previous => .error previous f
  | none => .ok () { f with top := f.top.bind name decl }

/-- Scopes kept as frames. -/
def keeper : ScopeKeeper FrameStack where
  push := push
  pop := pop
  declare := declare
  lookup? f := Scopes.lookupIn f.frames
  declaresHere f name := (f.top name).isSome
  depth f := f.below.length

end FrameStack

namespace Scopes

/-- Scopes kept as one table with a stack of hidden bindings. -/
def keeper : ScopeKeeper Scopes where
  push := push
  pop := pop
  declare := declare
  lookup? := lookup?
  declaresHere := declaresHere
  depth := depth

/-- A table that holds what the frames say answers as they do, and goes on to hold it. -/
theorem Represents.step {s : Scopes} {f : FrameStack} (h : s.Represents f.frames)
    (request : ScopeRequest) :
    (keeper.step s request).1 = (FrameStack.keeper.step f request).1 ∧
      (keeper.step s request).2.Represents (FrameStack.keeper.step f request).2.frames := by
  cases request with
  | push => exact ⟨rfl, h.push⟩
  | pop =>
      refine ⟨rfl, ?_⟩
      obtain ⟨top, below⟩ := f
      cases below with
      | nil => exact h.pop_bottom
      | cons next below => exact h.pop (List.cons_ne_nil next below)
  | declare name decl =>
      cases hname : f.top name with
      | some previous =>
          have hframes : FrameStack.declare name decl f = .error previous f := by
            rw [FrameStack.declare, hname]
          rw [ScopeKeeper.step_of_error (k := keeper) (h.declare_of_some hname decl),
            ScopeKeeper.step_of_error (k := FrameStack.keeper) hframes]
          exact ⟨rfl, h⟩
      | none =>
          have hframes : FrameStack.declare name decl f =
              .ok () { f with top := f.top.bind name decl } := by
            rw [FrameStack.declare, hname]
          obtain ⟨s', hdeclare, hnext⟩ := h.declare_of_none hname decl
          rw [ScopeKeeper.step_of_ok (k := keeper) hdeclare,
            ScopeKeeper.step_of_ok (k := FrameStack.keeper) hframes]
          exact ⟨rfl, hnext⟩
  | lookup name => exact ⟨congrArg ScopeReply.found (h.lookup? name), h⟩
  | declaresHere name => exact ⟨congrArg ScopeReply.isHere (h.declaresHere name), h⟩
  | depth => exact ⟨congrArg ScopeReply.depth h.depth_eq, h⟩

/-- From a table that holds what the frames say, every run answers as the frames do. -/
theorem Represents.run (requests : List ScopeRequest) :
    ∀ {s : Scopes} {f : FrameStack}, s.Represents f.frames →
      keeper.run s requests = FrameStack.keeper.run f requests := by
  induction requests with
  | nil => intro s f _; rfl
  | cons request rest ih =>
      intro s f h
      obtain ⟨hreply, hnext⟩ := h.step request
      rw [ScopeKeeper.run, ScopeKeeper.run, hreply, ih hnext]

/--
**The table of innermost bindings is a stack of frames.**  Whatever is done with scopes and
asked of them, and in whatever order, they answer like frames of names that are searched
from the top down.
-/
theorem run_eq_frames (requests : List ScopeRequest) :
    keeper.run empty requests = FrameStack.keeper.run FrameStack.bottom requests :=
  represents_empty.run requests

-- A name is shadowed, refused a second time, given back, and gone once the bottom is emptied.
example :
    keeper.run empty [.declare "x" 0, .push, .declaresHere "x", .declare "x" 1, .declare "x" 2,
        .pop, .lookup "x", .pop, .lookup "x", .depth] =
      [.done, .done, .isHere false, .done, .taken 1, .done, .found (some 0), .done, .found none,
        .depth 0] := by
  decide

end Scopes

end StackCode
