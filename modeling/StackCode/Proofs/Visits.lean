/-
What analysis meets in a program, as a list.

Every declaration of a program is met, and if the program is well shaped so is every name
that refers to something, each once.  So the names can be told apart by their spans, also
those that an assignment introduces (`DistinctVisits`).  And what was introduced in the
blocks around a name can be traced back to the assignments that introduced it
(`Site.Grounded`).
-/
import Mathlib.Data.List.Induction
import Mathlib.Data.List.Nodup
import StackCode.Proofs.Scoping

namespace StackCode

/-! ### Sites along a block

`binders` has all names that may come to stand for something, as far as the tree alone can
tell: an assignment to a name that its block does not declare is among them, whether it
introduces the name or not.  What is met as a binder is a part of that list in the same
order.
-/

/-- A statement changes at most the `implicits` of the innermost block. -/
theorem Site.after_cons (b : Enclosing) (outer : Site) (s : Stmt) :
    ∃ implicits, Site.after (b :: outer) s = ⟨b.decls, implicits⟩ :: outer := by
  unfold Site.after
  cases s.assigned? with
  | none => exact ⟨b.implicits, rfl⟩
  | some id =>
      simp only [Site.assign]
      split
      · exact ⟨_, rfl⟩
      · exact ⟨b.implicits, rfl⟩

/--
A plain assignment to a name that its block declares introduces nothing, so the name is
`undeclared`.
-/
theorem Expr.bindersOf_names_target (b : Enclosing) (outer : Site) (target : Expr) :
    ((bindersOf (target.names (b :: outer) .target)).map (·.name)).Sublist
      (target.undeclared b.decls) := by
  cases target with
  | ident id =>
      rw [Expr.names, Expr.undeclared]
      by_cases hi : (Occurrence.mk (b :: outer) .target id).introduces
      · rw [bindersOf_introduces hi]
        have hnone : Site.visible? (b :: outer) id.name = none :=
          (Occurrence.introduces_iff.mp hi).2
        have hundeclared : b.decls.any (·.name.name == id.name) = false := by
          simp only [Site.visible?, List.findSome?_eq_none_iff, Enclosing.binder?,
            Option.or_eq_none_iff, Option.map_eq_none_iff, List.find?_eq_none] at hnone
          rw [List.any_eq_false]
          exact (hnone b List.mem_cons_self).1
        rw [hundeclared]
        exact List.Sublist.refl _
      · rw [bindersOf_not_introduces (Bool.eq_false_iff.mpr hi)]
        exact List.nil_sublist _
  | _ => exact List.nil_sublist _

mutual

/--
What comes to stand for something in a statement has one of the names that may: only a plain
assignment and the blocks inside have any.
-/
theorem Stmt.bindersOf_visits_sublist (b : Enclosing) (outer : Site) :
    ∀ s : Stmt,
      ((bindersOf (s.visits (b :: outer))).map (·.name)).Sublist (s.binders b.decls)
  | .assign target value _ => by
      rw [Stmt.visits, Stmt.binders, bindersOf_append, Expr.bindersOf_reads, List.nil_append]
      exact target.bindersOf_names_target b outer
  | .compound _ target value _ => by
      rw [Stmt.visits, bindersOf_append, Expr.bindersOf_reads,
        Expr.bindersOf_names _ (by simp)]
      exact List.nil_sublist _
  | .ifThen cond body _ => by
      rw [Stmt.visits, Stmt.binders, bindersOf_append, Expr.bindersOf_reads, List.nil_append]
      exact body.bindersOf_visits_sublist _
  | .ifElse cond body _ elseBody _ => by
      rw [Stmt.visits, Stmt.binders, bindersOf_append, bindersOf_append, Expr.bindersOf_reads,
        List.nil_append, List.map_append]
      exact (body.bindersOf_visits_sublist _).append (elseBody.bindersOf_visits_sublist _)
  | .whileLoop cond body _ => by
      rw [Stmt.visits, Stmt.binders, bindersOf_append, Expr.bindersOf_reads, List.nil_append]
      exact body.bindersOf_visits_sublist _
  | .func _ body _ => by
      rw [Stmt.visits, Stmt.binders]
      exact body.bindersOf_visits_sublist _
  | .ret none _ => by
      rw [Stmt.visits]
      exact List.nil_sublist _
  | .ret (some value) _ => by
      rw [Stmt.visits, Expr.bindersOf_reads]
      exact List.nil_sublist _
  | .intrinsic i args _ => by
      rw [Stmt.visits, bindersOf_operandVisits]
      exact List.nil_sublist _
  | .call name _ _ => by
      rw [Stmt.visits, bindersOf_not_introduces (Occurrence.introduces_eq_false (by simp))]
      exact List.nil_sublist _

/-- What comes to stand for something in a block has one of the names in `Block.binders`. -/
theorem Block.bindersOf_visits_sublist (outer : Site) :
    ∀ b : Block, ((bindersOf (b.visits outer)).map (·.name)).Sublist b.binders
  | ⟨decls, body, _⟩ => by
      rw [Block.visits, Block.binders, bindersOf_append, bindersOf_declVisits, List.map_append,
        List.map_map]
      exact (List.Sublist.refl _).append (stmts_bindersOf_visits_sublist ⟨decls, []⟩ outer body)

theorem stmts_bindersOf_visits_sublist (b : Enclosing) (outer : Site) :
    ∀ body : List Stmt,
      ((bindersOf (stmtsVisits (b :: outer) body)).map (·.name)).Sublist
        (stmtsBinders b.decls body)
  | [] => by
      rw [stmtsVisits]
      exact List.nil_sublist _
  | s :: rest => by
      obtain ⟨implicits, hafter⟩ := Site.after_cons b outer s
      rw [stmtsVisits, stmtsBinders, bindersOf_append, List.map_append, hafter]
      exact (s.bindersOf_visits_sublist b outer).append
        (stmts_bindersOf_visits_sublist ⟨b.decls, implicits⟩ outer rest)

end

/-! ### Nothing is left out, and nothing is met twice

Names are met in another order than they are written, because a value comes before its
target.  So what is met is a permutation of `refs` (`occurrencesOf_visits_perm`), and that
is enough to have different spans.
-/

mutual

/-- A statement declares what its blocks declare. -/
theorem Stmt.declared_sublist_bindersOf (site : Site) :
    ∀ s : Stmt, (s.declared.map Decl.binder).Sublist (bindersOf (s.visits site))
  | .ifThen cond body _ => by
      rw [Stmt.declared, Stmt.visits, bindersOf_append, Expr.bindersOf_reads, List.nil_append]
      exact body.declared_sublist_bindersOf site
  | .ifElse cond body _ elseBody _ => by
      rw [Stmt.declared, Stmt.visits, bindersOf_append, bindersOf_append, Expr.bindersOf_reads,
        List.nil_append, List.map_append]
      exact (body.declared_sublist_bindersOf site).append
        (elseBody.declared_sublist_bindersOf site)
  | .whileLoop cond body _ => by
      rw [Stmt.declared, Stmt.visits, bindersOf_append, Expr.bindersOf_reads, List.nil_append]
      exact body.declared_sublist_bindersOf site
  | .func _ body _ => by
      rw [Stmt.declared, Stmt.visits]
      exact body.declared_sublist_bindersOf site
  | .assign .. | .compound .. | .ret .. | .intrinsic .. | .call .. => by
      rw [Stmt.declared]
      exact List.nil_sublist _

/-- Every declaration of a block is met, as a `Decl.binder`. -/
theorem Block.declared_sublist_bindersOf (outer : Site) :
    ∀ b : Block, (b.declared.map Decl.binder).Sublist (bindersOf (b.visits outer))
  | ⟨decls, body, _⟩ => by
      rw [Block.declared, Block.visits, bindersOf_append, bindersOf_declVisits, List.map_append]
      exact (List.Sublist.refl _).append (stmtsDeclared_sublist_bindersOf _ body)

theorem stmtsDeclared_sublist_bindersOf (site : Site) :
    ∀ body : List Stmt,
      ((stmtsDeclared body).map Decl.binder).Sublist (bindersOf (stmtsVisits site body))
  | [] => by
      rw [stmtsDeclared]
      exact List.nil_sublist _
  | s :: rest => by
      rw [stmtsDeclared, stmtsVisits, bindersOf_append, List.map_append]
      exact (s.declared_sublist_bindersOf site).append
        (stmtsDeclared_sublist_bindersOf (site.after s) rest)

end

private theorem Expr.occurrencesOf_reads_ids (site : Site) (e : Expr) :
    (occurrencesOf (e.reads site)).map (·.id) = e.refs := by
  rw [Expr.occurrencesOf_reads, List.map_map]
  exact List.map_id _

/-- Of what can be written to, only a name refers to something. -/
theorem Expr.occurrencesOf_names_ids {e : Expr} (h : e.target?.isSome) (site : Site)
    (role : Role) : (occurrencesOf (e.names site role)).map (·.id) = e.refs := by
  cases e with
  | ident id => rfl
  | register r span => rfl
  | _ => simp [Expr.target?] at h

private theorem Operand.occurrencesOf_visits_ids {arg : Expr} {operand : Operand}
    (h : operand = .register → arg.target?.isSome) (site : Site) :
    (occurrencesOf (operand.visits site arg)).map (·.id) = arg.refs := by
  cases operand with
  | register => exact Expr.occurrencesOf_names_ids (h rfl) site .register
  | integer => exact arg.occurrencesOf_reads_ids site
  | any => exact arg.occurrencesOf_reads_ids site

private theorem occurrencesOf_operandVisits_ids (site : Site) :
    ∀ {args : List Expr} {operands : List Operand}, args.length = operands.length →
      (∀ arg operand, (arg, operand) ∈ args.zip operands → operand = .register →
        arg.target?.isSome) →
      (occurrencesOf (operandVisits site (args.zip operands))).map (·.id) = exprsRefs args
  | [], _, _, _ => rfl
  | arg :: args, operand :: operands, hlen, h => by
      have hrest := occurrencesOf_operandVisits_ids site (Nat.succ.inj hlen)
        fun arg' operand' hmem => h arg' operand' (List.mem_cons_of_mem _ hmem)
      rw [List.zip_cons_cons, operandVisits, occurrencesOf_append, List.map_append, hrest,
        Operand.occurrencesOf_visits_ids (h arg operand List.mem_cons_self)]
      rfl

theorem Intrinsic.arity_eq_length_operands (i : Intrinsic) : i.arity = i.operands.length := by
  cases i <;> rfl

mutual

/-- The names that analysis meets in a statement are its `refs`. -/
theorem Stmt.occurrencesOf_visits_perm (site : Site) :
    ∀ {s : Stmt}, s.WellShaped → ((occurrencesOf (s.visits site)).map (·.id)).Perm s.refs
  | .assign target value _, h => by
      rw [Stmt.WellShaped] at h
      rw [Stmt.visits, Stmt.refs, occurrencesOf_append, List.map_append,
        Expr.occurrencesOf_reads_ids, Expr.occurrencesOf_names_ids h]
      -- The value is met before the target.
      exact List.perm_append_comm
  | .compound _ target value _, h => by
      rw [Stmt.WellShaped] at h
      rw [Stmt.visits, Stmt.refs, occurrencesOf_append, List.map_append,
        Expr.occurrencesOf_reads_ids, Expr.occurrencesOf_names_ids h]
  | .ifThen cond body _, h => by
      rw [Stmt.WellShaped] at h
      rw [Stmt.visits, Stmt.refs, occurrencesOf_append, List.map_append,
        Expr.occurrencesOf_reads_ids]
      exact (Block.occurrencesOf_visits_perm site h).append_left _
  | .ifElse cond body _ elseBody _, h => by
      rw [Stmt.WellShaped] at h
      rw [Stmt.visits, Stmt.refs, occurrencesOf_append, occurrencesOf_append, List.map_append,
        List.map_append, Expr.occurrencesOf_reads_ids]
      exact ((Block.occurrencesOf_visits_perm site h.1).append
        (Block.occurrencesOf_visits_perm site h.2)).append_left _
  | .whileLoop cond body _, h => by
      rw [Stmt.WellShaped] at h
      rw [Stmt.visits, Stmt.refs, occurrencesOf_append, List.map_append,
        Expr.occurrencesOf_reads_ids]
      exact (Block.occurrencesOf_visits_perm site h).append_left _
  | .func _ body _, h => by
      rw [Stmt.WellShaped] at h
      rw [Stmt.visits, Stmt.refs]
      exact Block.occurrencesOf_visits_perm site h
  | .ret none _, _ => by
      rw [Stmt.visits, Stmt.refs]
      exact List.Perm.refl _
  | .ret (some value) _, _ => by
      rw [Stmt.visits, Stmt.refs, Expr.occurrencesOf_reads_ids]
  | .intrinsic i args _, h => by
      rw [Stmt.WellShaped] at h
      rw [Stmt.visits, Stmt.refs, occurrencesOf_operandVisits_ids site
        (h.1.trans i.arity_eq_length_operands) h.2]
  | .call name args _, h => by
      rw [Stmt.WellShaped] at h
      rw [Stmt.visits, Stmt.refs, h]
      exact List.Perm.refl _

/-- The names that analysis meets in a block are its `refs`. -/
theorem Block.occurrencesOf_visits_perm (outer : Site) :
    ∀ {b : Block}, b.WellShaped → ((occurrencesOf (b.visits outer)).map (·.id)).Perm b.refs
  | ⟨decls, body, _⟩, h => by
      rw [Block.WellShaped] at h
      rw [Block.visits, Block.refs, occurrencesOf_append, occurrencesOf_declVisits,
        List.nil_append]
      exact stmts_occurrencesOf_visits_perm _ h

theorem stmts_occurrencesOf_visits_perm (site : Site) :
    ∀ {body : List Stmt}, stmtsWellShaped body →
      ((occurrencesOf (stmtsVisits site body)).map (·.id)).Perm (stmtsRefs body)
  | [], _ => by
      rw [stmtsVisits, stmtsRefs]
      exact List.Perm.refl _
  | s :: rest, h => by
      rw [stmtsWellShaped] at h
      rw [stmtsVisits, stmtsRefs, occurrencesOf_append, List.map_append]
      exact (Stmt.occurrencesOf_visits_perm site h.1).append
        (stmts_occurrencesOf_visits_perm (site.after s) h.2)

end

/-- The names of visits can be told apart by their spans. -/
structure DistinctVisits (vs : List Visit) : Prop where
  uses : ((occurrencesOf vs).map (·.id.span)).Nodup
  binders : ((bindersOf vs).map (·.name.span)).Nodup

namespace DistinctVisits

variable {vs ws : List Visit}

theorem left (h : DistinctVisits (vs ++ ws)) : DistinctVisits vs := by
  have huses := h.uses
  have hbinders := h.binders
  rw [occurrencesOf_append, List.map_append] at huses
  rw [bindersOf_append, List.map_append] at hbinders
  exact ⟨huses.of_append_left, hbinders.of_append_left⟩

/-- A name that is met last stands elsewhere than those before it. -/
theorem use_ne {o : Occurrence} (h : DistinctVisits (vs ++ [.uses o])) :
    ∀ o' ∈ occurrencesOf vs, o'.id.span ≠ o.id.span := by
  have huses := h.uses
  rw [occurrencesOf_append, List.map_append, List.nodup_append] at huses
  intro o' ho'
  exact huses.2.2 _ (List.mem_map_of_mem ho') _ (by simp)

theorem binder_ne {v : Visit} {d : Binder} (h : DistinctVisits (vs ++ [v]))
    (hd : v.binder? = some d) : ∀ d' ∈ bindersOf vs, d'.name.span ≠ d.name.span := by
  have hbinders := h.binders
  rw [bindersOf_append, List.map_append, List.nodup_append] at hbinders
  intro d' hd'
  exact hbinders.2.2 _ (List.mem_map_of_mem hd') _ (by simp [bindersOf, hd])

end DistinctVisits

theorem Program.WellNamed.distinctVisits {p : Program} (hnamed : p.WellNamed)
    (hshape : p.block.WellShaped) : DistinctVisits p.visits := by
  refine ⟨?_, ?_⟩
  · have hrefs := hnamed.refs
    rw [List.map_append] at hrefs
    have hperm := (Block.occurrencesOf_visits_perm [] hshape).map (·.span)
    rw [List.map_map] at hperm
    exact hperm.nodup_iff.mpr (List.nodup_append.mp hrefs).1
  · have hsub := (p.block.bindersOf_visits_sublist []).map (·.span)
    rw [List.map_map] at hsub
    exact hsub.nodup hnamed.binders

/-! ### Where introduced variables come from

`Grounded` looks at a site in all ways in which a variable can be picked out of it: the
blocks further in, what was introduced before it, the blocks around.  Entering a block and
introducing a variable keep it, and these are the only ways to come to a site.
-/

/-- All names of the visits are among the occurrences. -/
def AllAmong (os : List Occurrence) (vs : List Visit) : Prop := ∀ o ∈ occurrencesOf vs, o ∈ os

theorem AllAmong.left {os : List Occurrence} {vs ws : List Visit} (h : AllAmong os (vs ++ ws)) :
    AllAmong os vs := by
  intro o ho
  refine h o ?_
  rw [occurrencesOf_append]
  exact List.mem_append_left _ ho

theorem AllAmong.right {os : List Occurrence} {vs ws : List Visit} (h : AllAmong os (vs ++ ws)) :
    AllAmong os ws := by
  intro o ho
  refine h o ?_
  rw [occurrencesOf_append]
  exact List.mem_append_right _ ho

/--
What was introduced in the blocks around a site was introduced by one of the
occurrences, which stands directly in the same block, behind what was introduced
there before.
-/
def Site.Grounded (os : List Occurrence) (site : Site) : Prop :=
  ∀ inner decls before id behind outer,
    site = inner ++ ⟨decls, before ++ id :: behind⟩ :: outer →
      ∃ o ∈ os, o.introduces = true ∧ o.id = id ∧ o.site = ⟨decls, before⟩ :: outer

section Grounded

variable {os : List Occurrence} {site outer : Site} {b : Enclosing}

private theorem Site.grounded_nil (os : List Occurrence) : Site.Grounded os [] := by
  intro inner decls before id behind outer h
  simp at h

theorem Site.Grounded.push (h : Site.Grounded os outer) (decls : List Decl) :
    Site.Grounded os (⟨decls, []⟩ :: outer) := by
  intro inner decls' before id behind outer' heq
  cases inner with
  | nil => simp at heq
  | cons b inner =>
      obtain ⟨-, heq⟩ := List.cons.inj heq
      exact h inner decls' before id behind outer' heq

theorem Site.Grounded.introduce (h : Site.Grounded os (b :: outer)) {o : Occurrence} (ho : o ∈ os)
    (hsite : o.site = b :: outer) (hintro : o.introduces = true) :
    Site.Grounded os ({ b with implicits := b.implicits ++ [o.id] } :: outer) := by
  intro inner decls before id behind outer' heq
  cases inner with
  | cons b' inner =>
      obtain ⟨-, heq⟩ := List.cons.inj heq
      exact h (b :: inner) decls before id behind outer' (congrArg (b :: ·) heq)
  | nil =>
      obtain ⟨hb, rfl⟩ := List.cons.inj heq
      obtain ⟨rfl, himplicits⟩ := Enclosing.mk.inj hb
      -- The variable is the new one, or it was there before.
      cases behind using List.reverseRecOn with
      | nil =>
          obtain ⟨rfl, hid⟩ := List.append_inj' himplicits rfl
          exact ⟨o, ho, hintro, List.singleton_inj.mp hid, hsite⟩
      | append_singleton behind last =>
          rw [← List.cons_append, ← List.append_assoc] at himplicits
          obtain ⟨hbefore, -⟩ := List.append_inj' himplicits rfl
          refine h [] b.decls before id behind outer ?_
          rw [← hbefore]
          rfl

theorem Site.Grounded.after (h : Site.Grounded os site) (s : Stmt)
    (hs : AllAmong os (s.visits site)) : Site.Grounded os (site.after s) := by
  unfold Site.after
  cases hid : s.assigned? with
  | none => exact h
  | some id =>
      obtain ⟨value, span, rfl⟩ : ∃ value span, s = .assign (.ident id) value span := by
        cases s with
        | assign target value span =>
            cases target <;> simp [Stmt.assigned?] at hid
            subst hid
            exact ⟨value, span, rfl⟩
        | _ => simp [Stmt.assigned?] at hid
      cases site with
      | nil => exact h
      | cons b outer =>
          simp only [Site.assign]
          split
          · rename_i hnone
            have hmem : (⟨b :: outer, .target, id⟩ : Occurrence) ∈ os := by
              rw [Stmt.visits] at hs
              exact hs.right _ (List.mem_singleton_self _)
            have hintro : (⟨b :: outer, .target, id⟩ : Occurrence).introduces = true :=
              Occurrence.introduces_iff.mpr ⟨rfl, Option.isNone_iff_eq_none.mp hnone⟩
            exact h.introduce hmem rfl hintro
          · exact h

end Grounded

private theorem Expr.site_of_mem_reads {e : Expr} {site : Site} {o : Occurrence}
    (h : o ∈ occurrencesOf (e.reads site)) : o.site = site := by
  rw [Expr.occurrencesOf_reads] at h
  obtain ⟨id, -, rfl⟩ := List.mem_map.mp h
  rfl

private theorem Expr.site_of_mem_names {e : Expr} {site : Site} {role : Role} {o : Occurrence}
    (h : o ∈ occurrencesOf (e.names site role)) : o.site = site := by
  cases e with
  | ident id =>
      obtain rfl := List.mem_singleton.mp h
      rfl
  | _ => simp [Expr.names] at h

private theorem site_of_mem_operandVisits {site : Site} {o : Occurrence} :
    ∀ {args : List (Expr × Operand)}, o ∈ occurrencesOf (operandVisits site args) →
      o.site = site
  | (arg, operand) :: rest, h => by
      rw [operandVisits, occurrencesOf_append, List.mem_append] at h
      rcases h with h | h
      · cases operand with
        | register => exact Expr.site_of_mem_names h
        | integer => exact Expr.site_of_mem_reads h
        | any => exact Expr.site_of_mem_reads h
      · exact site_of_mem_operandVisits h

mutual

/-- Names of the statement itself stand at its site, those in its blocks at sites further in. -/
theorem Stmt.grounded_of_mem_visits {os : List Occurrence} {site : Site}
    (hsite : Site.Grounded os site) :
    ∀ {s : Stmt}, AllAmong os (s.visits site) →
      ∀ o ∈ occurrencesOf (s.visits site), Site.Grounded os o.site
  | .assign target value _, _, o, ho => by
      rw [Stmt.visits, occurrencesOf_append, List.mem_append] at ho
      rcases ho with ho | ho
      · rwa [Expr.site_of_mem_reads ho]
      · rwa [Expr.site_of_mem_names ho]
  | .compound _ target value _, _, o, ho => by
      rw [Stmt.visits, occurrencesOf_append, List.mem_append] at ho
      rcases ho with ho | ho
      · rwa [Expr.site_of_mem_names ho]
      · rwa [Expr.site_of_mem_reads ho]
  | .ifThen cond body _, hos, o, ho => by
      rw [Stmt.visits] at hos ho
      rw [occurrencesOf_append] at ho
      rcases List.mem_append.mp ho with ho | ho
      · rwa [Expr.site_of_mem_reads ho]
      · exact Block.grounded_of_mem_visits hsite hos.right o ho
  | .ifElse cond body _ elseBody _, hos, o, ho => by
      rw [Stmt.visits] at hos ho
      rw [occurrencesOf_append, occurrencesOf_append] at ho
      rcases List.mem_append.mp ho with ho | ho
      · rwa [Expr.site_of_mem_reads ho]
      rcases List.mem_append.mp ho with ho | ho
      · exact Block.grounded_of_mem_visits hsite hos.right.left o ho
      · exact Block.grounded_of_mem_visits hsite hos.right.right o ho
  | .whileLoop cond body _, hos, o, ho => by
      rw [Stmt.visits] at hos ho
      rw [occurrencesOf_append] at ho
      rcases List.mem_append.mp ho with ho | ho
      · rwa [Expr.site_of_mem_reads ho]
      · exact Block.grounded_of_mem_visits hsite hos.right o ho
  | .func _ body _, hos, o, ho => by
      rw [Stmt.visits] at hos ho
      exact Block.grounded_of_mem_visits hsite hos o ho
  | .ret none _, _, o, ho => by
      rw [Stmt.visits] at ho
      simp at ho
  | .ret (some value) _, _, o, ho => by
      rw [Stmt.visits] at ho
      rwa [Expr.site_of_mem_reads ho]
  | .intrinsic i args _, _, o, ho => by
      rw [Stmt.visits] at ho
      rwa [site_of_mem_operandVisits ho]
  | .call name _ _, _, o, ho => by
      rw [Stmt.visits] at ho
      obtain rfl := List.mem_singleton.mp ho
      exact hsite

theorem Block.grounded_of_mem_visits {os : List Occurrence} {outer : Site}
    (houter : Site.Grounded os outer) :
    ∀ {b : Block}, AllAmong os (b.visits outer) →
      ∀ o ∈ occurrencesOf (b.visits outer), Site.Grounded os o.site
  | ⟨decls, body, _⟩, hos, o, ho => by
      rw [Block.visits] at hos ho
      rw [occurrencesOf_append, occurrencesOf_declVisits, List.nil_append] at ho
      exact stmts_grounded_of_mem_visits (houter.push decls) hos.right o ho

theorem stmts_grounded_of_mem_visits {os : List Occurrence} {site : Site}
    (hsite : Site.Grounded os site) :
    ∀ {body : List Stmt}, AllAmong os (stmtsVisits site body) →
      ∀ o ∈ occurrencesOf (stmtsVisits site body), Site.Grounded os o.site
  | [], _, o, ho => by
      rw [stmtsVisits] at ho
      simp at ho
  | s :: rest, hos, o, ho => by
      rw [stmtsVisits] at hos ho
      rw [occurrencesOf_append] at ho
      rcases List.mem_append.mp ho with ho | ho
      · exact Stmt.grounded_of_mem_visits hsite hos.left o ho
      · exact stmts_grounded_of_mem_visits (hsite.after s hos.left) hos.right o ho

end

/-- Whatever is visible at a name of a program was introduced by one of its `occurrences`. -/
theorem Program.grounded {p : Program} {o : Occurrence} (h : o ∈ p.occurrences) :
    Site.Grounded p.occurrences o.site :=
  Block.grounded_of_mem_visits (Site.grounded_nil _) (fun _ ho => ho) o h

end StackCode
