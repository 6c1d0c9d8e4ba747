/-
Parsed programs are well named.

Statements add to what expressions do in two ways: they open blocks, and they declare names.
A block sets the names of the block around it aside while it is read (`Parser.inBlock`), so
what is recorded on a block is just what its own statements declare.

A function is declared by the statement that defines it and by nothing else.  That is kept
statement by statement (`Gathers.funcs`), and gives for every block that the functions it
declares are those among its statements, which is `FuncsDeclared`.
-/
import StackCode.Proofs.Parsing

namespace StackCode

open Sequencing

/-! ### Lists of statements

The lists of names are put together from those of the statements.  A name that an assignment
may introduce is only counted where the block does not declare it, so `binders` gets fewer
as more is declared.
-/

private theorem stmtsRefs_append (a b : List Stmt) :
    stmtsRefs (a ++ b) = stmtsRefs a ++ stmtsRefs b := by
  induction a with
  | nil => simp [stmtsRefs]
  | cons s a ih => simp [stmtsRefs, ih]

private theorem stmtsFunctions_append (a b : List Stmt) :
    stmtsFunctions (a ++ b) = stmtsFunctions a ++ stmtsFunctions b := by
  induction a with
  | nil => simp [stmtsFunctions]
  | cons s a ih => simp [stmtsFunctions, ih]

private theorem stmtsBinders_append (own : List Decl) (a b : List Stmt) :
    stmtsBinders own (a ++ b) = stmtsBinders own a ++ stmtsBinders own b := by
  induction a with
  | nil => simp [stmtsBinders]
  | cons s a ih => simp [stmtsBinders, ih]

/-- The more a block declares, the fewer names are left to assignments. -/
theorem Stmt.binders_sublist {own own' : List Decl} (h : own ⊆ own') (s : Stmt) :
    (s.binders own').Sublist (s.binders own) := by
  cases s with
  | assign target value span =>
      rw [Stmt.binders, Stmt.binders]
      cases target with
      | ident id =>
          simp only [Expr.undeclared]
          by_cases hd : own.any (·.name.name == id.name) = true
          · have hd' : own'.any (·.name.name == id.name) = true := by
              obtain ⟨d, hmem, hname⟩ := List.any_eq_true.mp hd
              exact List.any_eq_true.mpr ⟨d, h hmem, hname⟩
            rw [if_pos hd']
            exact List.nil_sublist _
          · rw [if_neg hd]
            split
            · exact List.nil_sublist _
            · exact List.Sublist.refl _
      | binary | unary | integer | boolean | register => exact List.Sublist.refl _
  | compound | ifThen | ifElse | whileLoop | func | ret | intrinsic | call =>
      rw [Stmt.binders, Stmt.binders]

private theorem Expr.undeclared_sublist_refs (own : List Decl) (e : Expr) :
    (e.undeclared own).Sublist e.refs := by
  cases e with
  | ident id =>
      simp only [Expr.undeclared, Expr.refs]
      split
      · exact List.nil_sublist _
      · exact List.Sublist.refl _
  | binary | unary | integer | boolean | register => exact List.nil_sublist _

private theorem stmtsBinders_sublist {own own' : List Decl} (h : own ⊆ own') (body : List Stmt) :
    (stmtsBinders own' body).Sublist (stmtsBinders own body) := by
  induction body with
  | nil =>
      rw [stmtsBinders]
      exact List.nil_sublist _
  | cons s body ih =>
      rw [stmtsBinders, stmtsBinders]
      exact (s.binders_sublist h).append ih

private theorem stmtsFuncsDeclared_append (a b : List Stmt) :
    stmtsFuncsDeclared (a ++ b) ↔ stmtsFuncsDeclared a ∧ stmtsFuncsDeclared b := by
  induction a with
  | nil => simp [stmtsFuncsDeclared]
  | cons s a ih => simp [stmtsFuncsDeclared, ih, and_assoc]

namespace Parser

/-! ### What reading a statement does

`Gathers` is about statements in a row, so that it goes on from one to the next
(`Gathers.trans`).  Most statements declare nothing, and for them `Plain` has less to say.
-/

/-- The statements `new` were read, and declared `own` on the block they stand in. -/
structure Gathers (p q : Parser) (new : List Stmt) (own : List Decl) : Prop where
  reading : Reading p q (stmtsRefs new ++ funcNames (stmtsFunctions new)) own (stmtsBinders own new)
  /-- The functions that were declared are those among the statements. -/
  funcs : own.filterMap Decl.func? = new.filterMap Stmt.func?
  inner : stmtsFuncsDeclared new

theorem Gathers.trans {p q u : Parser} {new new' : List Stmt} {own own' : List Decl}
    (h : Gathers p q new own) (h' : Gathers q u new' own') :
    Gathers p u (new ++ new') (own ++ own') := by
  refine ⟨?_, ?_, (stmtsFuncsDeclared_append ..).mpr ⟨h.inner, h'.inner⟩⟩
  · rw [stmtsRefs_append, stmtsFunctions_append, stmtsBinders_append, funcNames_append]
    refine ((h.reading.trans h'.reading).perm (append_shuffle ..)).fewer ?_
    exact (stmtsBinders_sublist (List.subset_append_left ..) new).append
      (stmtsBinders_sublist (List.subset_append_right ..) new')
  · rw [List.filterMap_append, List.filterMap_append, h.funcs, h'.funcs]

/-- A statement was read that declares nothing on the block it stands in. -/
structure Plain (p q : Parser) (s : Stmt) : Prop where
  reading : Reading p q (s.refs ++ funcNames s.functions) [] (s.binders [])
  funcs : s.func? = none
  inner : s.FuncsDeclared

private theorem Plain.gathers {p q : Parser} {s : Stmt} (h : Plain p q s) : Gathers p q [s] [] := by
  refine ⟨?_, by simp [h.funcs], ⟨h.inner, trivial⟩⟩
  simpa [stmtsRefs, stmtsFunctions, stmtsBinders] using h.reading

/-- A step that reads a statement which declares nothing. -/
def ReadsPlain (x : Parsing Stmt) : Prop :=
  ∀ ⦃p s q⦄, p.lexer.Ordered → x p = .ok s q → Plain p q s

/-- A step that reads a statement, or only a declaration. -/
def ReadsStatement (x : Parsing (Option Stmt)) : Prop :=
  ∀ ⦃p s q⦄, p.lexer.Ordered → x p = .ok s q → ∃ own, Gathers p q s.toList own

/-- A step that reads a block. -/
def ReadsBlock (x : Parsing Block) : Prop :=
  ∀ ⦃p b q⦄, p.lexer.Ordered → x p = .ok b q →
    Reading p q (b.refs ++ funcNames b.functions) [] b.binders ∧ b.FuncsDeclared

/-- Tokens without names gather nothing. -/
theorem Gathers.skip {p q : Parser} (h : Reading p q [] [] []) : Gathers p q [] [] :=
  ⟨by simpa [stmtsRefs, stmtsFunctions, stmtsBinders] using h, rfl, trivial⟩

/-! ### Blocks

The loop of a block gathers statements; `inBlock` then takes what they have declared off the
parser and puts back what was there before.  What was recorded on the block becomes part of
its `binders`.
-/

/-- A statement, or only a declaration, and then what a loop gathers behind it. -/
theorem Gathers.onto {p q u : Parser} {s : Option Stmt} {own : List Decl}
    {done stmts : List Stmt} (h : Gathers p q s.toList own)
    (hrest : ∃ new own, stmts = (s.toList ++ done).reverse ++ new ∧ Gathers q u new own) :
    ∃ new own, stmts = done.reverse ++ new ∧ Gathers p u new own := by
  obtain ⟨new, own', rfl, h'⟩ := hrest
  refine ⟨s.toList ++ new, own ++ own', ?_, h.trans h'⟩
  cases s <;> simp

private theorem statementsUntil_gathers {statement : Parsing (Option Stmt)}
    (hstmt : ReadsStatement statement) (closing : TokenKind) :
    ∀ (n : Nat) (done : List Stmt) ⦃p stmts q⦄, p.lexer.Ordered →
      statementsUntil statement closing done n p = .ok stmts q →
      ∃ new own, stmts = done.reverse ++ new ∧ Gathers p q new own := by
  intro n
  induction n with
  | zero =>
      intro done p stmts q _ h
      simp [statementsUntil, outOfFuel, fail] at h
  | succ n ih =>
      intro done p stmts q hp h
      rw [statementsUntil] at h
      obtain ⟨closed, m, hcheck, h⟩ := bind_eq_ok.mp h
      have hm := skips_check _ hp hcheck
      -- The rest of a block, after the test for its end.
      have hgo : ∀ {m' s m₁}, Reading p m' [] [] [] → statement m' = .ok s m₁ →
          statementsUntil statement closing (s.toList ++ done) n m₁ = .ok stmts q →
          ∃ new own, stmts = done.reverse ++ new ∧ Gathers p q new own := by
        intro m' s m₁ hm' hs h
        obtain ⟨own, h₁⟩ := hstmt hm'.ordered hs
        exact ((Gathers.skip hm').trans h₁).onto (ih _ h₁.reading.ordered h)
      cases closed with
      | true =>
          obtain ⟨rfl, rfl⟩ := pure_eq_ok.mp h
          exact ⟨[], [], by simp, .skip hm⟩
      | false =>
          simp only [Bool.false_eq_true, if_false] at h
          obtain ⟨ended, m₁, heof, h⟩ := bind_eq_ok.mp h
          have h₁ := skips_check _ hm.ordered heof
          cases ended with
          | true =>
              simp only [if_true] at h
              obtain ⟨t, m₂, hexp, h⟩ := bind_eq_ok.mp h
              obtain ⟨s, m₃, hs, h⟩ := bind_eq_ok.mp h
              have h₂ := (hm.trans h₁).trans (skips_expect _ h₁.ordered hexp)
              exact hgo h₂ hs (by cases s <;> exact h)
          | false =>
              obtain ⟨s, m₂, hs, h⟩ := bind_eq_ok.mp h
              exact hgo (hm.trans h₁) hs (by cases s <;> exact h)

/-- What is recorded while a block is read stays with the block. -/
theorem inBlock_reading {body : Parsing (List Stmt)} {p q : Parser} {stmts : List Stmt}
    {decls : List Decl} (span : Span)
    (hbody : ∀ ⦃p stmts q⦄, p.lexer.Ordered → body p = .ok stmts q →
      ∃ own, Gathers p q stmts own)
    (hp : p.lexer.Ordered) (h : inBlock body p = .ok (stmts, decls) q) :
    Reading p q (stmtsRefs stmts ++ funcNames (stmtsFunctions stmts)) []
        (Block.mk decls stmts span).binders ∧
      (Block.mk decls stmts span).FuncsDeclared := by
  simp only [inBlock] at h
  split at h
  · rename_i read m hread
    simp only [EStateM.Result.ok.injEq, Prod.mk.injEq] at h
    obtain ⟨⟨rfl, rfl⟩, rfl⟩ := h
    obtain ⟨own, hg⟩ := hbody (p := { p with declared := [] }) hp hread
    have hown : m.declared.reverse = own := by simp [hg.reading.declared]
    refine ⟨⟨hg.reading.ordered, hg.reading.le, rfl, hg.reading.names, ?_⟩, ?_⟩
    · rw [hown]
      exact hg.reading.binders
    · rw [hown]
      exact ⟨hg.funcs, hg.inner⟩
  · simp at h

private theorem blockOf_reads {statement : Parsing (Option Stmt)} (hstmt : ReadsStatement statement)
    (n : Nat) : ReadsBlock (blockOf statement n) := by
  intro p b q hp h
  obtain ⟨opening, m₁, hopen, h⟩ := bind_eq_ok.mp h
  obtain ⟨⟨stmts, decls⟩, m₂, hbody, h⟩ := bind_eq_ok.mp h
  obtain ⟨closing, m₃, hclose, h⟩ := bind_eq_ok.mp h
  obtain ⟨rfl, rfl⟩ := pure_eq_ok.mp h
  have h₁ := skips_expectMark _ hp hopen
  have hstmts : ∀ ⦃p stmts q⦄, p.lexer.Ordered →
      statementsUntil statement (.mark .rightBrace) [] n p = .ok stmts q →
      ∃ own, Gathers p q stmts own := by
    intro p stmts q hp h
    obtain ⟨new, own, rfl, hg⟩ := statementsUntil_gathers hstmt _ n [] hp h
    exact ⟨own, by simpa using hg⟩
  obtain ⟨h₂, hfuncs⟩ :=
    inBlock_reading (opening.span.merge closing.span) hstmts h₁.ordered hbody
  have h₃ := skips_advance h₂.ordered hclose
  refine ⟨?_, hfuncs⟩
  simpa [Block.refs, Block.functions] using (h₁.trans h₂).trans h₃

/-! ### Statements with blocks

The names of functions inside a block are counted behind its references, and so are those of
the block that follows.  Where a statement has two blocks the lists have to be put in order,
which is a permutation.
-/

section Parts

variable {expr : Parsing Expr} {args : Parsing Arguments} {block : Parsing Block}

private theorem ifStatement_plain (hexpr : ReadsExpr expr) (hblock : ReadsBlock block) :
    ∀ n, ReadsPlain (ifStatement expr block n) := by
  intro n
  induction n with
  | zero =>
      intro p s q _ h
      simp [ifStatement, outOfFuel, fail] at h
  | succ n ih =>
      intro p s q hp h
      rw [ifStatement] at h
      obtain ⟨word, m₁, hword, h⟩ := bind_eq_ok.mp h
      obtain ⟨cond, m₂, hcond, h⟩ := bind_eq_ok.mp h
      obtain ⟨body, m₃, hbody, h⟩ := bind_eq_ok.mp h
      obtain ⟨word?, m₄, heat, h⟩ := bind_eq_ok.mp h
      have h₁ := skips_expect _ hp hword
      have h₂ := hexpr h₁.ordered hcond
      obtain ⟨h₃, hfuncs⟩ := hblock h₂.ordered hbody
      have h₄ := skips_eat _ h₃.ordered heat
      have hthen := ((h₁.trans h₂).trans h₃).trans h₄
      cases word? with
      | none =>
          obtain ⟨rfl, rfl⟩ := pure_eq_ok.mp h
          exact ⟨by simpa [Stmt.refs, Stmt.functions, Stmt.binders] using hthen, rfl, hfuncs⟩
      | some _ =>
          obtain ⟨chains, m₅, hcheck, h⟩ := bind_eq_ok.mp h
          have h₅ := skips_check _ h₄.ordered hcheck
          -- Names of functions inside the `if` stand before the names of the `else`.
          have hshuffle : ∀ refs funcs : List Ident,
              (cond.refs ++ (body.refs ++ (funcNames body.functions ++ (refs ++ funcs)))).Perm
                (cond.refs ++ (body.refs ++ (refs ++ (funcNames body.functions ++ funcs)))) := by
            intro refs funcs
            refine List.Perm.append_left _ (List.Perm.append_left _ ?_)
            exact List.perm_append_comm_assoc ..
          cases chains with
          | true =>
              simp only [if_true, bind_eq_ok, pure_eq_ok] at h
              obtain ⟨chained, m₆, hchained, rfl, rfl⟩ := h
              have h₆ := ih h₅.ordered hchained
              refine ⟨?_, rfl, hfuncs, ⟨?_, h₆.inner, trivial⟩⟩
              · have hread := ((hthen.trans h₅).trans h₆.reading).perm
                  (by simpa using hshuffle chained.refs (funcNames chained.functions))
                simpa [Stmt.refs, Stmt.functions, Stmt.binders, Block.refs, stmtsRefs,
                  Block.functions, stmtsFunctions, Block.binders, stmtsBinders] using hread
              · simp [h₆.funcs]
          | false =>
              simp only [Bool.false_eq_true, if_false, bind_eq_ok, pure_eq_ok] at h
              obtain ⟨elseBody, m₆, helse, rfl, rfl⟩ := h
              obtain ⟨h₆, hfuncs'⟩ := hblock h₅.ordered helse
              refine ⟨?_, rfl, hfuncs, hfuncs'⟩
              have hread := ((hthen.trans h₅).trans h₆).perm
                (by simpa using hshuffle elseBody.refs (funcNames elseBody.functions))
              simpa [Stmt.refs, Stmt.functions, Stmt.binders] using hread

private theorem whileStatement_plain (hexpr : ReadsExpr expr) (hblock : ReadsBlock block) :
    ReadsPlain (whileStatement expr block) := by
  intro p s q hp h
  obtain ⟨word, m₁, hword, h⟩ := bind_eq_ok.mp h
  obtain ⟨cond, m₂, hcond, h⟩ := bind_eq_ok.mp h
  obtain ⟨body, m₃, hbody, h⟩ := bind_eq_ok.mp h
  obtain ⟨rfl, rfl⟩ := pure_eq_ok.mp h
  have h₁ := skips_expect _ hp hword
  have h₂ := hexpr h₁.ordered hcond
  obtain ⟨h₃, hfuncs⟩ := hblock h₂.ordered hbody
  refine ⟨?_, rfl, hfuncs⟩
  simpa [Stmt.refs, Stmt.functions, Stmt.binders] using (h₁.trans h₂).trans h₃

/-- A function is declared by the statement that defines it. -/
theorem funcStatement_gathers (hblock : ReadsBlock block) {p q : Parser} {s : Stmt}
    (hp : p.lexer.Ordered) (h : funcStatement block p = .ok s q) :
    ∃ own, Gathers p q [s] own := by
  obtain ⟨word, m₁, hword, h⟩ := bind_eq_ok.mp h
  obtain ⟨name, m₂, hname, h⟩ := bind_eq_ok.mp h
  obtain ⟨_, m₃, hdecl, h⟩ := bind_eq_ok.mp h
  obtain ⟨body, m₄, hbody, h⟩ := bind_eq_ok.mp h
  obtain ⟨rfl, rfl⟩ := pure_eq_ok.mp h
  obtain rfl := modify_eq_ok.mp hdecl
  have h₁ := skips_expect _ hp hword
  have h₂ := (ident_reading h₁.ordered hname).declare .func
  obtain ⟨h₃, hfuncs⟩ := hblock h₂.ordered hbody
  refine ⟨[⟨.func, name⟩], ?_, rfl, ⟨hfuncs, trivial⟩⟩
  have hperm : ([] ++ [name] ++ (body.refs ++ funcNames body.functions)).Perm
      (body.refs ++ name :: funcNames body.functions) := by
    simpa using List.perm_middle.symm
  have hread := ((h₁.trans h₂).trans h₃).perm hperm
  simpa [stmtsRefs, Stmt.refs, stmtsFunctions, Stmt.functions, stmtsBinders, Stmt.binders]
    using hread

/-! ### Simple statements

A `var` with an initial value has one token for two names, the one that is declared and the
one that is assigned to.  The latter is not among the `binders`, since the block declares
it.
-/

private theorem returnStatement_plain (hexpr : ReadsExpr expr) :
    ReadsPlain (returnStatement expr) := by
  intro p s q hp h
  obtain ⟨word, m₁, hword, h⟩ := bind_eq_ok.mp h
  obtain ⟨bare, m₂, hcheck, h⟩ := bind_eq_ok.mp h
  have h₁ := skips_expect _ hp hword
  have h₂ := skips_check _ h₁.ordered hcheck
  cases bare with
  | true =>
      simp only [if_true, bind_eq_ok, pure_eq_ok] at h
      obtain ⟨value, m₃, ⟨rfl, rfl⟩, semicolon, m₄, hsemi, rfl, rfl⟩ := h
      refine ⟨?_, rfl, trivial⟩
      simpa [Stmt.refs, Stmt.functions, Stmt.binders] using
        (h₁.trans h₂).trans (skips_expectMark _ h₂.ordered hsemi)
  | false =>
      simp only [Bool.false_eq_true, if_false, bind_eq_ok, pure_eq_ok, map_eq_ok] at h
      obtain ⟨value, m₃, ⟨e, he, rfl⟩, semicolon, m₄, hsemi, rfl, rfl⟩ := h
      have h₃ := hexpr h₂.ordered he
      refine ⟨?_, rfl, trivial⟩
      simpa [Stmt.refs, Stmt.functions, Stmt.binders] using
        ((h₁.trans h₂).trans h₃).trans (skips_expectMark _ h₃.ordered hsemi)

/-- The name of a variable is declared, and referred to only if it has an initial value. -/
theorem varStatement_gathers (hexpr : ReadsExpr expr) : ReadsStatement (varStatement expr) := by
  intro p s q hp h
  obtain ⟨word, m₁, hword, h⟩ := bind_eq_ok.mp h
  obtain ⟨name, m₂, hname, h⟩ := bind_eq_ok.mp h
  obtain ⟨_, m₃, hdecl, h⟩ := bind_eq_ok.mp h
  obtain ⟨sign, m₄, heat, h⟩ := bind_eq_ok.mp h
  obtain rfl := modify_eq_ok.mp hdecl
  have h₁ := skips_expect _ hp hword
  have h₂ := (ident_reading h₁.ordered hname).declare .var
  have h₃ := skips_eat _ h₂.ordered heat
  refine ⟨[⟨.var, name⟩], ?_⟩
  cases sign with
  | none =>
      simp only [bind_eq_ok, pure_eq_ok] at h
      obtain ⟨semicolon, m₅, hsemi, rfl, rfl⟩ := h
      have h₄ := ((h₁.trans h₂).trans h₃).trans (skips_expectMark _ h₃.ordered hsemi)
      refine ⟨?_, rfl, trivial⟩
      simpa [stmtsRefs, stmtsFunctions, stmtsBinders] using h₄.sublist (List.nil_sublist _)
  | some _ =>
      simp only [bind_eq_ok, pure_eq_ok] at h
      obtain ⟨value, m₅, hvalue, semicolon, m₆, hsemi, rfl, rfl⟩ := h
      have h₄ := hexpr h₃.ordered hvalue
      have h₅ := skips_expectMark _ h₄.ordered hsemi
      refine ⟨?_, rfl, trivial, trivial⟩
      simpa [stmtsRefs, Stmt.refs, Expr.refs, stmtsFunctions, Stmt.functions, stmtsBinders,
        Stmt.binders, Expr.undeclared] using (((h₁.trans h₂).trans h₃).trans h₄).trans h₅

private theorem aliasStatement_gathers {p q : Parser} {u : Unit} (hp : p.lexer.Ordered)
    (h : aliasStatement p = .ok u q) : ∃ own, Gathers p q [] own := by
  obtain ⟨word, m₁, hword, h⟩ := bind_eq_ok.mp h
  obtain ⟨name, m₂, hname, h⟩ := bind_eq_ok.mp h
  obtain ⟨sign, m₃, hsign, h⟩ := bind_eq_ok.mp h
  obtain ⟨t, m₄, hpeek, h⟩ := bind_eq_ok.mp h
  have h₁ := skips_expect _ hp hword
  have h₂ := ident_reading h₁.ordered hname
  have h₃ := skips_expectMark _ h₂.ordered hsign
  have h₄ := skips_peek h₃.ordered hpeek
  generalize t.register? = r? at h
  cases r? with
  | none => simp [expected, fail] at h
  | some r =>
      obtain ⟨t, m₅, hadv, h⟩ := bind_eq_ok.mp h
      obtain ⟨semicolon, m₆, hsemi, h⟩ := bind_eq_ok.mp h
      obtain rfl := modify_eq_ok.mp h
      have h₅ := skips_advance h₄.ordered hadv
      have h₆ := skips_expectMark _ h₅.ordered hsemi
      have hread := ((((h₁.trans h₂).trans h₃).trans h₄).trans h₅).trans h₆
      refine ⟨[⟨.registerAlias r, name⟩], ?_, rfl, trivial⟩
      simpa [stmtsRefs, stmtsFunctions, stmtsBinders] using
        (Reading.declare (by simpa using hread) (.registerAlias r)).sublist (List.nil_sublist _)

private theorem intrinsicStatement_plain (hargs : ReadsArguments args) :
    ReadsPlain (intrinsicStatement args) := by
  intro p s q hp h
  obtain ⟨word, m₁, hword, h⟩ := bind_eq_ok.mp h
  have h₁ := skips_advance hp hword
  generalize word.kind.intrinsic? = i? at h
  cases i? with
  | none => simp [unexpected, fail] at h
  | some i =>
      simp only [bind_eq_ok, pure_eq_ok] at h
      obtain ⟨a, m₂, ha, semicolon, m₃, hsemi, rfl, rfl⟩ := h
      have h₂ := hargs h₁.ordered ha
      refine ⟨?_, rfl, trivial⟩
      simpa [Stmt.refs, Stmt.functions, Stmt.binders] using
        (h₁.trans h₂).trans (skips_expectMark _ h₂.ordered hsemi)

private theorem callStatement_plain (hargs : ReadsArguments args) :
    ReadsPlain (callStatement args) := by
  intro p s q hp h
  obtain ⟨name, m₁, hname, h⟩ := bind_eq_ok.mp h
  obtain ⟨a, m₂, ha, h⟩ := bind_eq_ok.mp h
  obtain ⟨semicolon, m₃, hsemi, h⟩ := bind_eq_ok.mp h
  obtain ⟨rfl, rfl⟩ := pure_eq_ok.mp h
  have h₁ := ident_reading hp hname
  have h₂ := hargs h₁.ordered ha
  refine ⟨?_, rfl, trivial⟩
  simpa [Stmt.refs, Stmt.functions, Stmt.binders] using
    (h₁.trans h₂).trans (skips_expectMark _ h₂.ordered hsemi)

private theorem assignStatement_plain (hexpr : ReadsExpr expr) :
    ReadsPlain (assignStatement expr) := by
  intro p s q hp h
  obtain ⟨target, m₁, htarget, h⟩ := bind_eq_ok.mp h
  obtain ⟨sign, m₂, hpeek, h⟩ := bind_eq_ok.mp h
  have h₁ := hexpr hp htarget
  have h₂ := skips_peek h₁.ordered hpeek
  cases hk : sign.kind.isAssignment with
  | false => simp [hk, expected, fail] at h
  | true =>
      simp only [hk, if_true] at h
      obtain ⟨t, m₃, hadv, h⟩ := bind_eq_ok.mp h
      obtain ⟨value, m₄, hvalue, h⟩ := bind_eq_ok.mp h
      obtain ⟨semicolon, m₅, hsemi, h⟩ := bind_eq_ok.mp h
      have h₃ := skips_advance h₂.ordered hadv
      have h₄ := hexpr h₃.ordered hvalue
      have hread := (((h₁.trans h₂).trans h₃).trans h₄).trans (skips_expectMark _ h₄.ordered hsemi)
      generalize sign.kind.compound? = op? at h
      cases op? with
      | none =>
          obtain ⟨rfl, rfl⟩ := pure_eq_ok.mp h
          refine ⟨?_, rfl, trivial⟩
          have hnames : Reading p m₅ (target.refs ++ value.refs) [] [] := by simpa using hread
          have hsub := (target.undeclared_sublist_refs []).trans
            (List.sublist_append_left target.refs value.refs)
          simpa [Stmt.refs, Stmt.functions, Stmt.binders] using hnames.binding hsub
      | some op =>
          obtain ⟨rfl, rfl⟩ := pure_eq_ok.mp h
          refine ⟨?_, rfl, trivial⟩
          simpa [Stmt.refs, Stmt.functions, Stmt.binders] using hread

/-! ### Statements and programs

`statementOf` chooses by the next token.  A name may start a call or an assignment: it is
taken, the token behind it is looked at, and the name is put back, which moves the front of
the stream back to where it was.
-/

private theorem statementOf_gathers (hexpr : ReadsExpr expr) (hargs : ReadsArguments args)
    (hblock : ReadsBlock block) (n : Nat) : ReadsStatement (statementOf expr args block n) := by
  intro p s q hp h
  obtain ⟨t, m, hpeek, h⟩ := bind_eq_ok.mp h
  obtain ⟨hm, hnext⟩ := peek_reading hp hpeek
  have hskip := Gathers.skip hm
  have hplain : ∀ {x : Parsing Stmt}, ReadsPlain x → (some <$> x) m = .ok s q →
      ∃ own, Gathers p q s.toList own := by
    intro x hx h
    obtain ⟨s, hs, rfl⟩ := map_eq_ok.mp h
    exact ⟨_, hskip.trans (hx hm.ordered hs).gathers⟩
  generalize hk : t.kind = kind at h
  split at h
  · exact hplain (ifStatement_plain hexpr hblock n) h
  · exact hplain (whileStatement_plain hexpr hblock) h
  · obtain ⟨s, hs, rfl⟩ := map_eq_ok.mp h
    obtain ⟨own, hg⟩ := funcStatement_gathers hblock hm.ordered hs
    exact ⟨_, hskip.trans hg⟩
  · exact hplain (returnStatement_plain hexpr) h
  · obtain ⟨own, hg⟩ := varStatement_gathers hexpr hm.ordered h
    exact ⟨_, hskip.trans hg⟩
  · obtain ⟨_, m', halias, h⟩ := bind_eq_ok.mp h
    obtain ⟨rfl, rfl⟩ := pure_eq_ok.mp h
    obtain ⟨own, hg⟩ := aliasStatement_gathers hm.ordered halias
    exact ⟨_, hskip.trans hg⟩
  · exact hplain (intrinsicStatement_plain hargs) h
  · -- The name goes back in front of the token behind it.
    obtain ⟨name, m₁, hadv, h⟩ := bind_eq_ok.mp h
    obtain ⟨isCall, m₂, hcheck, h⟩ := bind_eq_ok.mp h
    obtain ⟨_, m₃, hback, h⟩ := bind_eq_ok.mp h
    obtain ⟨h₁, hle, hprec⟩ := advance_reading hm.ordered hadv
    have h₂ := skips_check _ h₁.ordered hcheck
    obtain ⟨l, hpush, rfl⟩ := onLexer_eq_ok.mp hback
    obtain ⟨hl, hfront⟩ := Lexer.pushBack_ordered h₂.ordered (hprec.trans h₂.le) hpush
    have h₃ : Reading m { m₂ with lexer := l } [] [] [] := by
      refine ⟨hl, ?_, ?_, .nil, .nil⟩
      · show m.front ≤ l.front
        rw [hfront]
        exact hle
      · simpa [h₁.declared] using h₂.declared
    have hback : ∀ {x : Parsing Stmt}, ReadsPlain x →
        (some <$> x) { m₂ with lexer := l } = .ok s q → ∃ own, Gathers p q s.toList own := by
      intro x hx h
      obtain ⟨s, hs, rfl⟩ := map_eq_ok.mp h
      exact ⟨_, (hskip.trans (.skip h₃)).trans (hx h₃.ordered hs).gathers⟩
    cases isCall with
    | true => exact hback (callStatement_plain hargs) h
    | false => exact hback (assignStatement_plain hexpr) h
  · simp [unexpectedToken, fail] at h
  · exact hplain (assignStatement_plain hexpr) h

end Parts

private theorem statementAt_gathers : ∀ n, ReadsStatement (statementAt n) := by
  intro n
  induction n with
  | zero =>
      intro p s q _ h
      simp [statementAt, outOfFuel, fail] at h
  | succ n ih =>
      exact statementOf_gathers (exprAt_reads _ _) (argumentList_reads (exprAt_reads _ _) _)
        (blockOf_reads ih n) _

private theorem statementsToEnd_gathers {statement : Parsing (Option Stmt)}
    (hstmt : ReadsStatement statement) :
    ∀ (n : Nat) (done : List Stmt) ⦃p stmts q⦄, p.lexer.Ordered →
      statementsToEnd statement done n p = .ok stmts q →
      ∃ new own, stmts = done.reverse ++ new ∧ Gathers p q new own := by
  intro n
  induction n with
  | zero =>
      intro done p stmts q _ h
      simp [statementsToEnd, outOfFuel, fail] at h
  | succ n ih =>
      intro done p stmts q hp h
      rw [statementsToEnd] at h
      obtain ⟨ended, m, heof, h⟩ := bind_eq_ok.mp h
      have hm := skips_check _ hp heof
      cases ended with
      | true =>
          obtain ⟨rfl, rfl⟩ := pure_eq_ok.mp h
          exact ⟨[], [], by simp, .skip hm⟩
      | false =>
          simp only [Bool.false_eq_true, if_false] at h
          obtain ⟨stray, m₁, hcheck, h⟩ := bind_eq_ok.mp h
          have h₁ := skips_check _ hm.ordered hcheck
          cases stray with
          | true => simp [unexpectedToken, fail] at h
          | false =>
              simp only [Bool.false_eq_true, if_false] at h
              obtain ⟨s, m₂, hs, h⟩ := bind_eq_ok.mp h
              obtain ⟨own, h₂⟩ := hstmt h₁.ordered hs
              refine ((Gathers.skip (hm.trans h₁)).trans h₂).onto ?_
              exact ih (s.toList ++ done) h₂.reading.ordered (by cases s <;> exact h)

/-- The block of a program is read like any other, up to the end of the text. -/
theorem program_reading {p q : Parser} {program : Program} (hp : p.lexer.Ordered)
    (h : Parser.program p = .ok program q) :
    ∃ lo hi, Within lo hi (program.block.refs ++ funcNames program.block.functions) ∧
      Within lo hi program.block.binders ∧ program.block.FuncsDeclared := by
  obtain ⟨first, m₁, hpeek, h⟩ := bind_eq_ok.mp h
  obtain ⟨n, m₂, hfuel, h⟩ := bind_eq_ok.mp h
  obtain ⟨⟨stmts, decls⟩, m₃, hbody, h⟩ := bind_eq_ok.mp h
  obtain ⟨last, m₄, hlast, h⟩ := bind_eq_ok.mp h
  obtain ⟨rfl, rfl⟩ := pure_eq_ok.mp h
  simp only [fuel, bind_eq_ok, get_eq_ok, pure_eq_ok] at hfuel
  obtain ⟨_, _, ⟨rfl, rfl⟩, rfl, rfl⟩ := hfuel
  have h₁ := skips_peek hp hpeek
  have hstmts : ∀ ⦃p stmts q⦄, p.lexer.Ordered →
      statementsToEnd (statementAt (m₁.lexer.bound + 1)) [] (m₁.lexer.bound + 1) p = .ok stmts q →
      ∃ own, Gathers p q stmts own := by
    intro p stmts q hp h
    obtain ⟨new, own, rfl, hg⟩ := statementsToEnd_gathers (statementAt_gathers _) _ [] hp h
    exact ⟨own, by simpa using hg⟩
  obtain ⟨h₂, hfuncs⟩ := inBlock_reading (first.span.merge last.span) hstmts h₁.ordered hbody
  exact ⟨_, _, h₂.names, h₂.binders, hfuncs⟩

end Parser

/-- **The names of a parsed program can be told apart by their spans.** -/
theorem Program.wellNamed_of_parse {source : String} {tabWidth : Nat} {p : Program}
    (h : Program.parse source tabWidth = .ok p) : p.WellNamed := by
  simp only [Program.parse] at h
  split at h
  · rename_i program q hread
    simp only [Except.ok.injEq] at h
    subst h
    obtain ⟨lo, hi, hrefs, hbinders, hfuncs⟩ :=
      Parser.program_reading (p := .ofSource source tabWidth) (Lexer.ordered_ofText _ _) hread
    have hdecls := (hbinders.sublist program.block.declared_sublist_binders).nodup_span
    rw [List.map_map] at hdecls
    exact ⟨hrefs.nodup_span, hdecls, hbinders.nodup_span, hfuncs⟩
  · simp at h

end StackCode
