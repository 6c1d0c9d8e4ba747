/-
Names are told apart by where they stand.

Tokens stand in the order of the text, each behind the one before it, so the place of a
token is its own (`Cursor.nodup_span_tokens`).  Every name in a tree is the name of a token,
and two names that stand at one place are the name of one token.  There are two ways to
write one name for two things: the name of a variable with an initial value is declared and
assigned to, and the name of a function is declared and defined.  `Twins` has these two.

References and declarations are recorded by spans.  For the name of a variable with an
initial value the two records agree: what is assigned to is what is declared
(`resolve?_eq_declaration?`).
-/
import Mathlib.Data.List.Pairwise
import StackCode.Proofs.Recognition.Program
import StackCode.Proofs.Resolution

namespace StackCode

/-! ### Tokens in order

A stream can be read on behind a failure, and the tokens that come then are behind it too.
So the order holds of all tokens that `nexts` takes, for any number of steps, and not only
up to the first error.
-/

/-- A failure to read a token leaves the cursor at its place or behind it. -/
theorem Cursor.le_of_scan_error {c c' : Cursor} {e : LexError} (hw : 0 < c.tabWidth)
    (h : c.scan = (.error e, c')) : c.place.key ≤ c'.place.key ∧ c'.tabWidth = c.tabWidth := by
  have hskip := skipTrivia_le hw
  simp only [scan, scanHere] at h
  split at h
  · simp at h
  · simp at h
  · obtain ⟨-, rfl⟩ := Prod.mk.inj h
    exact ⟨hskip.trans (Place.key_le_after hw _ _), rfl⟩
  · obtain ⟨-, rfl⟩ := Prod.mk.inj h
    exact ⟨hskip.trans (Place.key_le_after hw _ _), rfl⟩

namespace Lexer

private theorem ordered_of_next_error {l l' : Lexer} {e : LexError} (hl : l.Ordered)
    (h : next l = .error e l') : l'.Ordered ∧ l.front ≤ l'.front := by
  obtain ⟨ahead, cursor⟩ := l
  cases ahead with
  | nil =>
      simp only [next, scan] at h
      split at h
      · simp at h
      · rename_i hscan
        obtain ⟨-, rfl⟩ := EStateM.Result.error.inj h
        obtain ⟨hle, htab⟩ := Cursor.le_of_scan_error hl.tabs hscan
        exact ⟨⟨by rw [htab]; exact hl.tabs, trivial⟩, hle⟩
  | cons t rest => simp [next] at h

/-- The tokens that are taken in `n` steps.  A step that fails gives none. -/
def nexts : Nat → Lexer → List Token
  | 0, _ => []
  | n + 1, l =>
    match next l with
    | .ok t l' => t :: nexts n l'
    | .error _ l' => nexts n l'

private theorem front_le_of_mem_nexts (n : Nat) :
    ∀ {l : Lexer}, l.Ordered → ∀ t ∈ nexts n l, l.front ≤ t.span.key := by
  induction n with
  | zero =>
      intro l _ t ht
      simp [nexts] at ht
  | succ n ih =>
      intro l hl t ht
      rw [nexts] at ht
      split at ht
      · rename_i u l' hnext
        obtain ⟨hl', hle, hprec⟩ := next_ordered hl hnext
        rcases List.mem_cons.mp ht with rfl | ht
        · exact hle
        · exact (hle.trans hprec.1).trans (ih hl' t ht)
      · rename_i e l' hnext
        obtain ⟨hl', hle⟩ := ordered_of_next_error hl hnext
        exact hle.trans (ih hl' t ht)

/-- Each token that is taken starts behind those taken before it, also behind a failure. -/
theorem nexts_pairwise (n : Nat) : ∀ {l : Lexer}, l.Ordered →
    ((nexts n l).filter (·.kind ≠ .eof)).Pairwise fun t u => t.span.key < u.span.key := by
  induction n with
  | zero =>
      intro l _
      exact .nil
  | succ n ih =>
      intro l hl
      rw [nexts]
      split
      · rename_i t l' hnext
        obtain ⟨hl', -, hprec⟩ := next_ordered hl hnext
        by_cases ht : t.kind = .eof
        · rw [List.filter_cons_of_neg (by simpa using ht)]
          exact ih hl'
        · rw [List.filter_cons_of_pos (by simpa using ht)]
          refine .cons ?_ (ih hl')
          intro u hu
          exact (hprec.2 ht).trans_le
            (front_le_of_mem_nexts n hl' u (List.mem_of_mem_filter hu))
      · rename_i e l' hnext
        exact ih (ordered_of_next_error hl hnext).1

end Lexer

/-- The tokens of a text stand at different places. -/
theorem Cursor.nodup_span_tokens (text : List Char) (tabWidth : Nat) :
    (((ofText text tabWidth).tokens).map (·.span)).Nodup := by
  have hwidth : 0 < (ofText text tabWidth).tabWidth :=
    Nat.lt_of_lt_of_le Nat.zero_lt_one (Nat.le_max_right _ _)
  rw [List.Nodup, List.pairwise_map]
  refine (tokens_pairwise _ hwidth).imp ?_
  intro t u hlt hspan
  rw [hspan] at hlt
  exact lt_irrefl _ hlt

/-! ### Mentions

A `Mention` is a name with what it is written for.  The target of a plain assignment is told
apart from other uses and has with it what its block declares, since only there a name can
be declared and assigned to by one token.
-/

/-- What a name is written for. -/
inductive Use where
  | declares (kind : DeclKind)
  /-- To name a function where it is defined. -/
  | defines
  /-- To be written to by `=`, directly in a block that declares `own`. -/
  | assigns (own : List Decl)
  | refers
deriving DecidableEq, Repr

/-- A name with what it is written for. -/
structure Mention where
  use : Use
  id : Ident
deriving DecidableEq, Repr

def Decl.mention (d : Decl) : Mention := ⟨.declares d.kind, d.name⟩

def Expr.mentions (e : Expr) : List Mention := e.refs.map fun id => ⟨.refers, id⟩

/-- The names in what a plain assignment writes to. -/
def Expr.targetMentions (own : List Decl) : Expr → List Mention
  | ident id => [⟨.assigns own, id⟩]
  | e => e.mentions

def exprsMentions (args : List Expr) : List Mention := args.flatMap Expr.mentions

mutual

/-- The names in a statement of a block that declares `own`. -/
def Stmt.mentions (own : List Decl) : Stmt → List Mention
  | .assign target value _ => target.targetMentions own ++ value.mentions
  | .compound _ target value _ => target.mentions ++ value.mentions
  | .ifThen cond body _ => cond.mentions ++ body.mentions
  | .ifElse cond body _ elseBody _ => cond.mentions ++ (body.mentions ++ elseBody.mentions)
  | .whileLoop cond body _ => cond.mentions ++ body.mentions
  | .func name body _ => ⟨.defines, name⟩ :: body.mentions
  | .ret none _ => []
  | .ret (some value) _ => value.mentions
  | .intrinsic _ args _ => exprsMentions args.args
  | .call name args _ => ⟨.refers, name⟩ :: exprsMentions args.args

/-- The names in a block, those that it declares first. -/
def Block.mentions : Block → List Mention
  | ⟨decls, body, _⟩ => decls.map Decl.mention ++ stmtsMentions decls body

def stmtsMentions (own : List Decl) : List Stmt → List Mention
  | [] => []
  | s :: rest => s.mentions own ++ stmtsMentions own rest

end

/-- The names in a program, as often as they are written in its tree. -/
def Program.mentions (p : Program) : List Mention := p.block.mentions

private theorem stmtsMentions_append (own : List Decl) (a b : List Stmt) :
    stmtsMentions own (a ++ b) = stmtsMentions own a ++ stmtsMentions own b := by
  induction a with
  | nil => rfl
  | cons s rest ih => rw [List.cons_append, stmtsMentions, stmtsMentions, ih, List.append_assoc]

private theorem Expr.not_assigns_mem_mentions {own : List Decl} {id : Ident} (e : Expr) :
    ⟨.assigns own, id⟩ ∉ e.mentions := by
  simp [Expr.mentions]

/-! ### No name is left out

`Program.idents` collects names onto a list, in reverse and by several functions.  The
mentions are the same names in the same order, so what is said of mentions is said of all
names that the analysis will meet.
-/

private theorem Expr.identsOnto_eq (e : Expr) :
    ∀ done : List Ident, e.identsOnto done = (e.mentions.map (·.id)).reverse ++ done := by
  induction e with
  | binary op l r span ihl ihr =>
      intro done
      rw [Expr.identsOnto, ihl, ihr]
      simp [Expr.mentions, Expr.refs]
  | unary op e span ih =>
      intro done
      rw [Expr.identsOnto, ih]
      rfl
  | ident id => intro done; rfl
  | integer | boolean | register => intro done; rfl

private theorem Expr.targetMentions_ids (own : List Decl) (e : Expr) :
    (e.targetMentions own).map (·.id) = e.mentions.map (·.id) := by
  cases e <;> rfl

private theorem foldl_identsOnto_eq (args : List Expr) : ∀ done : List Ident,
    args.foldl Expr.identsOnto done = ((exprsMentions args).map (·.id)).reverse ++ done := by
  induction args with
  | nil => intro done; rfl
  | cons e rest ih =>
      intro done
      rw [List.foldl_cons, ih, Expr.identsOnto_eq]
      simp [exprsMentions]

private theorem foldl_decls_eq (decls : List Decl) : ∀ done : List Ident,
    decls.foldl (fun ids d => d.name :: ids) done =
      ((decls.map Decl.mention).map (·.id)).reverse ++ done := by
  induction decls with
  | nil => intro done; rfl
  | cons d rest ih =>
      intro done
      rw [List.foldl_cons, ih]
      simp [Decl.mention]

mutual

theorem Stmt.identsOnto_eq (own : List Decl) (done : List Ident) :
    ∀ s : Stmt, s.identsOnto done = ((s.mentions own).map (·.id)).reverse ++ done
  | .assign target value _ => by
      rw [Stmt.identsOnto, Stmt.mentions, Expr.identsOnto_eq, Expr.identsOnto_eq,
        ← target.targetMentions_ids own]
      simp
  | .compound _ target value _ => by
      rw [Stmt.identsOnto, Stmt.mentions, Expr.identsOnto_eq, Expr.identsOnto_eq]
      simp
  | .ifThen cond body _ => by
      rw [Stmt.identsOnto, Stmt.mentions, Block.identsOnto_eq, Expr.identsOnto_eq]
      simp
  | .ifElse cond body _ elseBody _ => by
      rw [Stmt.identsOnto, Stmt.mentions, Block.identsOnto_eq, Block.identsOnto_eq,
        Expr.identsOnto_eq]
      simp
  | .whileLoop cond body _ => by
      rw [Stmt.identsOnto, Stmt.mentions, Block.identsOnto_eq, Expr.identsOnto_eq]
      simp
  | .func name body _ => by
      rw [Stmt.identsOnto, Stmt.mentions, Block.identsOnto_eq]
      simp
  | .ret none _ => by
      rw [Stmt.identsOnto, Stmt.mentions]
      rfl
  | .ret (some value) _ => by
      rw [Stmt.identsOnto, Stmt.mentions, Expr.identsOnto_eq]
  | .intrinsic _ args _ => by
      rw [Stmt.identsOnto, Stmt.mentions, Arguments.identsOnto, foldl_identsOnto_eq]
  | .call name args _ => by
      rw [Stmt.identsOnto, Stmt.mentions, Arguments.identsOnto, foldl_identsOnto_eq]
      simp

theorem Block.identsOnto_eq (done : List Ident) :
    ∀ b : Block, b.identsOnto done = (b.mentions.map (·.id)).reverse ++ done
  | ⟨decls, body, _⟩ => by
      rw [Block.identsOnto, Block.mentions, stmtsIdentsOnto_eq decls, foldl_decls_eq]
      simp

theorem stmtsIdentsOnto_eq (own : List Decl) (done : List Ident) :
    ∀ body : List Stmt,
      stmtsIdentsOnto done body = ((stmtsMentions own body).map (·.id)).reverse ++ done
  | [] => by
      rw [stmtsIdentsOnto, stmtsMentions]
      rfl
  | s :: rest => by
      rw [stmtsIdentsOnto, stmtsMentions, stmtsIdentsOnto_eq own, Stmt.identsOnto_eq own]
      simp

end

/-- The mentions are the names of the program, in their order. -/
theorem Program.mentions_ids (p : Program) : p.mentions.map (·.id) = p.idents := by
  simp [Program.idents, Program.mentions, Block.identsOnto_eq]

/-! ### Mentions of one token

`Named ts ms` is built up like the tree is: names among some tokens and names among those
behind them are apart, because no token is in both (`Named.append`).  The condition that
tokens have different places is only needed there, so it is an assumption inside `apart`.
-/

/-- Two mentions of one token. -/
inductive Twins (ts : List Token) : Mention → Mention → Prop where
  /-- The name in `var x = e;`, which is declared and assigned to in one block. -/
  | var {word name sign : Token} {own : List Decl} (h : [word, name, sign] <:+: ts)
      (hword : word.kind = .keyword .varWord) (hsign : sign.kind = .mark .equal)
      (hown : ⟨.var, name.ident⟩ ∈ own) :
      Twins ts ⟨.declares .var, name.ident⟩ ⟨.assigns own, name.ident⟩
  /-- The name in `func f { .. }`, which is declared and defined. -/
  | func {word name : Token} (h : [word, name] <:+: ts) (hword : word.kind = .keyword .funcWord) :
      Twins ts ⟨.declares .func, name.ident⟩ ⟨.defines, name.ident⟩

theorem Twins.within {ts ts' : List Token} {a b : Mention} (h : Twins ts a b)
    (hts : ts <:+: ts') : Twins ts' a b := by
  cases h with
  | var h hword hsign hown => exact .var (h.trans hts) hword hsign hown
  | func h hword => exact .func (h.trans hts) hword

/-- If the two stand at one place, they are mentions of one token. -/
def Mention.Apart (ts : List Token) (a b : Mention) : Prop :=
  a.id.span = b.id.span → Twins ts a b ∨ Twins ts b a

theorem Mention.Apart.symm {ts : List Token} {a b : Mention} (h : a.Apart ts b) :
    b.Apart ts a := by
  intro hspan
  exact (h hspan.symm).symm

instance (ts : List Token) : Std.Symm (Mention.Apart ts) := ⟨fun _ _ h => h.symm⟩

/-- The mentions are those of names among the tokens. -/
structure Named (ts : List Token) (ms : List Mention) : Prop where
  written : ∀ m ∈ ms, ∃ t ∈ ts, t.kind = .identifier ∧ m.id = t.ident
  /-- If the tokens stand at different places, only mentions of one token do not. -/
  apart : (ts.map (·.span)).Nodup → ms.Pairwise (Mention.Apart ts)

namespace Named

variable {ts ls rs : List Token} {ms as bs : List Mention}

theorem nil : Named ts [] := ⟨by simp, fun _ => .nil⟩

theorem single {t : Token} (hk : t.kind = .identifier) (use : Use) :
    Named [t] [⟨use, t.ident⟩] := by
  refine ⟨?_, fun _ => List.pairwise_singleton _ _⟩
  intro m hm
  rw [List.mem_singleton.mp hm]
  exact ⟨t, List.mem_singleton_self t, hk, rfl⟩

/-- Two mentions of one token. -/
theorem twins {a b : Mention} {name : Token} (hmem : name ∈ ts) (hk : name.kind = .identifier)
    (ha : a.id = name.ident) (hb : b.id = name.ident) (h : Twins ts a b) : Named ts [a, b] := by
  refine ⟨?_, fun _ => List.pairwise_pair.mpr fun _ => .inl h⟩
  simp only [List.forall_mem_cons]
  exact ⟨⟨name, hmem, hk, ha⟩, ⟨name, hmem, hk, hb⟩, by simp⟩

theorem within (h : Named ls ms) (hls : ls <:+: ts) : Named ts ms := by
  refine ⟨?_, ?_⟩
  · intro m hm
    obtain ⟨t, ht, hk, hid⟩ := h.written m hm
    exact ⟨t, hls.subset ht, hk, hid⟩
  · intro hnodup
    refine (h.apart (hnodup.sublist (hls.sublist.map _))).imp ?_
    intro a b hab hspan
    exact (hab hspan).imp (·.within hls) (·.within hls)

theorem cons (h : Named ts ms) (t : Token) : Named (t :: ts) ms :=
  h.within (List.suffix_cons t ts).isInfix

theorem between (h : Named ts ms) (t u : Token) : Named (t :: (ts ++ [u])) ms :=
  h.within ⟨[t], [u], rfl⟩

/-- Names among tokens and names among those behind them have no token in common. -/
theorem append (h : Named ls as) (h' : Named rs bs) : Named (ls ++ rs) (as ++ bs) := by
  have hl := h.within (List.prefix_append ls rs).isInfix
  have hr := h'.within (List.suffix_append ls rs).isInfix
  refine ⟨List.forall_mem_append.mpr ⟨hl.written, hr.written⟩, ?_⟩
  intro hnodup
  refine List.pairwise_append.mpr ⟨hl.apart hnodup, hr.apart hnodup, ?_⟩
  intro a ha b hb hspan
  obtain ⟨t, ht, -, hta⟩ := h.written a ha
  obtain ⟨u, hu, -, hub⟩ := h'.written b hb
  rw [List.map_append, List.nodup_append] at hnodup
  have hne := hnodup.2.2 _ (List.mem_map_of_mem ht) _ (List.mem_map_of_mem hu)
  rw [hta, hub] at hspan
  exact absurd hspan hne

theorem perm (h : Named ts as) (hp : as.Perm bs) : Named ts bs := by
  refine ⟨fun m hm => h.written m (hp.mem_iff.mpr hm), ?_⟩
  intro hnodup
  exact (hp.pairwise_iff Mention.Apart.symm).mp (h.apart hnodup)

/-- The names of a statement that declares nothing. -/
theorem plain {st : Stmt} {decls : List Decl} (h : Named ts (st.mentions decls)) :
    Named ts (([] : List Decl).map Decl.mention ++ stmtsMentions decls (some st).toList) := by
  simpa [stmtsMentions] using h

end Named

/-! ### The names in a form

By the rules of the grammar.  A rule that makes two mentions of one token is one of the two
in `Twins`, and all other rules put pieces side by side.
-/

theorem ExprForm.named {m : Nat} {ts : List Token} {e : Expr} (h : ExprForm m ts e) :
    Named ts e.mentions := by
  induction h with
  | integer | trueWord | falseWord | register => exact .nil
  | ident hk => exact .single hk .refers
  | parens _ _ _ ih => exact ih.between _ _
  | unary _ _ ih => exact ih.cons _
  | binary _ _ _ _ ihl ihr =>
      rw [Expr.mentions, Expr.refs, List.map_append]
      exact ihl.append (ihr.cons _)

private theorem ExprForm.named_target {m : Nat} {ts : List Token} {e : Expr} (h : ExprForm m ts e)
    (own : List Decl) : Named ts (e.targetMentions own) := by
  have hnamed := h.named
  cases e with
  | ident id =>
      refine ⟨?_, fun _ => List.pairwise_singleton _ _⟩
      intro m hm
      rw [List.mem_singleton.mp hm]
      exact hnamed.written ⟨.refers, id⟩ (List.mem_singleton_self _)
  | _ => exact hnamed

theorem ArgsForm.named {ts : List Token} {es : List Expr} (h : ArgsForm ts es) :
    Named ts (exprsMentions es) := by
  induction h with
  | last he =>
      rw [exprsMentions, List.flatMap_singleton]
      exact he.named
  | more he _ _ ih =>
      rw [exprsMentions, List.flatMap_cons]
      exact he.named.append (ih.cons _)

theorem ArgumentsForm.named {ts : List Token} {a : Arguments} (h : ArgumentsForm ts a) :
    Named ts (exprsMentions a.args) := by
  cases h with
  | none _ _ => exact .nil
  | some _ hes _ => exact hes.named.between _ _

mutual

theorem IfForm.named {ts : List Token} {s : Stmt} (own : List Decl) :
    IfForm ts s → Named ts (s.mentions own)
  | .ifThen _ hcond hbody => by
      rw [Stmt.mentions]
      exact (hcond.named.append hbody.named).cons _
  | .ifElse _ hcond hbody _ helse => by
      rw [Stmt.mentions]
      exact (hcond.named.append (hbody.named.append (helse.named.cons _))).cons _
  | .elseIf _ hcond hbody _ hchained => by
      rw [Stmt.mentions, Block.mentions, stmtsMentions, stmtsMentions, List.append_nil]
      exact (hcond.named.append (hbody.named.append ((hchained.named []).cons _))).cons _

/-- A statement has the names of its tokens, with those that it declares for its block. -/
theorem StmtForm.named {ts : List Token} {s : Option Stmt} {own decls : List Decl}
    (hown : own ⊆ decls) :
    StmtForm ts s own → Named ts (own.map Decl.mention ++ stmtsMentions decls s.toList)
  | .conditional h => .plain (h.named decls)
  | .whileLoop _ hcond hbody => by
      refine .plain ?_
      rw [Stmt.mentions]
      exact (hcond.named.append hbody.named).cons _
  -- A function is named twice, as a declaration of its block and as a statement in it.
  | .func hw hn hbody => by
      have hname := Named.twins (List.mem_cons_of_mem _ List.mem_cons_self) hn rfl rfl
        (Twins.func (List.infix_refl _) hw)
      rw [Option.toList_some, stmtsMentions, stmtsMentions, Stmt.mentions, List.append_nil]
      exact hname.append hbody.named
  | .ret _ _ => by
      refine .plain ?_
      rw [Stmt.mentions]
      exact .nil
  | .retValue _ hvalue _ => by
      refine .plain ?_
      rw [Stmt.mentions]
      exact hvalue.named.between _ _
  | .var _ hn _ => (Named.single hn (.declares .var)).between _ _
  -- So is a variable with a value, which is declared and assigned to.
  | .varValue hw hn hsign hvalue _ => by
      have hname := Named.twins (List.mem_cons_of_mem _ List.mem_cons_self) hn rfl rfl
        (Twins.var (List.infix_refl _) hw hsign (hown List.mem_cons_self))
      rw [Option.toList_some, stmtsMentions, stmtsMentions, Stmt.mentions, List.append_nil]
      exact hname.append (hvalue.named.within (List.prefix_append _ _).isInfix)
  | .registerAlias _ hn _ _ _ =>
      (Named.single hn (.declares (.registerAlias _))).within ⟨[_], [_, _, _], rfl⟩
  | .intrinsic _ hargs _ => by
      refine .plain ?_
      rw [Stmt.mentions]
      exact hargs.named.between _ _
  | .call hn hargs _ => by
      refine .plain ?_
      rw [Stmt.mentions]
      exact (Named.single hn .refers).append
        (hargs.named.within (List.prefix_append _ _).isInfix)
  | .assign htarget _ hvalue _ => by
      refine .plain ?_
      rw [Stmt.mentions]
      exact (htarget.named_target decls).append (hvalue.named.between _ _)
  | .compound htarget _ hvalue _ => by
      refine .plain ?_
      rw [Stmt.mentions]
      exact htarget.named.append (hvalue.named.between _ _)

theorem StmtsForm.named {ts : List Token} {stmts : List Stmt} {own decls : List Decl}
    (hown : own ⊆ decls) :
    StmtsForm ts stmts own → Named ts (own.map Decl.mention ++ stmtsMentions decls stmts)
  | .nil => by
      rw [stmtsMentions]
      exact .nil
  | .cons hs hrest => by
      obtain ⟨hfirst, hothers⟩ := List.append_subset.mp hown
      rw [List.map_append, stmtsMentions_append]
      -- What the first statement declares goes before the names of all statements.
      exact ((hs.named hfirst).append (hrest.named hothers)).perm (append_shuffle _ _ _ _)

theorem BlockForm.named {ts : List Token} {b : Block} : BlockForm ts b → Named ts b.mentions
  | .braces _ h _ => by
      rw [Block.mentions]
      exact (h.named (List.Subset.refl _)).between _ _

end

/-! ### Assignments in the block of their declaration

A name that is assigned to in the block that declares it refers to that declaration,
whatever was introduced before.  For this the mention has to be found among the visits of
the analysis, at a site whose innermost block has these declarations.
-/

/-- Among the visits, a name is written to directly in a block that declares `own`. -/
def WrittenIn (own : List Decl) (id : Ident) (vs : List Visit) : Prop :=
  ∃ implicits outer, ⟨⟨own, implicits⟩ :: outer, .target, id⟩ ∈ occurrencesOf vs

theorem WrittenIn.mono {own : List Decl} {id : Ident} {vs ws : List Visit}
    (h : WrittenIn own id vs) (hvs : vs ⊆ ws) : WrittenIn own id ws := by
  obtain ⟨implicits, outer, hmem⟩ := h
  obtain ⟨v, hv, huse⟩ := List.mem_filterMap.mp hmem
  exact ⟨implicits, outer, List.mem_filterMap.mpr ⟨v, hvs hv, huse⟩⟩

/-- The block that a name is written to in is among the visits with all that it declares. -/
structure WrittenInside (own : List Decl) (id : Ident) (vs : List Visit) : Prop where
  written : WrittenIn own id vs
  decls : declVisits [] own ⊆ vs

/-- A block inside a statement is not the block that the statement stands in. -/
theorem WrittenInside.within {own : List Decl} {id : Ident} {vs ws : List Visit}
    (h : WrittenInside own id vs) (hvs : vs ⊆ ws) (decls : List Decl) :
    WrittenIn own id ws ∧ (own = decls ∨ declVisits [] own ⊆ ws) :=
  ⟨h.written.mono hvs, .inr (List.Subset.trans h.decls hvs)⟩

private theorem Expr.writtenIn_of_target {own : List Decl} {id : Ident} (b : Enclosing)
    (outer : Site) {target : Expr} (h : ⟨.assigns own, id⟩ ∈ target.targetMentions b.decls) :
    WrittenIn own id (target.names (b :: outer) .target) ∧ own = b.decls := by
  cases target with
  | ident id' =>
      obtain ⟨hown, rfl⟩ : own = b.decls ∧ id = id' := by simpa [Expr.targetMentions] using h
      rw [hown]
      exact ⟨⟨b.implicits, outer, List.mem_singleton_self _⟩, rfl⟩
  | _ => exact absurd h (Expr.not_assigns_mem_mentions _)

mutual

theorem Stmt.writtenIn_of_assigns {own : List Decl} {id : Ident} (b : Enclosing) (outer : Site) :
    ∀ {s : Stmt}, ⟨.assigns own, id⟩ ∈ s.mentions b.decls →
      WrittenIn own id (s.visits (b :: outer)) ∧
        (own = b.decls ∨ declVisits [] own ⊆ s.visits (b :: outer))
  | .assign target value _, h => by
      rw [Stmt.mentions, List.mem_append] at h
      rw [Stmt.visits]
      rcases h with h | h
      · obtain ⟨hwritten, hown⟩ := Expr.writtenIn_of_target b outer h
        exact ⟨hwritten.mono (List.subset_append_right _ _), .inl hown⟩
      · exact absurd h value.not_assigns_mem_mentions
  | .compound _ target value _, h => by
      rw [Stmt.mentions, List.mem_append] at h
      rcases h with h | h
      · exact absurd h target.not_assigns_mem_mentions
      · exact absurd h value.not_assigns_mem_mentions
  | .ifThen cond body _, h => by
      rw [Stmt.mentions, List.mem_append] at h
      rw [Stmt.visits]
      rcases h with h | h
      · exact absurd h cond.not_assigns_mem_mentions
      · exact (Block.writtenInside_of_assigns _ h).within (List.subset_append_right _ _) _
  | .ifElse cond body _ elseBody _, h => by
      rw [Stmt.mentions, List.mem_append, List.mem_append] at h
      rw [Stmt.visits]
      rcases h with h | h | h
      · exact absurd h cond.not_assigns_mem_mentions
      · exact (Block.writtenInside_of_assigns _ h).within
          (List.subset_append_of_subset_right _ (List.subset_append_left _ _)) _
      · exact (Block.writtenInside_of_assigns _ h).within
          (List.subset_append_of_subset_right _ (List.subset_append_right _ _)) _
  | .whileLoop cond body _, h => by
      rw [Stmt.mentions, List.mem_append] at h
      rw [Stmt.visits]
      rcases h with h | h
      · exact absurd h cond.not_assigns_mem_mentions
      · exact (Block.writtenInside_of_assigns _ h).within (List.subset_append_right _ _) _
  | .func name body _, h => by
      rw [Stmt.mentions, List.mem_cons] at h
      rw [Stmt.visits]
      rcases h with h | h
      · simp at h
      · exact (Block.writtenInside_of_assigns _ h).within (List.Subset.refl _) _
  | .ret none _, h => by
      rw [Stmt.mentions] at h
      simp at h
  | .ret (some value) _, h => by
      rw [Stmt.mentions] at h
      exact absurd h value.not_assigns_mem_mentions
  | .intrinsic _ args _, h => by
      rw [Stmt.mentions] at h
      obtain ⟨e, -, he⟩ := List.mem_flatMap.mp h
      exact absurd he e.not_assigns_mem_mentions
  | .call name args _, h => by
      rw [Stmt.mentions, List.mem_cons] at h
      rcases h with h | h
      · simp at h
      · obtain ⟨e, -, he⟩ := List.mem_flatMap.mp h
        exact absurd he e.not_assigns_mem_mentions

/-- What a plain assignment writes to is met in the block whose declarations are given. -/
theorem Block.writtenInside_of_assigns {own : List Decl} {id : Ident} (outer : Site) :
    ∀ {b : Block}, ⟨.assigns own, id⟩ ∈ b.mentions → WrittenInside own id (b.visits outer)
  | ⟨decls, body, _⟩, h => by
      rw [Block.mentions, List.mem_append] at h
      rw [Block.visits]
      rcases h with h | h
      · obtain ⟨d, -, hd⟩ := List.mem_map.mp h
        simp [Decl.mention] at hd
      · obtain ⟨hwritten, hdecls⟩ := stmts_writtenIn_of_assigns ⟨decls, []⟩ outer h
        refine ⟨hwritten.mono (List.subset_append_right _ _), ?_⟩
        rcases hdecls with rfl | hdecls
        · exact List.subset_append_left _ _
        · exact List.Subset.trans hdecls (List.subset_append_right _ _)

theorem stmts_writtenIn_of_assigns {own : List Decl} {id : Ident} (b : Enclosing) (outer : Site) :
    ∀ {body : List Stmt}, ⟨.assigns own, id⟩ ∈ stmtsMentions b.decls body →
      WrittenIn own id (stmtsVisits (b :: outer) body) ∧
        (own = b.decls ∨ declVisits [] own ⊆ stmtsVisits (b :: outer) body)
  | [], h => by
      rw [stmtsMentions] at h
      simp at h
  | s :: rest, h => by
      rw [stmtsMentions, List.mem_append] at h
      rw [stmtsVisits]
      rcases h with h | h
      · obtain ⟨hwritten, hdecls⟩ := Stmt.writtenIn_of_assigns b outer h
        have hsub := List.subset_append_left (s.visits (b :: outer))
          (stmtsVisits (Site.after (b :: outer) s) rest)
        exact ⟨hwritten.mono hsub, hdecls.imp_right (List.Subset.trans · hsub)⟩
      · obtain ⟨implicits, hafter⟩ := Site.after_cons b outer s
        rw [hafter]
        obtain ⟨hwritten, hdecls⟩ := stmts_writtenIn_of_assigns ⟨b.decls, implicits⟩ outer h
        have hsub := List.subset_append_right (s.visits (b :: outer))
          (stmtsVisits (⟨b.decls, implicits⟩ :: outer) rest)
        exact ⟨hwritten.mono hsub, hdecls.imp_right (List.Subset.trans · hsub)⟩

end

private theorem exists_mem_declVisits {d : Decl} {own : List Decl} (hd : d ∈ own) :
    ∀ earlier, ∃ more, .declares (earlier ++ more) d ∈ declVisits earlier own := by
  induction own with
  | nil => simp at hd
  | cons e rest ih =>
      intro earlier
      rw [declVisits]
      rcases List.mem_cons.mp hd with rfl | hd
      · exact ⟨[], by simp⟩
      · obtain ⟨more, hmem⟩ := ih hd (earlier ++ [e])
        exact ⟨e :: more, List.mem_cons_of_mem _ (by simpa using hmem)⟩

/-- In a block that declares no name twice a declaration is found by its name. -/
theorem find?_of_permitted {d : Decl} {own : List Decl} (hd : d ∈ own) :
    ∀ earlier, (∀ v ∈ declVisits earlier own, v.Permitted) →
      own.find? (·.name.name == d.name.name) = some d := by
  induction own with
  | nil => simp at hd
  | cons e rest ih =>
      intro earlier hall
      rw [declVisits, List.forall_mem_cons] at hall
      rcases List.mem_cons.mp hd with rfl | hd
      · exact List.find?_cons_of_pos (beq_self_eq_true _)
      · obtain ⟨more, hmem⟩ := exists_mem_declVisits hd (earlier ++ [e])
        have hne : e.name.name ≠ d.name.name := hall.2 _ hmem e (by simp)
        rw [List.find?_cons_of_neg (by simpa using hne)]
        exact ih hd _ hall.2

/-- What is assigned to is what its block declares, and both are recorded with one number. -/
theorem Program.resolve?_eq_declaration? {p : Program} {r : Resolutions} {own : List Decl}
    {id : Ident} (hnamed : p.WellNamed) (h : p.analyze = .ok r)
    (hassigns : ⟨.assigns own, id⟩ ∈ p.mentions) (hown : ⟨.var, id⟩ ∈ own) :
    ∃ n, r.resolve? id = some n ∧ r.declaration? id = some n := by
  obtain ⟨hrecords, hscoped, -⟩ := records_of_analyze hnamed h
  obtain ⟨⟨implicits, outer, hmem⟩, hdecls⟩ := Block.writtenInside_of_assigns [] hassigns
  have hfind := find?_of_permitted hown [] fun v hv => hscoped.names v (hdecls hv)
  obtain ⟨d, n, hd, hn, href⟩ := hrecords.resolved _ hmem
  have hvisible : Site.visible? (⟨own, implicits⟩ :: outer) id.name =
      some (Decl.binder ⟨.var, id⟩) := by
    rw [Site.visible?_cons, Enclosing.binder?, hfind]
    rfl
  have hbinder : Decl.binder ⟨.var, id⟩ = d := by
    rw [Occurrence.binder?, Occurrence.introduces, hvisible] at hd
    simpa using hd
  subst hbinder
  exact ⟨n, href, hn.declared⟩

/-! ### Programs

What is left is to put together the tokens of a text, the grammar, and the analysis.
-/

/-- The tokens of a text that is a program, with the names in its tree. -/
theorem Program.named_of_parse {source : String} {tabWidth : Nat} {p : Program}
    (h : Program.parse source tabWidth = .ok p) :
    ∃ ts l, (Lexer.ofString source tabWidth).drain = (ts, none, l) ∧
      (ts.map (·.span)).Nodup ∧ Named ts p.mentions := by
  unfold Program.parse at h
  split at h
  · rename_i read q hread
    obtain rfl := Except.ok.inj h
    obtain ⟨first, last, ts, rest, stmts, decls, htokens, -, hform, hlast, -, rfl⟩ :=
      Parser.program_sound hread
    rw [Parser.tokens_ofSource] at htokens
    obtain rfl := Cursor.tokens_eof _ htokens hlast
    obtain ⟨l, hdrain, -⟩ := Lexer.drain_eq_iff.mpr ⟨htokens, hlast⟩
    have hnodup := Cursor.nodup_span_tokens source.toList tabWidth
    rw [htokens, List.map_append] at hnodup
    exact ⟨ts, l, hdrain, hnodup.of_append_left, hform.named (List.Subset.refl _)⟩
  · simp at h

/--
The name of a function is written once and mentioned twice, and is not the name of a
variable.
-/
theorem Program.function_mentioned_twice :
    ∃ p, Program.parse "func f { }" 4 = .ok p ∧
      ¬p.mentions.Pairwise fun a b =>
        a.id.span = b.id.span → a.use = .declares .var ∨ b.use = .declares .var := by
  have hmentions : (Program.parse "func f { }" 4).toOption.map Program.mentions =
      some [⟨.declares .func, "f", ⟨1, 6, 1⟩⟩, ⟨.defines, "f", ⟨1, 6, 1⟩⟩] := by
    decide +kernel
  cases hparse : Program.parse "func f { }" 4 with
  | error e =>
      rw [hparse] at hmentions
      simp [Except.toOption] at hmentions
  | ok p =>
      rw [hparse] at hmentions
      refine ⟨p, rfl, ?_⟩
      rw [Option.some.inj hmentions]
      decide

/--
**Names are told apart by their places.**  The tokens that are taken from a text one
after another stand at increasing places.  The names in the tree of a program are
names of tokens, and of two that stand at one place one is a declaration: that of a
variable with an initial value, and the other its assignment, or that of a function,
and the other its definition.  If the program passes analysis, the assignment refers
to the variable that is declared.
-/
theorem Program.mentions_apart (source : String) (tabWidth : Nat) :
    (∀ n, (((Lexer.ofString source tabWidth).nexts n).filter (·.kind ≠ .eof)).Pairwise
      fun t u => t.span.key < u.span.key) ∧
    ∀ p, Program.parse source tabWidth = .ok p →
      p.mentions.map (·.id) = p.idents ∧
      (∃ ts l, (Lexer.ofString source tabWidth).drain = (ts, none, l) ∧
        (∀ m ∈ p.mentions, ∃ t ∈ ts, t.kind = .identifier ∧ m.id = t.ident) ∧
        p.mentions.Pairwise fun a b =>
          a.id.span = b.id.span → Twins ts a b ∨ Twins ts b a) ∧
      ∀ r own id id', p.analyze = .ok r → ⟨.declares .var, id⟩ ∈ p.mentions →
        ⟨.assigns own, id'⟩ ∈ p.mentions → id.span = id'.span →
        ∃ n, r.resolve? id' = some n ∧ r.declaration? id = some n := by
  refine ⟨fun n => Lexer.nexts_pairwise n (Lexer.ordered_ofText _ _), ?_⟩
  intro p hparse
  obtain ⟨ts, l, hdrain, hnodup, hnames⟩ := named_of_parse hparse
  refine ⟨p.mentions_ids, ⟨ts, l, hdrain, hnames.written, hnames.apart hnodup⟩, ?_⟩
  intro r own id id' hanalyze hdeclares hassigns hspan
  have happart := (hnames.apart hnodup).forall hdeclares hassigns (by simp)
  rcases happart hspan with htwins | htwins
  · cases htwins with
    | var _ _ _ hown =>
        exact resolve?_eq_declaration? (wellNamed_of_parse hparse) hanalyze hassigns hown
  · cases htwins

/-- A variable with an initial value, and a function that changes it. -/
def Program.paired : String := "var x = 1;\nfunc f { x += x; }\nf();"

/-- The two names of the sample that are written once and mentioned twice. -/
theorem Program.paired_mentions_apart :
    ∃ p r ts l, Program.parse paired 4 = .ok p ∧ p.analyze = .ok r ∧
      (Lexer.ofString paired 4).drain = (ts, none, l) ∧
      (p.idents.map (·.span.line) = [1, 2, 1, 2, 2, 2, 3]) ∧
      (p.mentions.Pairwise fun a b => a.id.span = b.id.span → Twins ts a b ∨ Twins ts b a) ∧
      ∃ n, r.resolve? ⟨"x", ⟨1, 5, 1⟩⟩ = some n ∧ r.declaration? ⟨"x", ⟨1, 5, 1⟩⟩ = some n := by
  have htest : Compiles.passes paired 4 .default (fun p _ _ =>
      p.idents.map (·.span.line) == [1, 2, 1, 2, 2, 2, 3] &&
        (p.mentions.contains ⟨.declares .var, "x", ⟨1, 5, 1⟩⟩ &&
          p.mentions.contains ⟨.assigns [⟨.var, "x", ⟨1, 5, 1⟩⟩, ⟨.func, "f", ⟨2, 6, 1⟩⟩],
            "x", ⟨1, 5, 1⟩⟩)) = true := by
    decide +kernel
  obtain ⟨p, r, sections, hcompiles, hmentions⟩ := Compiles.of_passes htest
  rw [Bool.and_eq_true, Bool.and_eq_true, beq_iff_eq, List.contains_iff_mem,
    List.contains_iff_mem] at hmentions
  obtain ⟨hlines, hdeclares, hassigns⟩ := hmentions
  obtain ⟨-, htokens⟩ := mentions_apart paired 4
  obtain ⟨-, ⟨ts, l, hdrain, -, happart⟩, hrecords⟩ := htokens p hcompiles.parsed
  exact ⟨p, r, ts, l, hcompiles.parsed, hcompiles.analyzed, hdrain, hlines, happart,
    hrecords r _ _ _ hcompiles.analyzed hdeclares hassigns rfl⟩

end StackCode
