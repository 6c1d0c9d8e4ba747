/-
Statements are read by the rules of the grammar.

A statement is told by its first token, and that is enough because the forms of a statement
start differently.  The one exception is a name, which starts a call or an assignment; in an
expression a name is never followed by a parenthesis (`ExprForm.second`), so one more token
decides.  A statement ends with a semicolon or a brace, except that an `if` may go on with
`else` (`NoElse`).

For each kind of statement there are two lemmas, `_sound` from the parser to the grammar and
`_complete` from the grammar to the parser, for any ways of reading the parts that recognise
them.
-/
import StackCode.Proofs.Recognition

namespace StackCode

open Sequencing

namespace Parser

/-- The next token is not `else`. -/
def NoElse (ts : List Token) : Prop := ∃ t rest, ts = t :: rest ∧ t.kind ≠ .keyword .elseWord

section Parts

variable {n : Nat} {expr : Parsing Expr} {args : Parsing Arguments} {block : Parsing Block}
variable {p q : Parser} {s : Stmt} {rest : List Token}

/-! ### Statements with blocks

An `if` may contain another one behind its `else`, and the parser reads it by recursion with
fuel.  The induction is on this fuel, and each nested `if` has fewer tokens.
-/

/-- The brace of a block ends the expression in front of it. -/
theorem stops_of_blockForm {ts : List Token} {b : Block} (h : BlockForm ts b) (m : Nat) :
    Stops m (ts ++ rest) := by
  obtain ⟨t, more, rfl, hk⟩ := h.head
  exact stops_of_binary? (by rw [hk]; rfl) _ _

/-- An `if` is read with all that follows an `else`. -/
theorem ifStatement_sound (hexpr : RecognisesExpr n lowest expr)
    (hblock : Recognises n block (plain BlockForm) fun _ => True) :
    ∀ (k : Nat) {p q : Parser} {s : Stmt}, ifStatement expr block k p = .ok s q →
      ∃ ts, Takes p q ts [] ∧ IfForm ts s := by
  intro k
  induction k with
  | zero =>
      intro p q s h
      simp [ifStatement, outOfFuel, fail] at h
  | succ k ih =>
      intro p q s h
      rw [ifStatement] at h
      obtain ⟨word, m₁, hword, h⟩ := bind_eq_ok.mp h
      obtain ⟨cond, m₂, hcond, h⟩ := bind_eq_ok.mp h
      obtain ⟨body, m₃, hbody, h⟩ := bind_eq_ok.mp h
      obtain ⟨word?, m₄, heat, h⟩ := bind_eq_ok.mp h
      obtain ⟨h₁, hw⟩ := expect_takes hword rfl
      obtain ⟨cs, _, h₂, hcs, rfl⟩ := hexpr.sound hcond
      obtain ⟨bs, _, h₃, hbs, rfl⟩ := hblock.sound hbody
      obtain ⟨h₄, helse, -⟩ := eat_takes heat rfl
      have hthen := h₁.trans (h₂.trans (h₃.trans h₄))
      cases word? with
      | none =>
          obtain ⟨rfl, rfl⟩ := pure_eq_ok.mp h
          refine ⟨word :: (cs ++ bs), ?_, .ifThen hw hcs hbs⟩
          simpa using hthen
      | some elseWord =>
          obtain ⟨chains, m₅, hcheck, h⟩ := bind_eq_ok.mp h
          obtain ⟨h₅, -⟩ := check_takes hcheck
          cases chains with
          | true =>
              simp only [if_true, bind_eq_ok, pure_eq_ok] at h
              obtain ⟨chained, m₆, hchained, rfl, rfl⟩ := h
              obtain ⟨es, h₆, hes⟩ := ih hchained
              refine ⟨word :: (cs ++ (bs ++ elseWord :: es)), ?_,
                .elseIf hw hcs hbs (helse elseWord rfl) hes⟩
              simpa using hthen.trans (h₅.trans h₆)
          | false =>
              simp only [Bool.false_eq_true, if_false, bind_eq_ok, pure_eq_ok] at h
              obtain ⟨elseBody, m₆, helseBody, rfl, rfl⟩ := h
              obtain ⟨es, _, h₆, hes, rfl⟩ := hblock.sound helseBody
              refine ⟨word :: (cs ++ (bs ++ elseWord :: es)), ?_,
                .ifElse hw hcs hbs (helse elseWord rfl) hes⟩
              simpa using hthen.trans (h₅.trans h₆)

/-- A condition and a block behind a keyword are read. -/
theorem headed_complete (hexpr : RecognisesExpr n lowest expr)
    (hblock : Recognises n block (plain BlockForm) fun _ => True) {word : Token}
    {cs bs : List Token} {cond : Expr} {body : Block} {k : Keyword} (hw : word.kind = .keyword k)
    (hcond : ExprForm lowest cs cond) (hbody : BlockForm bs body)
    (htokens : p.tokens = word :: (cs ++ (bs ++ rest))) (hcs : ∀ t ∈ cs, t.Fits)
    (hbs : ∀ t ∈ bs, t.Fits) (hlen : cs.length + bs.length < n) :
    ∃ m₁ m₂ m₃, expect (.keyword k) p = .ok word m₁ ∧ expr m₁ = .ok cond m₂ ∧
      block m₂ = .ok body m₃ ∧ Takes p m₃ (word :: (cs ++ bs)) [] := by
  obtain ⟨m₁, hword, h₁⟩ := expect_of_tokens htokens hw rfl
  obtain ⟨m₂, hexpr', h₂⟩ := hexpr.complete ⟨hcond, rfl⟩ (h₁.rest htokens) hcs
    (stops_of_blockForm hbody _) (by omega)
  obtain ⟨m₃, hblock', h₃⟩ := hblock.complete ⟨hbody, rfl⟩ (h₂.rest (h₁.rest htokens)) hbs
    trivial (by omega)
  exact ⟨m₁, m₂, m₃, hword, hexpr', hblock', by simpa using h₁.trans (h₂.trans h₃)⟩

/-- What stands behind an `else` is read from there. -/
theorem ifStatement_of_else (hexpr : RecognisesExpr n lowest expr)
    (hblock : Recognises n block (plain BlockForm) fun _ => True) {word elseWord t : Token}
    {cs bs more : List Token} {cond : Expr} {body : Block} (hw : word.kind = .keyword .ifWord)
    (hcond : ExprForm lowest cs cond) (hbody : BlockForm bs body)
    (he : elseWord.kind = .keyword .elseWord)
    (htokens : p.tokens = word :: (cs ++ (bs ++ elseWord :: t :: more)))
    (hcs : ∀ t ∈ cs, t.Fits) (hbs : ∀ t ∈ bs, t.Fits) (hlen : cs.length + bs.length < n) (k : Nat) :
    ∃ m, Takes p m (word :: (cs ++ (bs ++ [elseWord]))) [] ∧ m.tokens = t :: more ∧
      ifStatement expr block (k + 1) p = (if t.kind == TokenKind.keyword .ifWord then do
          let chained ← ifStatement expr block k
          return .ifElse cond body (word.span.merge body.span) ⟨[], [chained], chained.span⟩
            ((word.span.merge body.span).merge chained.span)
        else do
          let elseBody ← block
          return .ifElse cond body (word.span.merge body.span) elseBody
            ((word.span.merge body.span).merge elseBody.span) : Parsing Stmt) m := by
  obtain ⟨m₁, m₂, m₃, hword, hcond', hbody', h₁⟩ :=
    headed_complete hexpr hblock hw hcond hbody htokens hcs hbs hlen
  have htokens₁ : m₃.tokens = elseWord :: t :: more := h₁.rest (by simpa using htokens)
  obtain ⟨m₄, heat, h₂⟩ := eat_of_tokens htokens₁ he rfl
  have htokens₂ : m₄.tokens = t :: more := h₂.rest htokens₁
  obtain ⟨m, hcheck, h₃⟩ := check_of_tokens htokens₂ (.keyword .ifWord)
  refine ⟨m, by simpa using h₁.trans (h₂.trans h₃), h₃.rest htokens₂, ?_⟩
  rw [ifStatement, bind_of_ok hword, bind_of_ok hcond', bind_of_ok hbody', bind_of_ok heat]
  exact bind_of_ok hcheck

/--
An `if` is read to its end, if no `else` follows.  There are two bounds: `k` is the fuel for
the chain of `else if`, and `n` is for the expressions and blocks in it.
-/
private theorem ifStatement_complete (hexpr : RecognisesExpr n lowest expr)
    (hblock : Recognises n block (plain BlockForm) fun _ => True) (hrest : NoElse rest) :
    ∀ (k : Nat) {p : Parser} {s : Stmt} {ts : List Token}, IfForm ts s → p.tokens = ts ++ rest →
      (∀ t ∈ ts, t.Fits) → ts.length < k → ts.length < n →
      ∃ q, ifStatement expr block k p = .ok s q ∧ Takes p q ts [] := by
  intro k
  induction k with
  | zero =>
      intro p s ts _ _ _ hk
      omega
  | succ k ih =>
      intro p s ts h htokens hfits hk hn
      cases h with
      | @ifThen word cs bs cond body hw hcond hbody =>
          rw [List.cons_append, List.append_assoc] at htokens
          simp only [List.forall_mem_cons, List.forall_mem_append] at hfits
          simp only [List.length_cons, List.length_append] at hn
          obtain ⟨-, hfc, hfb⟩ := hfits
          obtain ⟨m₁, m₂, m₃, hword, hcs, hbs, h₁⟩ :=
            headed_complete hexpr hblock hw hcond hbody htokens hfc hfb (by omega)
          -- Without an `else` of its own the statement ends only because none follows it.
          obtain ⟨t, rest, rfl, ht⟩ := hrest
          have htokens₁ : m₃.tokens = t :: rest := h₁.rest (by simpa using htokens)
          obtain ⟨q, heat, h₂⟩ := eat_none_of_tokens htokens₁ ht
          refine ⟨q, ?_, by simpa using h₁.trans h₂⟩
          rw [ifStatement, bind_of_ok hword, bind_of_ok hcs, bind_of_ok hbs, bind_of_ok heat]
          rfl
      | @ifElse word elseWord cs bs es cond body elseBody hw hcond hbody he helse =>
          rw [List.cons_append, List.append_assoc, List.append_assoc, List.cons_append] at htokens
          simp only [List.forall_mem_cons, List.forall_mem_append] at hfits
          simp only [List.length_cons, List.length_append] at hn
          obtain ⟨-, hfc, hfb, -, hfe⟩ := hfits
          -- A block starts with a brace, so the parser does not look for a chained `if`.
          obtain ⟨opening, es', rfl, ho⟩ := helse.head
          obtain ⟨m, hm, htokens₁, heq⟩ :=
            ifStatement_of_else hexpr hblock hw hcond hbody he htokens hfc hfb (by omega) k
          obtain ⟨q, hes, hq⟩ := hblock.complete ⟨helse, rfl⟩ htokens₁ hfe trivial (by omega)
          refine ⟨q, ?_, by simpa using hm.trans hq⟩
          rw [heq, ho]
          exact bind_of_ok hes
      | @elseIf word elseWord cs bs es cond body chained hw hcond hbody he hchained =>
          rw [List.cons_append, List.append_assoc, List.append_assoc, List.cons_append] at htokens
          simp only [List.forall_mem_cons, List.forall_mem_append] at hfits
          simp only [List.length_cons, List.length_append] at hk hn
          obtain ⟨-, hfc, hfb, -, hfe⟩ := hfits
          obtain ⟨inner, es', rfl, hinner⟩ := hchained.head
          obtain ⟨m, hm, htokens₁, heq⟩ :=
            ifStatement_of_else hexpr hblock hw hcond hbody he htokens hfc hfb (by omega) k
          obtain ⟨q, hes, hq⟩ := ih hchained htokens₁ hfe (by omega) (by omega)
          refine ⟨q, ?_, by simpa using hm.trans hq⟩
          rw [heq, hinner]
          exact bind_of_ok hes

/-- A loop is a keyword, a condition and a block. -/
private theorem whileStatement_sound (hexpr : RecognisesExpr n lowest expr)
    (hblock : Recognises n block (plain BlockForm) fun _ => True)
    (h : whileStatement expr block p = .ok s q) :
    ∃ ts, Takes p q ts [] ∧ StmtForm ts (some s) [] := by
  obtain ⟨word, m₁, hword, h⟩ := bind_eq_ok.mp h
  obtain ⟨cond, m₂, hcond, h⟩ := bind_eq_ok.mp h
  obtain ⟨body, m₃, hbody, h⟩ := bind_eq_ok.mp h
  obtain ⟨rfl, rfl⟩ := pure_eq_ok.mp h
  obtain ⟨h₁, hw⟩ := expect_takes hword rfl
  obtain ⟨cs, _, h₂, hcs, rfl⟩ := hexpr.sound hcond
  obtain ⟨bs, _, h₃, hbs, rfl⟩ := hblock.sound hbody
  exact ⟨word :: (cs ++ bs), h₁.trans (h₂.trans h₃), .whileLoop hw hcs hbs⟩

private theorem whileStatement_complete (hexpr : RecognisesExpr n lowest expr)
    (hblock : Recognises n block (plain BlockForm) fun _ => True) {word : Token}
    {cs bs : List Token} {cond : Expr} {body : Block} (hw : word.kind = .keyword .whileWord)
    (hcond : ExprForm lowest cs cond) (hbody : BlockForm bs body)
    (htokens : p.tokens = word :: (cs ++ (bs ++ rest))) (hcs : ∀ t ∈ cs, t.Fits)
    (hbs : ∀ t ∈ bs, t.Fits) (hlen : cs.length + bs.length < n) :
    ∃ q, whileStatement expr block p =
        .ok (.whileLoop cond body (word.span.merge body.span)) q ∧
      Takes p q (word :: (cs ++ bs)) [] := by
  obtain ⟨m₁, m₂, q, hword, hcond, hbody, hq⟩ :=
    headed_complete hexpr hblock hw hcond hbody htokens hcs hbs hlen
  refine ⟨q, ?_, hq⟩
  rw [whileStatement, bind_of_ok hword, bind_of_ok hcond]
  exact bind_of_ok hbody

/-- The name of a function is declared in front of its body, and outside of it. -/
private theorem funcStatement_sound (hblock : Recognises n block (plain BlockForm) fun _ => True)
    (h : funcStatement block p = .ok s q) :
    ∃ ts own, Takes p q ts own ∧ StmtForm ts (some s) own := by
  obtain ⟨word, m₁, hword, h⟩ := bind_eq_ok.mp h
  obtain ⟨name, m₂, hname, h⟩ := bind_eq_ok.mp h
  obtain ⟨_, m₃, hdecl, h⟩ := bind_eq_ok.mp h
  obtain ⟨body, m₄, hbody, h⟩ := bind_eq_ok.mp h
  obtain ⟨rfl, rfl⟩ := pure_eq_ok.mp h
  obtain rfl := modify_eq_ok.mp hdecl
  obtain ⟨h₁, hw⟩ := expect_takes hword rfl
  obtain ⟨id, h₂, hid, rfl⟩ := ident_takes hname
  obtain ⟨bs, _, h₃, hbs, rfl⟩ := hblock.sound hbody
  exact ⟨_, _, h₁.trans ((h₂.declare _).trans h₃), .func hw hid hbs⟩

private theorem funcStatement_complete (hblock : Recognises n block (plain BlockForm) fun _ => True)
    {word name : Token} {bs : List Token} {body : Block} (hw : word.kind = .keyword .funcWord)
    (hn : name.kind = .identifier) (hbody : BlockForm bs body)
    (htokens : p.tokens = word :: name :: (bs ++ rest)) (hbs : ∀ t ∈ bs, t.Fits)
    (hlen : bs.length < n) :
    ∃ q, funcStatement block p = .ok (.func name.ident body (word.span.merge body.span)) q ∧
      Takes p q (word :: name :: bs) [⟨.func, name.ident⟩] := by
  obtain ⟨m₁, hword, h₁⟩ := expect_of_tokens htokens hw rfl
  obtain ⟨m₂, hname, h₂⟩ := ident_of_tokens (h₁.rest htokens) hn
  have h₃ := h₂.declare ⟨.func, name.ident⟩
  obtain ⟨q, hblock', h₄⟩ :=
    hblock.complete ⟨hbody, rfl⟩ (h₃.rest (h₁.rest htokens)) hbs trivial hlen
  refine ⟨q, ?_, h₁.trans (h₃.trans h₄)⟩
  rw [funcStatement, bind_of_ok hword, bind_of_ok hname]
  exact bind_of_ok hblock'

/-! ### Simple statements

All of them end with a semicolon, which ends the expression or the arguments in front of it.
`ended_complete` and `applied_complete` have this for a value and for arguments.
-/

/-- A semicolon ends the expression in front of it. -/
theorem stops_of_semicolon {t : Token} (h : t.kind = .mark .semicolon) (m : Nat) :
    Stops m ([t] ++ rest) := stops_of_binary? (by rw [h]; rfl) _ _

private theorem returnStatement_sound (hexpr : RecognisesExpr n lowest expr)
    (h : returnStatement expr p = .ok s q) : ∃ ts, Takes p q ts [] ∧ StmtForm ts (some s) [] := by
  obtain ⟨word, m₁, hword, h⟩ := bind_eq_ok.mp h
  obtain ⟨bare, m₂, hcheck, h⟩ := bind_eq_ok.mp h
  obtain ⟨h₁, hw⟩ := expect_takes hword rfl
  obtain ⟨h₂, -⟩ := check_takes hcheck
  cases bare with
  | true =>
      simp only [if_true, bind_eq_ok, pure_eq_ok] at h
      obtain ⟨value, m₃, ⟨rfl, rfl⟩, semicolon, m₄, hsemi, rfl, rfl⟩ := h
      obtain ⟨h₃, hs⟩ := expect_takes hsemi rfl
      exact ⟨_, h₁.trans (h₂.trans h₃), .ret hw hs⟩
  | false =>
      simp only [Bool.false_eq_true, if_false, bind_eq_ok, pure_eq_ok, map_eq_ok] at h
      obtain ⟨value, m₃, ⟨e, he, rfl⟩, semicolon, m₄, hsemi, rfl, rfl⟩ := h
      obtain ⟨ts, _, h₃, hts, rfl⟩ := hexpr.sound he
      obtain ⟨h₄, hs⟩ := expect_takes hsemi rfl
      exact ⟨_, h₁.trans (h₂.trans (h₃.trans h₄)), .retValue hw hts hs⟩

/-- `return;` is told from `return` with a value by looking for the semicolon. -/
private theorem returnStatement_bare (expr : Parsing Expr) {word semicolon : Token}
    (hw : word.kind = .keyword .returnWord)
    (hs : semicolon.kind = .mark .semicolon) (htokens : p.tokens = word :: semicolon :: rest) :
    ∃ q, returnStatement expr p = .ok (.ret none (word.span.merge semicolon.span)) q ∧
      Takes p q [word, semicolon] [] := by
  obtain ⟨m₁, hword, h₁⟩ := expect_of_tokens htokens hw rfl
  obtain ⟨m₂, hcheck, h₂⟩ := check_of_tokens (h₁.rest htokens) (.mark .semicolon)
  obtain ⟨q, hsemi, h₃⟩ := expect_of_tokens (h₂.rest (h₁.rest htokens)) hs rfl
  refine ⟨q, ?_, h₁.trans (h₂.trans h₃)⟩
  rw [returnStatement, bind_of_ok hword, bind_of_ok hcheck, hs]
  exact bind_of_ok (x := expectMark _) hsemi

/-- An expression in front of a semicolon is read, and so is the semicolon. -/
theorem ended_complete (hexpr : RecognisesExpr n lowest expr) {ts : List Token} {value : Expr}
    {semicolon : Token} (hvalue : ExprForm lowest ts value)
    (hs : semicolon.kind = .mark .semicolon) (htokens : p.tokens = ts ++ ([semicolon] ++ rest))
    (hts : ∀ t ∈ ts, t.Fits) (hlen : ts.length < n) :
    ∃ m q, expr p = .ok value m ∧ expectMark .semicolon m = .ok semicolon q ∧
      Takes p q (ts ++ [semicolon]) [] := by
  obtain ⟨m, hread, h₁⟩ :=
    hexpr.complete ⟨hvalue, rfl⟩ htokens hts (stops_of_semicolon hs _) hlen
  obtain ⟨q, hsemi, h₂⟩ := expect_of_tokens (h₁.rest htokens) hs rfl
  exact ⟨m, q, hread, hsemi, h₁.trans h₂⟩

private theorem returnStatement_value (hexpr : RecognisesExpr n lowest expr)
    {word semicolon : Token} {ts : List Token} {value : Expr}
    (hw : word.kind = .keyword .returnWord) (hvalue : ExprForm lowest ts value)
    (hs : semicolon.kind = .mark .semicolon)
    (htokens : p.tokens = word :: (ts ++ ([semicolon] ++ rest))) (hts : ∀ t ∈ ts, t.Fits)
    (hlen : ts.length < n) :
    ∃ q, returnStatement expr p = .ok (.ret (some value) (word.span.merge semicolon.span)) q ∧
      Takes p q (word :: (ts ++ [semicolon])) [] := by
  obtain ⟨m₁, hword, h₁⟩ := expect_of_tokens htokens hw rfl
  obtain ⟨t, ts', hts', hstart⟩ := hvalue.head
  have htokens₁ : m₁.tokens = ts ++ ([semicolon] ++ rest) := h₁.rest htokens
  obtain ⟨m₂, hcheck, h₂⟩ :=
    check_of_tokens (t := t) (by rw [htokens₁, hts']; rfl) (.mark .semicolon)
  obtain ⟨m₃, q, hread, hsemi, h₃⟩ := ended_complete hexpr hvalue hs (h₂.rest htokens₁) hts hlen
  refine ⟨q, ?_, h₁.trans (h₂.trans h₃)⟩
  -- No expression starts with a semicolon, so the value is not taken to be missing.
  have hnot : (t.kind == .mark .semicolon) = false := by
    refine beq_false_of_ne ?_
    intro hk
    simp [hk, TokenKind.startsExpr] at hstart
  rw [returnStatement, bind_of_ok hword, bind_of_ok hcheck, hnot]
  simp only [Bool.false_eq_true, if_false]
  rw [bind_of_ok (map_eq_ok.mpr ⟨value, hread, rfl⟩)]
  exact bind_of_ok hsemi

/-- A declaration leaves no statement behind, unless it gives the variable a value. -/
private theorem varStatement_sound (hexpr : RecognisesExpr n lowest expr) {s : Option Stmt}
    (h : varStatement expr p = .ok s q) : ∃ ts own, Takes p q ts own ∧ StmtForm ts s own := by
  obtain ⟨word, m₁, hword, h⟩ := bind_eq_ok.mp h
  obtain ⟨name, m₂, hname, h⟩ := bind_eq_ok.mp h
  obtain ⟨_, m₃, hdecl, h⟩ := bind_eq_ok.mp h
  obtain ⟨sign, m₄, heat, h⟩ := bind_eq_ok.mp h
  obtain rfl := modify_eq_ok.mp hdecl
  obtain ⟨h₁, hw⟩ := expect_takes hword rfl
  obtain ⟨id, h₂, hid, rfl⟩ := ident_takes hname
  obtain ⟨h₃, hsign, -⟩ := eat_takes heat rfl
  have hdeclared := h₁.trans ((h₂.declare ⟨.var, id.ident⟩).trans h₃)
  cases sign with
  | none =>
      obtain ⟨semicolon, m₅, hsemi, h⟩ := bind_eq_ok.mp h
      obtain ⟨rfl, rfl⟩ := pure_eq_ok.mp h
      obtain ⟨h₄, hs⟩ := expect_takes hsemi rfl
      exact ⟨_, _, hdeclared.trans h₄, .var hw hid hs⟩
  | some sign =>
      obtain ⟨value, m₅, hvalue, h⟩ := bind_eq_ok.mp h
      obtain ⟨semicolon, m₆, hsemi, h⟩ := bind_eq_ok.mp h
      obtain ⟨rfl, rfl⟩ := pure_eq_ok.mp h
      obtain ⟨ts, _, h₄, hts, rfl⟩ := hexpr.sound hvalue
      obtain ⟨h₅, hs⟩ := expect_takes hsemi rfl
      exact ⟨_, _, hdeclared.trans (h₄.trans h₅), .varValue hw hid (hsign sign rfl) hts hs⟩

private theorem varStatement_bare (expr : Parsing Expr) {word name semicolon : Token}
    (hw : word.kind = .keyword .varWord)
    (hn : name.kind = .identifier) (hs : semicolon.kind = .mark .semicolon)
    (htokens : p.tokens = word :: name :: semicolon :: rest) :
    ∃ q, varStatement expr p = .ok none q ∧
      Takes p q [word, name, semicolon] [⟨.var, name.ident⟩] := by
  obtain ⟨m₁, hword, h₁⟩ := expect_of_tokens htokens hw rfl
  obtain ⟨m₂, hname, h₂⟩ := ident_of_tokens (h₁.rest htokens) hn
  have h₃ := h₂.declare ⟨.var, name.ident⟩
  have htokens₁ := h₃.rest (h₁.rest htokens)
  obtain ⟨m₃, heat, h₄⟩ :=
    eat_none_of_tokens htokens₁ (show semicolon.kind ≠ .mark .equal by rw [hs]; simp)
  obtain ⟨q, hsemi, h₅⟩ := expect_of_tokens (h₄.rest htokens₁) hs rfl
  refine ⟨q, ?_, h₁.trans (h₃.trans (h₄.trans h₅))⟩
  rw [varStatement, bind_of_ok hword, bind_of_ok hname, bind_of_ok (declare_eq ..),
    bind_of_ok heat]
  exact bind_of_ok (x := expectMark _) hsemi

private theorem varStatement_value (hexpr : RecognisesExpr n lowest expr)
    {word name sign semicolon : Token} {ts : List Token} {value : Expr}
    (hw : word.kind = .keyword .varWord) (hn : name.kind = .identifier)
    (hsign : sign.kind = .mark .equal) (hvalue : ExprForm lowest ts value)
    (hs : semicolon.kind = .mark .semicolon)
    (htokens : p.tokens = word :: name :: sign :: (ts ++ ([semicolon] ++ rest)))
    (hts : ∀ t ∈ ts, t.Fits) (hlen : ts.length < n) :
    ∃ q, varStatement expr p =
        .ok (some (.assign (.ident name.ident) value (word.span.merge semicolon.span))) q ∧
      Takes p q (word :: name :: sign :: (ts ++ [semicolon])) [⟨.var, name.ident⟩] := by
  obtain ⟨m₁, hword, h₁⟩ := expect_of_tokens htokens hw rfl
  obtain ⟨m₂, hname, h₂⟩ := ident_of_tokens (h₁.rest htokens) hn
  have h₃ := h₂.declare ⟨.var, name.ident⟩
  have htokens₁ := h₃.rest (h₁.rest htokens)
  obtain ⟨m₃, heat, h₄⟩ := eat_of_tokens htokens₁ hsign rfl
  obtain ⟨m₄, q, hread, hsemi, h₅⟩ :=
    ended_complete hexpr hvalue hs (h₄.rest htokens₁) hts hlen
  refine ⟨q, ?_, h₁.trans (h₃.trans (h₄.trans h₅))⟩
  rw [varStatement, bind_of_ok hword, bind_of_ok hname, bind_of_ok (declare_eq ..),
    bind_of_ok heat]
  dsimp only
  rw [bind_of_ok hread]
  exact bind_of_ok hsemi

/-- An alias is declared once its semicolon was read, and it leaves no statement behind. -/
private theorem aliasStatement_sound {u : Unit} (h : aliasStatement p = .ok u q) :
    ∃ ts own, Takes p q ts own ∧ StmtForm ts none own := by
  obtain ⟨word, m₁, hword, h⟩ := bind_eq_ok.mp h
  obtain ⟨name, m₂, hname, h⟩ := bind_eq_ok.mp h
  obtain ⟨sign, m₃, hsign, h⟩ := bind_eq_ok.mp h
  obtain ⟨t, m₄, hpeek, h⟩ := bind_eq_ok.mp h
  obtain ⟨h₁, hw⟩ := expect_takes hword rfl
  obtain ⟨id, h₂, hid, rfl⟩ := ident_takes hname
  obtain ⟨h₃, hsign⟩ := expect_takes hsign rfl
  obtain ⟨h₄, rest, hrest⟩ := peek_takes hpeek
  generalize hr : t.register? = r? at h
  cases r? with
  | none => simp [expected, fail] at h
  | some r =>
      obtain ⟨reg, m₅, hadv, h⟩ := bind_eq_ok.mp h
      obtain ⟨semicolon, m₆, hsemi, h⟩ := bind_eq_ok.mp h
      obtain rfl := modify_eq_ok.mp h
      obtain ⟨rfl, h₅⟩ := advance_plain hrest (by rw [Token.kind_of_register? hr]; rfl) hadv
      obtain ⟨h₆, hs⟩ := expect_takes hsemi rfl
      have hall := h₁.trans (h₂.trans (h₃.trans (h₄.trans (h₅.trans h₆))))
      exact ⟨_, _, hall.declare _, .registerAlias hw hid hsign hr hs⟩

private theorem aliasStatement_complete {word name sign reg semicolon : Token} {r : Register}
    (hw : word.kind = .keyword .aliasWord) (hn : name.kind = .identifier)
    (hsign : sign.kind = .mark .equal) (hr : reg.register? = some r)
    (hs : semicolon.kind = .mark .semicolon)
    (htokens : p.tokens = word :: name :: sign :: reg :: semicolon :: rest) :
    ∃ q, aliasStatement p = .ok () q ∧
      Takes p q [word, name, sign, reg, semicolon] [⟨.registerAlias r, name.ident⟩] := by
  obtain ⟨m₁, hword, h₁⟩ := expect_of_tokens htokens hw rfl
  have htokens₁ := h₁.rest htokens
  obtain ⟨m₂, hname, h₂⟩ := ident_of_tokens htokens₁ hn
  have htokens₂ := h₂.rest htokens₁
  obtain ⟨m₃, hequal, h₃⟩ := expect_of_tokens htokens₂ hsign rfl
  have htokens₃ := h₃.rest htokens₂
  obtain ⟨m₄, hpeek, h₄⟩ := peek_of_tokens htokens₃
  have htokens₄ := h₄.rest htokens₃
  obtain ⟨m₅, hadv, h₅⟩ :=
    advance_plain_of_tokens htokens₄ (by rw [Token.kind_of_register? hr]; rfl)
  obtain ⟨m₆, hsemi, h₆⟩ := expect_of_tokens (h₅.rest htokens₄) hs rfl
  have hall := h₁.trans (h₂.trans (h₃.trans (h₄.trans (h₅.trans h₆))))
  refine ⟨_, ?_, hall.declare ⟨.registerAlias r, name.ident⟩⟩
  rw [aliasStatement, bind_of_ok hword, bind_of_ok hname, bind_of_ok (x := expectMark _) hequal,
    bind_of_ok hpeek, hr]
  dsimp only
  rw [bind_of_ok hadv]
  exact bind_of_ok (x := expectMark _) hsemi

private theorem intrinsicStatement_sound
    (hargs : Recognises n args (plain ArgumentsForm) fun _ => True)
    (h : intrinsicStatement args p = .ok s q) :
    ∃ ts, Takes p q ts [] ∧ StmtForm ts (some s) [] := by
  obtain ⟨word, m₁, hadv, h⟩ := bind_eq_ok.mp h
  generalize hk : word.kind = kind at h
  cases kind with
  | intrinsic i =>
      obtain ⟨a, m₂, ha, h⟩ := bind_eq_ok.mp h
      obtain ⟨semicolon, m₃, hsemi, h⟩ := bind_eq_ok.mp h
      obtain ⟨rfl, rfl⟩ := pure_eq_ok.mp h
      have h₁ := advance_takes hadv (by rw [hk]; simp) (Token.fits_of_isPlain (by rw [hk]; rfl))
      obtain ⟨ts, _, h₂, hts, rfl⟩ := hargs.sound ha
      obtain ⟨h₃, hs⟩ := expect_takes hsemi rfl
      exact ⟨_, h₁.trans (h₂.trans h₃), .intrinsic hk hts hs⟩
  | integer | identifier | register | keyword | mark | eof =>
      simp [TokenKind.intrinsic?, unexpected, fail] at h

/-- Arguments in front of a semicolon are read, and so is the semicolon. -/
theorem applied_complete (hargs : Recognises n args (plain ArgumentsForm) fun _ => True)
    {ts : List Token} {a : Arguments} {semicolon : Token} (ha : ArgumentsForm ts a)
    (hs : semicolon.kind = .mark .semicolon) (htokens : p.tokens = ts ++ ([semicolon] ++ rest))
    (hts : ∀ t ∈ ts, t.Fits) (hlen : ts.length < n) :
    ∃ m q, args p = .ok a m ∧ expectMark .semicolon m = .ok semicolon q ∧
      Takes p q (ts ++ [semicolon]) [] := by
  obtain ⟨m, hread, h₁⟩ := hargs.complete ⟨ha, rfl⟩ htokens hts trivial hlen
  obtain ⟨q, hsemi, h₂⟩ := expect_of_tokens (h₁.rest htokens) hs rfl
  exact ⟨m, q, hread, hsemi, h₁.trans h₂⟩

private theorem intrinsicStatement_complete
    (hargs : Recognises n args (plain ArgumentsForm) fun _ => True) {word semicolon : Token}
    {i : Intrinsic} {ts : List Token} {a : Arguments} (hw : word.kind = .intrinsic i)
    (ha : ArgumentsForm ts a) (hs : semicolon.kind = .mark .semicolon)
    (htokens : p.tokens = word :: (ts ++ ([semicolon] ++ rest))) (hts : ∀ t ∈ ts, t.Fits)
    (hlen : ts.length < n) :
    ∃ q, intrinsicStatement args p = .ok (.intrinsic i a (word.span.merge semicolon.span)) q ∧
      Takes p q (word :: (ts ++ [semicolon])) [] := by
  obtain ⟨m₁, hadv, h₁⟩ := advance_plain_of_tokens htokens (by rw [hw]; rfl)
  obtain ⟨m₂, q, hread, hsemi, h₂⟩ := applied_complete hargs ha hs (h₁.rest htokens) hts hlen
  refine ⟨q, ?_, h₁.trans h₂⟩
  rw [intrinsicStatement, bind_of_ok hadv, hw]
  refine (bind_of_ok hread).trans ?_
  exact bind_of_ok hsemi

private theorem callStatement_sound (hargs : Recognises n args (plain ArgumentsForm) fun _ => True)
    (h : callStatement args p = .ok s q) : ∃ ts, Takes p q ts [] ∧ StmtForm ts (some s) [] := by
  obtain ⟨name, m₁, hname, h⟩ := bind_eq_ok.mp h
  obtain ⟨a, m₂, ha, h⟩ := bind_eq_ok.mp h
  obtain ⟨semicolon, m₃, hsemi, h⟩ := bind_eq_ok.mp h
  obtain ⟨rfl, rfl⟩ := pure_eq_ok.mp h
  obtain ⟨id, h₁, hid, rfl⟩ := ident_takes hname
  obtain ⟨ts, _, h₂, hts, rfl⟩ := hargs.sound ha
  obtain ⟨h₃, hs⟩ := expect_takes hsemi rfl
  exact ⟨_, h₁.trans (h₂.trans h₃), .call hid hts hs⟩

private theorem callStatement_complete
    (hargs : Recognises n args (plain ArgumentsForm) fun _ => True)
    {name semicolon : Token} {ts : List Token} {a : Arguments} (hn : name.kind = .identifier)
    (ha : ArgumentsForm ts a) (hs : semicolon.kind = .mark .semicolon)
    (htokens : p.tokens = name :: (ts ++ ([semicolon] ++ rest))) (hts : ∀ t ∈ ts, t.Fits)
    (hlen : ts.length < n) :
    ∃ q, callStatement args p = .ok (.call name.ident a (name.span.merge semicolon.span)) q ∧
      Takes p q (name :: (ts ++ [semicolon])) [] := by
  obtain ⟨m₁, hname, h₁⟩ := ident_of_tokens htokens hn
  obtain ⟨m₂, q, hread, hsemi, h₂⟩ := applied_complete hargs ha hs (h₁.rest htokens) hts hlen
  refine ⟨q, ?_, h₁.trans h₂⟩
  rw [callStatement, bind_of_ok hname, bind_of_ok hread]
  exact bind_of_ok hsemi

end Parts

end Parser

/-- The signs of an assignment are the plain one and those that apply an operator. -/
theorem TokenKind.isAssignment_iff {kind : TokenKind} :
    kind.isAssignment = true ↔ kind = .mark .equal ∨ ∃ op, kind.compound? = some op := by
  cases kind with
  | mark m => cases m <;> simp [isAssignment, Mark.isAssignment, compound?, Mark.compound?]
  | integer | identifier | register | keyword | intrinsic | eof =>
      simp [isAssignment, compound?]

private theorem TokenKind.binary?_of_isAssignment {kind : TokenKind}
    (h : kind.isAssignment = true) :
    kind.binary? = none ∧ kind.isPlain = true := by
  cases kind with
  | mark m => cases m <;> simp_all [isAssignment, Mark.isAssignment, binary?, Mark.binary?, isPlain]
  | integer | identifier | register | keyword | intrinsic | eof => simp [isAssignment] at h

namespace Parser

section Assignments

variable {n : Nat} {expr : Parsing Expr} {p q : Parser} {s : Stmt} {rest : List Token}

private theorem assignStatement_sound (hexpr : RecognisesExpr n lowest expr)
    (h : assignStatement expr p = .ok s q) : ∃ ts, Takes p q ts [] ∧ StmtForm ts (some s) [] := by
  obtain ⟨target, m₁, htarget, h⟩ := bind_eq_ok.mp h
  obtain ⟨sign, m₂, hpeek, h⟩ := bind_eq_ok.mp h
  obtain ⟨ls, _, h₁, hls, rfl⟩ := hexpr.sound htarget
  obtain ⟨h₂, rest, hrest⟩ := peek_takes hpeek
  by_cases hsign : sign.kind.isAssignment = true
  · rw [if_pos hsign] at h
    obtain ⟨u, m₃, hadv, h⟩ := bind_eq_ok.mp h
    obtain ⟨value, m₄, hvalue, h⟩ := bind_eq_ok.mp h
    obtain ⟨semicolon, m₅, hsemi, h⟩ := bind_eq_ok.mp h
    obtain ⟨rfl, h₃⟩ := advance_plain hrest (TokenKind.binary?_of_isAssignment hsign).2 hadv
    obtain ⟨rs, _, h₄, hrs, rfl⟩ := hexpr.sound hvalue
    obtain ⟨h₅, hs⟩ := expect_takes hsemi rfl
    have hall := h₁.trans (h₂.trans (h₃.trans (h₄.trans h₅)))
    generalize hop : u.kind.compound? = op? at h
    cases op? with
    | none =>
        obtain ⟨rfl, rfl⟩ := pure_eq_ok.mp h
        rcases TokenKind.isAssignment_iff.mp hsign with hequal | ⟨op, hop'⟩
        · exact ⟨_, hall, .assign hls hequal hrs hs⟩
        · simp [hop] at hop'
    | some op =>
        obtain ⟨rfl, rfl⟩ := pure_eq_ok.mp h
        exact ⟨_, hall, .compound hls hop hrs hs⟩
  · rw [if_neg hsign] at h
    simp [expected, fail] at h

/-- Two expressions with a sign of assignment between them are read up to the semicolon. -/
theorem assignStatement_complete (hexpr : RecognisesExpr n lowest expr) {sign semicolon : Token}
    {ls rs : List Token} {target value : Expr} (htarget : ExprForm lowest ls target)
    (hsign : sign.kind.isAssignment = true) (hvalue : ExprForm lowest rs value)
    (hs : semicolon.kind = .mark .semicolon)
    (htokens : p.tokens = ls ++ sign :: (rs ++ ([semicolon] ++ rest)))
    (hls : ∀ t ∈ ls, t.Fits) (hrs : ∀ t ∈ rs, t.Fits) (hlen : ls.length + rs.length < n) :
    ∃ q, assignStatement expr p = .ok (match sign.kind.compound? with
        | none => .assign target value (target.span.merge semicolon.span)
        | some op => .compound op target value (target.span.merge semicolon.span)) q ∧
      Takes p q (ls ++ sign :: (rs ++ [semicolon])) [] := by
  obtain ⟨hnone, hplain⟩ := TokenKind.binary?_of_isAssignment hsign
  obtain ⟨m₁, hleft, h₁⟩ := hexpr.complete ⟨htarget, rfl⟩ htokens hls
    (stops_of_binary? hnone _ _) (by omega)
  have htokens₁ := h₁.rest htokens
  obtain ⟨m₂, hpeek, h₂⟩ := peek_of_tokens htokens₁
  have htokens₂ := h₂.rest htokens₁
  obtain ⟨m₃, hadv, h₃⟩ := advance_plain_of_tokens htokens₂ hplain
  obtain ⟨m₄, q, hright, hsemi, h₄⟩ :=
    ended_complete hexpr hvalue hs (h₃.rest htokens₂) hrs (by omega)
  refine ⟨q, ?_, h₁.trans (h₂.trans (h₃.trans h₄))⟩
  rw [assignStatement, bind_of_ok hleft, bind_of_ok hpeek, if_pos hsign, bind_of_ok hadv,
    bind_of_ok hright, bind_of_ok hsemi]
  cases sign.kind.compound? with
  | none => rfl
  | some op => rfl

end Assignments

/-! ### Statements

`statementOf` looks at the first token and hands on to one of the above.  A token that was
only looked at was not taken, and a name that was put back was not either
(`pushBack_takes`).
-/

section Statements

variable {n : Nat} {expr : Parsing Expr} {args : Parsing Arguments} {block : Parsing Block}
variable {p q : Parser} {rest : List Token}

private theorem pushBack_takes {m : Parser} {t : Token} {u : Unit} (h : Takes p m [t] [])
    (ht : t.kind ≠ .eof) (hpush : pushBack t m = .ok u q) : Takes p q [] [] := by
  obtain ⟨l, hstep, rfl⟩ := onLexer_eq_ok.mp hpush
  refine ⟨?_, h.declared, by simp⟩
  show p.tokens = l.tokens
  rw [Lexer.tokens_of_pushBack hstep ht]
  exact h.tokens

/-- What is read as a statement has the form of one. -/
theorem statementOf_sound (hexpr : RecognisesExpr n lowest expr)
    (hargs : Recognises n args (plain ArgumentsForm) fun _ => True)
    (hblock : Recognises n block (plain BlockForm) fun _ => True) {k : Nat} {s : Option Stmt}
    (h : statementOf expr args block k p = .ok s q) :
    ∃ ts own, Takes p q ts own ∧ StmtForm ts s own := by
  obtain ⟨t, m, hpeek, h⟩ := bind_eq_ok.mp h
  obtain ⟨hm, rest, hrest⟩ := peek_takes hpeek
  -- A statement that declares nothing, behind a look at its first tokens.
  have hplain : ∀ {m : Parser} {x : Parsing Stmt}, Takes p m [] [] →
      (∀ {s q}, x m = .ok s q → ∃ ts, Takes m q ts [] ∧ StmtForm ts (some s) []) →
      (some <$> x) m = .ok s q → ∃ ts own, Takes p q ts own ∧ StmtForm ts s own := by
    intro m x hm hx h
    obtain ⟨s, hs, rfl⟩ := map_eq_ok.mp h
    obtain ⟨ts, hts, hform⟩ := hx hs
    exact ⟨ts, [], hm.trans hts, hform⟩
  generalize hk : t.kind = kind at h
  -- One case for each word that starts a statement, then names, and then all other tokens.
  split at h
  · refine hplain hm (fun hs => ?_) h
    obtain ⟨ts, hts, hform⟩ := ifStatement_sound hexpr hblock k hs
    exact ⟨ts, hts, .conditional hform⟩
  · exact hplain hm (whileStatement_sound hexpr hblock) h
  · obtain ⟨s, hs, rfl⟩ := map_eq_ok.mp h
    obtain ⟨ts, own, hts, hform⟩ := funcStatement_sound hblock hs
    exact ⟨ts, own, hm.trans hts, hform⟩
  · exact hplain hm (returnStatement_sound hexpr) h
  · obtain ⟨ts, own, hts, hform⟩ := varStatement_sound hexpr h
    exact ⟨ts, own, hm.trans hts, hform⟩
  · obtain ⟨u, m₁, hs, h⟩ := bind_eq_ok.mp h
    obtain ⟨rfl, rfl⟩ := pure_eq_ok.mp h
    obtain ⟨ts, own, hts, hform⟩ := aliasStatement_sound hs
    exact ⟨ts, own, hm.trans hts, hform⟩
  · exact hplain hm (intrinsicStatement_sound hargs) h
  · -- The name was taken to see what is behind it, and put back: nothing was taken yet.
    obtain ⟨name, m₁, hadv, h⟩ := bind_eq_ok.mp h
    obtain ⟨isCall, m₂, hcheck, h⟩ := bind_eq_ok.mp h
    obtain ⟨u, m₃, hpush, h⟩ := bind_eq_ok.mp h
    obtain ⟨rfl, h₁⟩ := advance_plain hrest (by rw [hk]; rfl) hadv
    obtain ⟨h₂, -⟩ := check_takes hcheck
    have h₃ := pushBack_takes (h₁.trans h₂) (by rw [hk]; simp) hpush
    cases isCall with
    | true => exact hplain (hm.trans h₃) (callStatement_sound hargs) h
    | false => exact hplain (hm.trans h₃) (assignStatement_sound hexpr) h
  · simp [unexpectedToken, fail] at h
  · exact hplain hm (assignStatement_sound hexpr) h

/-- A name is looked at with the token behind it, and put back. -/
theorem statementOf_of_name (expr : Parsing Expr) (args : Parsing Arguments)
    (block : Parsing Block) (n : Nat) {t u : Token} (htokens : p.tokens = t :: u :: rest)
    (ht : t.kind = .identifier) :
    ∃ m, Takes p m [] [] ∧ statementOf expr args block n p =
      (if u.kind == .mark .leftParen then some <$> callStatement args
        else some <$> assignStatement expr) m := by
  obtain ⟨m₁, hpeek, h₁⟩ := peek_of_tokens htokens
  obtain ⟨m₂, hadv, h₂⟩ := advance_plain_of_tokens (h₁.rest htokens) (by rw [ht]; rfl)
  obtain ⟨m₃, hcheck, h₃⟩ :=
    check_of_tokens (h₂.rest (h₁.rest htokens)) (.mark .leftParen)
  have hpush : pushBack t m₃ = .ok () { m₃ with lexer := ⟨t :: m₃.lexer.ahead, m₃.lexer.cursor⟩ } :=
    rfl
  refine ⟨_, h₁.trans (pushBack_takes (h₂.trans h₃) (by rw [ht]; simp) hpush), ?_⟩
  rw [statementOf, bind_of_ok hpeek]
  simp only [ht]
  rw [bind_of_ok hadv, bind_of_ok hcheck, bind_of_ok hpush]

/-- What starts like an expression, and not like a call, is read as an assignment. -/
theorem statementOf_of_expr (expr : Parsing Expr) (args : Parsing Arguments)
    (block : Parsing Block) (n : Nat) {ls : List Token} {target : Expr} {sign : Token}
    (hls : ExprForm lowest ls target) (hsign : sign.kind.isAssignment = true)
    (htokens : p.tokens = ls ++ sign :: rest) :
    ∃ m, Takes p m [] [] ∧
      statementOf expr args block n p = (some <$> assignStatement expr) m := by
  obtain ⟨t, ls', rfl, hstart⟩ := hls.head
  by_cases ht : t.kind = .identifier
  · -- Behind the name stands an operator or the sign, and neither opens a parenthesis.
    obtain ⟨u, more, hu, hne⟩ : ∃ u more, ls' ++ sign :: rest = u :: more ∧
        u.kind ≠ .mark .leftParen := by
      cases ls' with
      | nil =>
          refine ⟨sign, rest, rfl, ?_⟩
          intro hk
          simp [hk, TokenKind.isAssignment, Mark.isAssignment] at hsign
      | cons u ls' =>
          obtain ⟨op, hop⟩ := hls.second rfl ht
          refine ⟨u, _, rfl, ?_⟩
          intro hk
          simp [hk, TokenKind.binary?, Mark.binary?] at hop
    rw [List.cons_append, hu] at htokens
    obtain ⟨m, hm, heq⟩ := statementOf_of_name expr args block n htokens ht
    rw [beq_false_of_ne hne] at heq
    exact ⟨m, hm, heq⟩
  · obtain ⟨m, hpeek, hm⟩ := peek_of_tokens htokens
    refine ⟨m, hm, ?_⟩
    rw [statementOf, bind_of_ok hpeek]
    generalize t.kind = kind at hstart ht
    cases kind with
    | keyword k => cases k <;> first | rfl | simp [TokenKind.startsExpr] at hstart
    | identifier => simp at ht
    | intrinsic | eof => simp [TokenKind.startsExpr] at hstart
    | integer | register | mark => rfl

/-- A statement is read from where its first tokens were looked at. -/
theorem statementOf_eq_ok {k : Nat} {x : Parsing Stmt} {m : Parser} {s : Stmt} {ts : List Token}
    {own : List Decl} (hm : Takes p m [] [])
    (heq : statementOf expr args block k p = (some <$> x) m)
    (h : ∃ q, x m = .ok s q ∧ Takes m q ts own) :
    ∃ q, statementOf expr args block k p = .ok (some s) q ∧ Takes p q ts own := by
  obtain ⟨q, hread, hq⟩ := h
  refine ⟨q, ?_, hm.trans hq⟩
  rw [heq]
  exact map_eq_ok.mpr ⟨s, hread, rfl⟩

/-- Both forms of assignment are read by `assignStatement`, and the sign tells them apart. -/
private theorem statementOf_assignment (hexpr : RecognisesExpr n lowest expr)
    (args : Parsing Arguments) (block : Parsing Block) (k : Nat) {sign semicolon : Token}
    {ls rs : List Token} {target value : Expr} (htarget : ExprForm lowest ls target)
    (hsign : sign.kind.isAssignment = true) (hvalue : ExprForm lowest rs value)
    (hs : semicolon.kind = .mark .semicolon)
    (htokens : p.tokens = (ls ++ sign :: (rs ++ [semicolon])) ++ rest)
    (hfits : ∀ t ∈ ls ++ sign :: (rs ++ [semicolon]), t.Fits)
    (hlen : (ls ++ sign :: (rs ++ [semicolon])).length < n) :
    ∃ q, statementOf expr args block k p = .ok (some (match sign.kind.compound? with
        | none => .assign target value (target.span.merge semicolon.span)
        | some op => .compound op target value (target.span.merge semicolon.span))) q ∧
      Takes p q (ls ++ sign :: (rs ++ [semicolon])) [] := by
  rw [List.append_assoc, List.cons_append, List.append_assoc] at htokens
  simp only [List.forall_mem_cons, List.forall_mem_append] at hfits
  simp only [List.length_cons, List.length_append] at hlen
  obtain ⟨m, hm, heq⟩ := statementOf_of_expr expr args block k htarget hsign htokens
  exact statementOf_eq_ok hm heq (assignStatement_complete hexpr htarget hsign hvalue hs
    (hm.rest htokens) hfits.1 hfits.2.2.1 (by omega))

/-- What has the form of a statement is read as one, with all of its tokens. -/
theorem statementOf_complete (hexpr : RecognisesExpr n lowest expr)
    (hargs : Recognises n args (plain ArgumentsForm) fun _ => True)
    (hblock : Recognises n block (plain BlockForm) fun _ => True) {s : Option Stmt}
    {ts : List Token} {own : List Decl} (h : StmtForm ts s own) (htokens : p.tokens = ts ++ rest)
    (hfits : ∀ t ∈ ts, t.Fits) (hrest : NoElse rest) (hlen : ts.length < n) :
    ∃ q, statementOf expr args block n p = .ok s q ∧ Takes p q ts own := by
  -- A first token that decides is looked at, and the statement is read from there.
  have hfirst : ∀ {t : Token} {more : List Token}, ts = t :: more →
      ∃ m, peek p = .ok t m ∧ Takes p m [] [] ∧ m.tokens = ts ++ rest := by
    rintro t more rfl
    obtain ⟨m, hpeek, hm⟩ := peek_of_tokens htokens
    exact ⟨m, hpeek, hm, hm.rest htokens⟩
  cases h with
  | @conditional ts s h =>
      obtain ⟨t, more, hts, hk⟩ := h.head
      obtain ⟨m, hpeek, hm, htokens⟩ := hfirst hts
      refine statementOf_eq_ok hm ?_
        (ifStatement_complete hexpr hblock hrest n h htokens hfits hlen hlen)
      rw [statementOf, bind_of_ok hpeek]
      simp only [hk]
  | @whileLoop word cs bs cond body hw hcond hbody =>
      obtain ⟨m, hpeek, hm, htokens⟩ := hfirst rfl
      rw [List.cons_append, List.append_assoc] at htokens
      simp only [List.forall_mem_cons, List.forall_mem_append] at hfits
      simp only [List.length_cons, List.length_append] at hlen
      refine statementOf_eq_ok hm ?_
        (whileStatement_complete hexpr hblock hw hcond hbody htokens hfits.2.1 hfits.2.2
          (by omega))
      rw [statementOf, bind_of_ok hpeek]
      simp only [hw]
  | @func word name bs body hw hn hbody =>
      obtain ⟨m, hpeek, hm, htokens⟩ := hfirst rfl
      simp only [List.forall_mem_cons] at hfits
      simp only [List.length_cons] at hlen
      refine statementOf_eq_ok hm ?_
        (funcStatement_complete hblock hw hn hbody htokens hfits.2.2 (by omega))
      rw [statementOf, bind_of_ok hpeek]
      simp only [hw]
  | @ret word semicolon hw hs =>
      obtain ⟨m, hpeek, hm, htokens⟩ := hfirst rfl
      refine statementOf_eq_ok hm ?_ (returnStatement_bare expr hw hs htokens)
      rw [statementOf, bind_of_ok hpeek]
      simp only [hw]
  | @retValue word semicolon ts value hw hvalue hs =>
      obtain ⟨m, hpeek, hm, htokens⟩ := hfirst rfl
      rw [List.cons_append, List.append_assoc] at htokens
      simp only [List.forall_mem_cons, List.forall_mem_append] at hfits
      simp only [List.length_cons, List.length_append] at hlen
      refine statementOf_eq_ok hm ?_
        (returnStatement_value hexpr hw hvalue hs htokens hfits.2.1 (by omega))
      rw [statementOf, bind_of_ok hpeek]
      simp only [hw]
  | @var word name semicolon hw hn hs =>
      obtain ⟨m, hpeek, hm, htokens⟩ := hfirst rfl
      obtain ⟨q, hread, hq⟩ := varStatement_bare expr hw hn hs htokens
      refine ⟨q, ?_, hm.trans hq⟩
      rw [statementOf, bind_of_ok hpeek]
      simp only [hw]
      exact hread
  | @varValue word name sign semicolon ts value hw hn hsign hvalue hs =>
      obtain ⟨m, hpeek, hm, htokens⟩ := hfirst rfl
      rw [List.cons_append, List.cons_append, List.cons_append, List.append_assoc] at htokens
      simp only [List.forall_mem_cons, List.forall_mem_append] at hfits
      simp only [List.length_cons, List.length_append] at hlen
      obtain ⟨q, hread, hq⟩ :=
        varStatement_value hexpr hw hn hsign hvalue hs htokens hfits.2.2.2.1 (by omega)
      refine ⟨q, ?_, hm.trans hq⟩
      rw [statementOf, bind_of_ok hpeek]
      simp only [hw]
      exact hread
  | @registerAlias word name sign reg semicolon r hw hn hsign hr hs =>
      obtain ⟨m, hpeek, hm, htokens⟩ := hfirst rfl
      obtain ⟨q, hread, hq⟩ := aliasStatement_complete hw hn hsign hr hs htokens
      refine ⟨q, ?_, hm.trans hq⟩
      rw [statementOf, bind_of_ok hpeek]
      simp only [hw]
      exact bind_of_ok hread
  | @intrinsic word semicolon i ts a hw ha hs =>
      obtain ⟨m, hpeek, hm, htokens⟩ := hfirst rfl
      rw [List.cons_append, List.append_assoc] at htokens
      simp only [List.forall_mem_cons, List.forall_mem_append] at hfits
      simp only [List.length_cons, List.length_append] at hlen
      refine statementOf_eq_ok hm ?_
        (intrinsicStatement_complete hargs hw ha hs htokens hfits.2.1 (by omega))
      rw [statementOf, bind_of_ok hpeek]
      simp only [hw]
  | @call name semicolon ts a hn ha hs =>
      -- The arguments start with the parenthesis that is looked for behind the name.
      rw [List.cons_append, List.append_assoc] at htokens
      simp only [List.forall_mem_cons, List.forall_mem_append] at hfits
      simp only [List.length_cons, List.length_append] at hlen
      obtain ⟨t, more, rfl, ht⟩ := ha.head
      obtain ⟨m, hm, heq⟩ := statementOf_of_name expr args block n htokens hn
      rw [if_pos (by rw [ht]; rfl)] at heq
      exact statementOf_eq_ok hm heq
        (callStatement_complete hargs hn ha hs (hm.rest htokens) hfits.2.1 (by omega))
  | @assign sign semicolon ls rs target value htarget hsign hvalue hs =>
      obtain ⟨q, hread, hq⟩ := statementOf_assignment hexpr args block n htarget
        (by rw [hsign]; rfl) hvalue hs htokens hfits hlen
      rw [hsign] at hread
      exact ⟨q, hread, hq⟩
  | @compound sign semicolon op ls rs target value htarget hop hvalue hs =>
      obtain ⟨q, hread, hq⟩ := statementOf_assignment hexpr args block n htarget
        (TokenKind.isAssignment_iff.mpr (.inr ⟨op, hop⟩)) hvalue hs htokens hfits hlen
      rw [hop] at hread
      exact ⟨q, hread, hq⟩

end Statements

end Parser

end StackCode
