/-
Programs are read by the rules of the grammar.

Statements follow each other up to a brace or the end of the text.  No statement starts
with either, nor with the `else` that an `if` before it would take.  What a block
declares is collected while its statements are read, in their order; since a nested
block sets the names of the block around it aside, each block gets just what its own
statements declare.

The main result says for a whole text when it is a program and which.
-/
import StackCode.Proofs.Recognition.Stmt

namespace StackCode

open Sequencing

namespace Parser

/-! ### Blocks

`GathersTo` is what a loop over statements does, whichever token ends it; a block and a
program differ in that only.  `NoElse` has to hold behind each statement, and it does
because no statement and no closing token is an `else` (`noElse_of_stmtsForm`).
-/

section Blocks

variable {n : Nat} {statement : Parsing (Option Stmt)}

/-- The statements of a list are followed by its end, and no statement starts with `else`. -/
theorem noElse_of_stmtsForm {ts rest : List Token} {stmts : List Stmt} {own : List Decl}
    (h : StmtsForm ts stmts own) (hrest : NoElse rest) : NoElse (ts ++ rest) := by
  cases h with
  | nil => exact hrest
  | cons hs _ =>
      obtain ⟨t, more, rfl, hk⟩ := hs.head
      refine ⟨t, _, rfl, ?_⟩
      intro helse
      simp [helse, TokenKind.startsStmt, TokenKind.startsExpr] at hk

/--
What a loop over statements takes off the stream, up to a token of the kind that
ends it: the statements that it adds to those in `done`.
-/
def GathersTo (closing : TokenKind) (done stmts : List Stmt) (p q : Parser) : Prop :=
  ∃ ts new own, stmts = done.reverse ++ new ∧ Takes p q ts own ∧ StmtsForm ts new own ∧
    ∃ t rest, q.tokens = t :: rest ∧ t.kind = closing

theorem GathersTo.stop {closing : TokenKind} {done : List Stmt} {p q : Parser} {t : Token}
    {rest : List Token} (h : Takes p q [] []) (hq : q.tokens = t :: rest)
    (ht : t.kind = closing) : GathersTo closing done done.reverse p q :=
  ⟨[], [], [], by simp, h, .nil, t, rest, hq, ht⟩

/-- One statement is read before the others. -/
theorem GathersTo.step {closing : TokenKind} {done stmts : List Stmt} {s : Option Stmt}
    {p m q : Parser} {ts : List Token} {own : List Decl} (h : Takes p m ts own)
    (hs : StmtForm ts s own) (hrest : GathersTo closing (s.toList ++ done) stmts m q) :
    GathersTo closing done stmts p q := by
  obtain ⟨ts', new, own', rfl, h', hnew, hend⟩ := hrest
  refine ⟨ts ++ ts', s.toList ++ new, own ++ own', ?_, h.trans h', .cons hs hnew, hend⟩
  cases s <;> simp

private theorem statementsUntil_sound (hstmt : Recognises n statement StmtForm NoElse)
    {closing : TokenKind} (hclosing : closing.isPlain = true) :
    ∀ (k : Nat) {done stmts : List Stmt} {p q : Parser},
      statementsUntil statement closing done k p = .ok stmts q →
      GathersTo closing done stmts p q := by
  intro k
  induction k with
  | zero =>
      intro done stmts p q h
      simp [statementsUntil, outOfFuel, fail] at h
  | succ k ih =>
      intro done stmts p q h
      rw [statementsUntil] at h
      obtain ⟨closed, m, hcheck, h⟩ := bind_eq_ok.mp h
      obtain ⟨hm, t, rest, hrest, ht⟩ := check_takes hcheck
      cases closed with
      | true =>
          obtain ⟨rfl, rfl⟩ := pure_eq_ok.mp h
          exact .stop hm hrest (by simpa using ht.symm)
      | false =>
          simp only [Bool.false_eq_true, if_false] at h
          obtain ⟨ended, m₁, heof, h⟩ := bind_eq_ok.mp h
          obtain ⟨h₁, -⟩ := check_takes heof
          cases ended with
          | true =>
              -- At the end of the text the closing token is missed.
              simp only [if_true] at h
              obtain ⟨u, m₂, hexp, -⟩ := bind_eq_ok.mp h
              obtain ⟨h₂, hu⟩ := expect_takes hexp hclosing
              have hsame : t = u := by
                have htokens := hrest.symm.trans (h₁.trans h₂).tokens
                exact (List.cons.inj htokens).1
              simp [hsame, hu] at ht
          | false =>
              obtain ⟨s, m₂, hs, h⟩ := bind_eq_ok.mp h
              obtain ⟨ts, own, h₂, hform⟩ := hstmt.sound hs
              exact .step (hm.trans (h₁.trans h₂)) hform (ih (by cases s <;> exact h))

/-- Statements up to the token that ends them are read, if fuel is left for each and the end. -/
theorem statementsUntil_complete (hstmt : Recognises n statement StmtForm NoElse)
    (closing : Token) (rest : List Token) (hclosing : closing.kind.startsStmt = false)
    (helse : closing.kind ≠ .keyword .elseWord) :
    ∀ (k : Nat) (done : List Stmt) {new : List Stmt} {p : Parser} {ts : List Token}
      {own : List Decl},
      StmtsForm ts new own → p.tokens = ts ++ closing :: rest → (∀ t ∈ ts, t.Fits) →
      ts.length < k → ts.length < n →
      ∃ q, statementsUntil statement closing.kind done k p = .ok (done.reverse ++ new) q ∧
        Takes p q ts own := by
  intro k
  induction k with
  | zero =>
      intro done new p ts own _ _ _ hk
      omega
  | succ k ih =>
      intro done new p ts own h htokens hfits hk hn
      cases h with
      | nil =>
          obtain ⟨q, hcheck, hq⟩ := check_of_tokens htokens closing.kind
          refine ⟨q, ?_, hq⟩
          rw [statementsUntil, bind_of_ok hcheck, if_pos (by simp), List.append_nil]
          rfl
      | @cons ts ts' s own own' stmts hs hstmts =>
          obtain ⟨t, more, hts, hstart⟩ := hs.head
          rw [List.append_assoc] at htokens
          simp only [List.forall_mem_append] at hfits
          simp only [List.length_append] at hk hn
          have hpos : 0 < ts.length := by simp [hts]
          have hfirst : p.tokens = t :: (more ++ (ts' ++ closing :: rest)) := by
            rw [htokens, hts]
            rfl
          -- The first token starts a statement, which neither the closing token nor the end does.
          have hnot : t.kind ≠ closing.kind := by
            intro hkind
            simp [hkind, hclosing] at hstart
          have hend : t.kind ≠ .eof := by
            intro hkind
            simp [hkind, TokenKind.startsStmt, TokenKind.startsExpr] at hstart
          obtain ⟨m₁, hcheck, h₁⟩ := check_of_tokens hfirst closing.kind
          obtain ⟨m₂, heof, h₂⟩ := check_of_tokens (h₁.rest hfirst) .eof
          have htokens₂ : m₂.tokens = ts ++ (ts' ++ closing :: rest) := h₂.rest (h₁.rest htokens)
          obtain ⟨m₃, hread, h₃⟩ := hstmt.complete hs htokens₂ hfits.1
            (noElse_of_stmtsForm hstmts ⟨closing, rest, rfl, helse⟩) (by omega)
          obtain ⟨q, hmore, h₄⟩ := ih (s.toList ++ done) hstmts (h₃.rest htokens₂)
            hfits.2 (by omega) (by omega)
          refine ⟨q, ?_, h₁.trans (h₂.trans (h₃.trans h₄))⟩
          rw [statementsUntil, bind_of_ok hcheck, if_neg (by simpa using hnot),
            bind_of_ok (x := isEof) heof, if_neg (by simpa using hend)]
          refine (bind_of_ok hread).trans ?_
          cases s <;> simpa using hmore

theorem inBlock_eq_ok {α : Type} {body : Parsing α} {p q : Parser} {a : α} {decls : List Decl} :
    inBlock body p = .ok (a, decls) q ↔
      ∃ m, body { p with declared := [] } = .ok a m ∧ decls = m.declared.reverse ∧
        q = { m with declared := p.declared } := by
  unfold inBlock
  cases body { p with declared := [] } with
  | ok b m =>
      simp only [EStateM.Result.ok.injEq, Prod.mk.injEq]
      constructor
      · rintro ⟨⟨rfl, rfl⟩, rfl⟩
        exact ⟨m, ⟨rfl, rfl⟩, rfl, rfl⟩
      · rintro ⟨_, ⟨rfl, rfl⟩, rfl, rfl⟩
        exact ⟨⟨rfl, rfl⟩, rfl⟩
  | error e m => simp

/-- What is declared in a block stays with it. -/
theorem inBlock_takes {α : Type} {body : Parsing α} {p m : Parser} {a : α} {ts : List Token}
    {own : List Decl} (hread : body { p with declared := [] } = .ok a m)
    (h : Takes { p with declared := [] } m ts own) :
    inBlock body p = .ok (a, own) { m with declared := p.declared } ∧
      Takes p { m with declared := p.declared } ts [] := by
  refine ⟨inBlock_eq_ok.mpr ⟨m, hread, ?_, rfl⟩, h.tokens, rfl, h.fits⟩
  rw [h.declared]
  simp

private theorem blockOf_recognises (hstmt : Recognises n statement StmtForm NoElse) :
    Recognises (n + 1) (blockOf statement n) (plain BlockForm) fun _ => True := by
  refine ⟨?_, ?_⟩
  · intro p q b h
    obtain ⟨opening, m₁, hopen, h⟩ := bind_eq_ok.mp h
    obtain ⟨⟨stmts, decls⟩, m₂, hbody, h⟩ := bind_eq_ok.mp h
    obtain ⟨closing, m₃, hclose, h⟩ := bind_eq_ok.mp h
    obtain ⟨rfl, rfl⟩ := pure_eq_ok.mp h
    obtain ⟨h₁, ho⟩ := expect_takes hopen rfl
    -- Inside the block declarations are counted from none, and outside they are as before.
    obtain ⟨m, hread, -, -⟩ := inBlock_eq_ok.mp hbody
    obtain ⟨ts, new, own, rfl, hin, hform, t, rest, ht, hk⟩ :=
      statementsUntil_sound hstmt rfl n hread
    obtain ⟨hin, h₂⟩ := inBlock_takes hread hin
    obtain ⟨⟨-, rfl⟩, rfl⟩ := by simpa using hbody.symm.trans hin
    obtain ⟨rfl, h₃⟩ :=
      advance_plain (p := { m with declared := m₁.declared }) ht (by rw [hk]; rfl) hclose
    exact ⟨_, [], h₁.trans (h₂.trans h₃), .braces ho hform hk, rfl⟩
  · rintro p b ts rest own ⟨hform, rfl⟩ htokens hfits - hlen
    cases hform with
    | @braces opening closing ts stmts decls ho hform hc =>
        rw [List.cons_append, List.append_assoc] at htokens
        simp only [List.forall_mem_cons, List.forall_mem_append] at hfits
        simp only [List.length_cons, List.length_append, List.length_nil] at hlen
        obtain ⟨m₁, hopen, h₁⟩ := expect_of_tokens htokens ho rfl
        have htokens₁ := h₁.rest htokens
        obtain ⟨m₂, hread, h₂⟩ := statementsUntil_complete hstmt closing rest
          (by rw [hc]; rfl) (by rw [hc]; simp) n [] (p := { m₁ with declared := [] })
          hform htokens₁ hfits.2.1 (by omega) (by omega)
        obtain ⟨hin, h₂⟩ := inBlock_takes hread h₂
        obtain ⟨q, hclose, h₃⟩ :=
          advance_plain_of_tokens (h₂.rest htokens₁) (by rw [hc]; rfl)
        refine ⟨q, ?_, h₁.trans (h₂.trans h₃)⟩
        rw [hc] at hin
        rw [blockOf, bind_of_ok (x := expectMark _) hopen, bind_of_ok hin]
        exact bind_of_ok hclose

end Blocks

/-- **A statement is read just when its tokens form one.** -/
theorem statementAt_recognises : ∀ n, Recognises n (statementAt n) StmtForm NoElse := by
  intro n
  induction n with
  | zero =>
      refine ⟨?_, fun _ _ _ _ hlen => by omega⟩
      intro p q s h
      simp [statementAt, outOfFuel, fail] at h
  | succ n ih =>
      have hexpr := exprAt_recognises (n + 1) lowest
      have hargs := argumentList_recognises hexpr
      have hblock := blockOf_recognises ih
      exact ⟨statementOf_sound hexpr hargs hblock, statementOf_complete hexpr hargs hblock⟩

/-! ### Programs

The end of the text is a token, so a program is statements up to this token.  Whether
integers fit is said of the lexemes by `Token.Fits` and of their numbers in the end
(`Token.fits_iff`).
-/

private theorem statementsToEnd_sound {n : Nat} {statement : Parsing (Option Stmt)}
    (hstmt : Recognises n statement StmtForm NoElse) :
    ∀ (k : Nat) {done stmts : List Stmt} {p q : Parser},
      statementsToEnd statement done k p = .ok stmts q → GathersTo .eof done stmts p q := by
  intro k
  induction k with
  | zero =>
      intro done stmts p q h
      simp [statementsToEnd, outOfFuel, fail] at h
  | succ k ih =>
      intro done stmts p q h
      rw [statementsToEnd] at h
      obtain ⟨ended, m, heof, h⟩ := bind_eq_ok.mp h
      obtain ⟨hm, t, rest, hrest, ht⟩ := check_takes heof
      cases ended with
      | true =>
          obtain ⟨rfl, rfl⟩ := pure_eq_ok.mp h
          exact .stop hm hrest (by simpa using ht.symm)
      | false =>
          simp only [Bool.false_eq_true, if_false] at h
          obtain ⟨stray, m₁, hcheck, h⟩ := bind_eq_ok.mp h
          obtain ⟨h₁, -⟩ := check_takes hcheck
          cases stray with
          | true => simp [unexpectedToken, fail] at h
          | false =>
              simp only [Bool.false_eq_true, if_false] at h
              obtain ⟨s, m₂, hs, h⟩ := bind_eq_ok.mp h
              obtain ⟨ts, own, h₂, hform⟩ := hstmt.sound hs
              exact .step (hm.trans (h₁.trans h₂)) hform (ih (by cases s <;> exact h))

private theorem statementsToEnd_complete {n : Nat} {statement : Parsing (Option Stmt)}
    (hstmt : Recognises n statement StmtForm NoElse) {last : Token} (hlast : last.kind = .eof) :
    ∀ (k : Nat) (done : List Stmt) {new : List Stmt} {p : Parser} {ts : List Token}
      {own : List Decl},
      StmtsForm ts new own → p.tokens = ts ++ [last] → (∀ t ∈ ts, t.Fits) →
      ts.length < k → ts.length < n →
      ∃ q, statementsToEnd statement done k p = .ok (done.reverse ++ new) q ∧
        Takes p q ts own := by
  intro k
  induction k with
  | zero =>
      intro done new p ts own _ _ _ hk
      omega
  | succ k ih =>
      intro done new p ts own h htokens hfits hk hn
      cases h with
      | nil =>
          obtain ⟨q, heof, hq⟩ := check_of_tokens htokens .eof
          refine ⟨q, ?_, hq⟩
          rw [statementsToEnd, bind_of_ok (x := isEof) heof, if_pos (by simp [hlast]),
            List.append_nil]
          rfl
      | @cons ts ts' s own own' stmts hs hstmts =>
          obtain ⟨t, more, hts, hstart⟩ := hs.head
          rw [List.append_assoc] at htokens
          simp only [List.forall_mem_append] at hfits
          simp only [List.length_append] at hk hn
          have hpos : 0 < ts.length := by simp [hts]
          have hfirst : p.tokens = t :: (more ++ (ts' ++ [last])) := by
            rw [htokens, hts]
            rfl
          -- A statement starts neither with the end nor with a stray brace.
          have hend : t.kind ≠ .eof ∧ t.kind ≠ .mark .rightBrace := by
            constructor <;> intro hkind <;>
              simp [hkind, TokenKind.startsStmt, TokenKind.startsExpr] at hstart
          obtain ⟨m₁, heof, h₁⟩ := check_of_tokens hfirst .eof
          obtain ⟨m₂, hcheck, h₂⟩ := check_of_tokens (h₁.rest hfirst) (.mark .rightBrace)
          have htokens₂ : m₂.tokens = ts ++ (ts' ++ [last]) := h₂.rest (h₁.rest htokens)
          obtain ⟨m₃, hread, h₃⟩ := hstmt.complete hs htokens₂ hfits.1
            (noElse_of_stmtsForm hstmts ⟨last, [], rfl, by simp [hlast]⟩) (by omega)
          obtain ⟨q, hmore, h₄⟩ := ih (s.toList ++ done) hstmts (h₃.rest htokens₂)
            hfits.2 (by omega) (by omega)
          refine ⟨q, ?_, h₁.trans (h₂.trans (h₃.trans h₄))⟩
          rw [statementsToEnd, bind_of_ok (x := isEof) heof, if_neg (by simpa using hend.1),
            bind_of_ok hcheck, if_neg (by simpa using hend.2)]
          refine (bind_of_ok hread).trans ?_
          cases s <;> simpa using hmore

theorem program_sound {p q : Parser} {program : Program}
    (h : Parser.program p = .ok program q) :
    ∃ first last ts rest stmts decls, p.tokens = ts ++ last :: rest ∧
      (∀ t ∈ ts, t.Fits) ∧ StmtsForm ts stmts decls ∧ last.kind = .eof ∧
      p.tokens.head? = some first ∧
      program = ⟨⟨decls, stmts, first.span.merge last.span⟩, first.span.merge last.span⟩ := by
  obtain ⟨first, m₁, hpeek, h⟩ := bind_eq_ok.mp h
  obtain ⟨n, m₂, hfuel, h⟩ := bind_eq_ok.mp h
  obtain ⟨⟨stmts, decls⟩, m₃, hbody, h⟩ := bind_eq_ok.mp h
  obtain ⟨last, m₄, hlast, h⟩ := bind_eq_ok.mp h
  obtain ⟨rfl, rfl⟩ := pure_eq_ok.mp h
  simp only [fuel, bind_eq_ok, get_eq_ok, pure_eq_ok] at hfuel
  obtain ⟨_, _, ⟨rfl, rfl⟩, rfl, rfl⟩ := hfuel
  obtain ⟨h₁, rest₁, hfirst⟩ := peek_takes hpeek
  obtain ⟨m, hread, -, -⟩ := inBlock_eq_ok.mp hbody
  obtain ⟨ts, new, own, rfl, hin, hform, t, rest, ht, hk⟩ :=
    statementsToEnd_sound (statementAt_recognises _) _ hread
  obtain ⟨hin, h₂⟩ := inBlock_takes hread hin
  obtain ⟨⟨-, rfl⟩, rfl⟩ := by simpa using hbody.symm.trans hin
  obtain ⟨h₃, rest₃, hlast⟩ := peek_takes hlast
  obtain ⟨rfl, rfl⟩ : last = t ∧ rest₃ = rest := by
    have hsame := hlast.symm.trans (h₃.tokens.symm.trans ht)
    exact List.cons.inj hsame
  refine ⟨first, last, ts, rest₃, _, _, ?_, h₂.fits, hform, hk, ?_, rfl⟩
  · rw [h₁.tokens, h₂.tokens, h₃.tokens, hlast]
    rfl
  · rw [h₁.tokens, hfirst]
    rfl

theorem tokens_ofSource (source : String) (tabWidth : Nat) :
    (ofSource source tabWidth).tokens = (Cursor.ofText source.toList tabWidth).tokens := rfl

private theorem program_complete {p : Parser} {program : Program} {ts : List Token}
    (h : ProgramForm ts program) (htokens : p.tokens = ts) (hfits : ∀ t ∈ ts, t.Fits) :
    ∃ q, Parser.program p = .ok program q := by
  cases h with
  | @toEnd first last ts stmts decls hform hlast hfirst =>
      obtain ⟨more, hmore⟩ : ∃ more, ts ++ [last] = first :: more := by
        cases hall : ts ++ [last] with
        | nil => simp at hall
        | cons t more =>
            rw [hall] at hfirst
            obtain rfl := Option.some.inj hfirst
            exact ⟨more, rfl⟩
      obtain ⟨m₁, hpeek, h₁⟩ := peek_of_tokens (htokens.trans hmore)
      have htokens₁ : m₁.tokens = ts ++ [last] := h₁.rest htokens
      have hbound : ts.length < m₁.lexer.bound + 1 := by
        have hle := Lexer.length_tokens_le m₁.lexer
        have hlength : m₁.lexer.tokens.length = ts.length + 1 := by
          rw [show m₁.lexer.tokens = ts ++ [last] from htokens₁, List.length_append]
          rfl
        omega
      obtain ⟨m₂, hread, h₂⟩ := statementsToEnd_complete (statementAt_recognises _) hlast _
        [] (p := { m₁ with declared := [] }) hform htokens₁
        (fun t ht => hfits t (List.mem_append_left _ ht)) hbound hbound
      obtain ⟨hin, h₂⟩ := inBlock_takes hread h₂
      obtain ⟨q, hlast', -⟩ := peek_of_tokens (h₂.rest htokens₁)
      refine ⟨q, ?_⟩
      have hfuel : fuel m₁ = .ok (m₁.lexer.bound + 1) m₁ := rfl
      rw [Parser.program, bind_of_ok hpeek, bind_of_ok hfuel, bind_of_ok hin]
      exact bind_of_ok hlast'

end Parser

/-- The integers of a text fit just when their numbers are in range. -/
theorem Token.fits_iff {c : Cursor} {t : Token} (ht : t ∈ c.tokens) :
    t.Fits ↔ (t.kind = .integer → t.magnitude < UInt64.size) := by
  constructor
  · intro h hk
    exact (Numeral.eq_of_literal? (h hk)).2
  · intro h hk
    rcases c.read_of_mem_tokens t ht with heof | ⟨cs, rest, hread⟩
    · simp [hk] at heof
    · rw [hk] at hread
      rw [Lexeme.literal?_of_read hread]
      exact if_pos (h hk)

/-- A text that is a program can be read to its end. -/
theorem Program.tokens_of_parse {source : String} {tabWidth : Nat} {program : Program}
    (h : Program.parse source tabWidth = .ok program) :
    ∃ ts e, (Lexer.ofString source tabWidth).tokens = ts ++ [e] ∧ e.kind = .eof := by
  unfold Program.parse at h
  split at h
  · rename_i hread
    obtain ⟨_, last, ts, rest, _, _, htokens, -, -, hlast, -⟩ := Parser.program_sound hread
    rw [Parser.tokens_ofSource] at htokens
    obtain rfl := Cursor.tokens_eof _ htokens hlast
    exact ⟨ts, last, htokens, hlast⟩
  · simp at h

/--
**A text is a program just when its tokens form one.**  Reading gives the tree that
the rules of the grammar build from the tokens, if the text can be cut into tokens, each
number is less than `2 ^ 64` and the tokens with the end of the text follow the rules,
and in no other case.
-/
theorem Program.parse_eq_ok_iff (source : String) (tabWidth : Nat) (program : Program) :
    Program.parse source tabWidth = .ok program ↔
      ∃ ts l last, (Lexer.ofString source tabWidth).drain = (ts, none, l) ∧
        Lexer.next l = .ok last l ∧
        (∀ t ∈ ts, t.kind = .integer → t.magnitude < UInt64.size) ∧
        ProgramForm (ts ++ [last]) program := by
  constructor
  · intro h
    unfold Program.parse at h
    split at h
    · rename_i read q hread
      obtain rfl := Except.ok.inj h
      obtain ⟨first, last, ts, rest, stmts, decls, htokens, hfits, hform, hlast, hfirst, rfl⟩ :=
        Parser.program_sound hread
      rw [Parser.tokens_ofSource] at htokens hfirst
      -- Nothing stands behind the end, so the tokens of the program are all there are.
      obtain rfl := Cursor.tokens_eof _ htokens hlast
      obtain ⟨l, hdrain, hnext⟩ := Lexer.drain_eq_iff.mpr ⟨htokens, hlast⟩
      refine ⟨ts, l, last, hdrain, hnext, ?_, .toEnd hform hlast ?_⟩
      · intro t ht
        have hmem : t ∈ (Cursor.ofText source.toList tabWidth).tokens := by
          rw [htokens]
          exact List.mem_append_left _ ht
        exact (Token.fits_iff hmem).mp (hfits t ht)
      · rw [← htokens]
        exact hfirst
    · simp at h
  · rintro ⟨ts, l, last, hdrain, hnext, hfits, hform⟩
    obtain ⟨htokens, hlast⟩ := Lexer.drain_eq_iff.mp ⟨l, hdrain, hnext⟩
    have hall : ∀ t ∈ ts ++ [last], t.Fits := by
      intro t ht
      refine (Token.fits_iff (c := .ofText source.toList tabWidth) ?_).mpr ?_
      · rw [← Lexer.tokens_ofText, htokens]
        exact ht
      · rcases List.mem_append.mp ht with ht | ht
        · exact hfits t ht
        · rw [List.mem_singleton.mp ht, hlast]
          simp
    obtain ⟨q, hread⟩ := Parser.program_complete (p := .ofSource source tabWidth) hform htokens hall
    rw [Program.parse, hread]

end StackCode
