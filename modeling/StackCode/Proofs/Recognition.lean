/-
Expressions are read by the rules of the grammar.

Reading is described by the tokens that it takes off the stream.  `Recognises` says of
a step that it takes just the tokens of some form, in both directions: what it takes
is of that form and has the tree that it answers with, and on tokens of the form it
does not fail.  The second half needs enough fuel, and something about what stands
behind, since a step that looks ahead may go on.

The heart of it is precedence climbing.  The grammar builds a chain of operators from
its last one; the parser builds it from its first one.  `ExprTail` is the chain in the
order of the text, and each operator in it is bounded by the one before: it is loose
enough to be left to the loop and not to the right operand that was just read.
-/
import StackCode.Proofs.Grammar
import StackCode.Proofs.Parsing

namespace StackCode

open Sequencing

/-- An integer token spells a number that fits. -/
def Token.Fits (t : Token) : Prop :=
  t.kind = .integer → Numeral.literal? t.lexeme.toList = some (.ofNat t.magnitude)

/-- A kind of token other than a number or the end of the text. -/
def TokenKind.isPlain : TokenKind → Bool
  | integer | eof => false
  | identifier | register | keyword _ | intrinsic _ | mark _ => true

theorem TokenKind.isPlain_iff {kind : TokenKind} :
    kind.isPlain = true ↔ kind ≠ .integer ∧ kind ≠ .eof := by
  cases kind <;> simp [isPlain]

theorem TokenKind.isPlain_of_unary? {kind : TokenKind} {op : Operator}
    (h : kind.unary? = some op) : kind.isPlain = true := by
  cases kind <;> simp_all [unary?, isPlain]

theorem TokenKind.isPlain_of_binary? {kind : TokenKind} {op : Operator}
    (h : kind.binary? = some op) : kind.isPlain = true := by
  cases kind <;> simp_all [binary?, isPlain]

theorem Token.fits_of_isPlain {t : Token} (h : t.kind.isPlain = true) : t.Fits :=
  fun hk => absurd hk (TokenKind.isPlain_iff.mp h).1

namespace Parser

/-- The tokens that are left, with the end of the text. -/
def tokens (p : Parser) : List Token := p.lexer.tokens

/-- From `p` to `q` the tokens `ts` were taken and `own` was declared. -/
structure Takes (p q : Parser) (ts : List Token) (own : List Decl) : Prop where
  tokens : p.tokens = ts ++ q.tokens
  declared : q.declared = own.reverse ++ p.declared
  /-- No integer among the tokens is out of range. -/
  fits : ∀ t ∈ ts, t.Fits

namespace Takes

variable {p q u : Parser} {ts ts' : List Token} {own own' : List Decl}

theorem trans (h : Takes p q ts own) (h' : Takes q u ts' own') :
    Takes p u (ts ++ ts') (own ++ own') := by
  refine ⟨?_, ?_, ?_⟩
  · rw [h.tokens, h'.tokens, List.append_assoc]
  · rw [h'.declared, h.declared]
    simp
  · intro t ht
    rcases List.mem_append.mp ht with ht | ht
    · exact h.fits t ht
    · exact h'.fits t ht

/-- What is left behind the tokens that were taken. -/
theorem rest {more : List Token} (h : Takes p q ts own) (htokens : p.tokens = ts ++ more) :
    q.tokens = more :=
  List.append_cancel_left (h.tokens.symm.trans htokens)

/-- A name is recorded on the block that is being read. -/
theorem declare (h : Takes p q ts own) (d : Decl) :
    Takes p { q with declared := d :: q.declared } ts (own ++ [d]) := by
  refine ⟨h.tokens, ?_, h.fits⟩
  show d :: q.declared = _
  rw [h.declared]
  simp

end Takes

/-! ### Tokens

Each step of the parser is described twice.  From a step that succeeded one learns which
tokens it took (`_takes`), and from the tokens that are next one learns that it succeeds
(`_of_tokens`).  Integers need a word in both directions: a parser that takes one has also
read its value.
-/

section Steps

variable {p q : Parser} {t : Token} {rest : List Token} {kind : TokenKind}

theorem peek_takes (h : peek p = .ok t q) : Takes p q [] [] ∧ ∃ rest, q.tokens = t :: rest := by
  obtain ⟨l, hstep, rfl⟩ := onLexer_eq_ok.mp h
  obtain ⟨hsame, rest, hrest⟩ := Lexer.tokens_of_peek hstep
  exact ⟨⟨hsame.symm, rfl, by simp⟩, rest, hsame.trans hrest⟩

theorem peek_of_tokens (h : p.tokens = t :: rest) : ∃ q, peek p = .ok t q ∧ Takes p q [] [] := by
  obtain ⟨l, hstep⟩ := Lexer.peek_of_tokens h
  have hpeek : peek p = .ok t { p with lexer := l } := onLexer_eq_ok.mpr ⟨l, hstep, rfl⟩
  exact ⟨_, hpeek, (peek_takes hpeek).1⟩

theorem advance_takes (h : advance p = .ok t q) (hk : t.kind ≠ .eof) (hfits : t.Fits) :
    Takes p q [t] [] := by
  obtain ⟨l, hstep, rfl⟩ := onLexer_eq_ok.mp h
  obtain ⟨rest, htokens, hrest⟩ := Lexer.tokens_of_next hstep
  refine ⟨?_, rfl, by simpa using hfits⟩
  show p.lexer.tokens = [t] ++ l.tokens
  rw [htokens, hrest hk]
  rfl

/-- The token that is taken is the one that was next. -/
theorem advance_eq (h : advance p = .ok t q) {u : Token} (hu : p.tokens = u :: rest) : t = u := by
  obtain ⟨l, hstep, rfl⟩ := onLexer_eq_ok.mp h
  obtain ⟨rest', htokens, -⟩ := Lexer.tokens_of_next hstep
  exact (List.cons.inj (htokens.symm.trans hu)).1

private theorem advance_of_tokens (h : p.tokens = t :: rest) (hk : t.kind ≠ .eof) (hfits : t.Fits) :
    ∃ q, advance p = .ok t q ∧ Takes p q [t] [] := by
  obtain ⟨l, hstep⟩ := Lexer.next_of_tokens h
  have hadv : advance p = .ok t { p with lexer := l } := onLexer_eq_ok.mpr ⟨l, hstep, rfl⟩
  exact ⟨_, hadv, advance_takes hadv hk hfits⟩

/-- A token that was looked at is taken, if it is not a number or the end. -/
theorem advance_plain {u : Token} (hu : p.tokens = u :: rest) (hk : u.kind.isPlain = true)
    (h : advance p = .ok t q) : t = u ∧ Takes p q [u] [] := by
  obtain rfl := advance_eq h hu
  exact ⟨rfl, advance_takes h (TokenKind.isPlain_iff.mp hk).2 (Token.fits_of_isPlain hk)⟩

theorem advance_plain_of_tokens (h : p.tokens = t :: rest) (hk : t.kind.isPlain = true) :
    ∃ q, advance p = .ok t q ∧ Takes p q [t] [] :=
  advance_of_tokens h (TokenKind.isPlain_iff.mp hk).2 (Token.fits_of_isPlain hk)

theorem check_takes {found : Bool} (h : check kind p = .ok found q) :
    Takes p q [] [] ∧ ∃ t rest, q.tokens = t :: rest ∧ found = (t.kind == kind) := by
  obtain ⟨t, m, hpeek, h⟩ := bind_eq_ok.mp h
  obtain ⟨rfl, rfl⟩ := pure_eq_ok.mp h
  obtain ⟨htakes, rest, hrest⟩ := peek_takes hpeek
  exact ⟨htakes, t, rest, hrest, rfl⟩

theorem check_of_tokens (h : p.tokens = t :: rest) (kind : TokenKind) :
    ∃ q, check kind p = .ok (t.kind == kind) q ∧ Takes p q [] [] := by
  obtain ⟨q, hpeek, htakes⟩ := peek_of_tokens h
  refine ⟨q, ?_, htakes⟩
  rw [check, bind_of_ok hpeek]
  rfl

theorem expect_takes (h : expect kind p = .ok t q) (hk : kind.isPlain = true) :
    Takes p q [t] [] ∧ t.kind = kind := by
  obtain ⟨u, m, hpeek, h⟩ := bind_eq_ok.mp h
  obtain ⟨hm, rest, hrest⟩ := peek_takes hpeek
  by_cases hu : u.kind = kind
  · rw [if_pos hu] at h
    obtain ⟨rfl, hq⟩ := advance_plain hrest (by rw [hu]; exact hk) h
    exact ⟨hm.trans hq, hu⟩
  · rw [if_neg hu] at h
    simp [fail] at h

theorem expect_of_tokens (h : p.tokens = t :: rest) (ht : t.kind = kind)
    (hk : kind.isPlain = true) : ∃ q, expect kind p = .ok t q ∧ Takes p q [t] [] := by
  obtain ⟨m, hpeek, hm⟩ := peek_of_tokens h
  obtain ⟨q, hadv, hq⟩ := advance_plain_of_tokens (hm.rest h) (by rw [ht]; exact hk)
  refine ⟨q, ?_, hm.trans hq⟩
  rw [expect, bind_of_ok hpeek, if_pos ht, hadv]

theorem eat_takes {found : Option Token} (h : eat kind p = .ok found q)
    (hk : kind.isPlain = true) :
    Takes p q found.toList [] ∧ (∀ t ∈ found, t.kind = kind) ∧
      (found = none → ∃ t rest, q.tokens = t :: rest ∧ t.kind ≠ kind) := by
  obtain ⟨b, m, hcheck, h⟩ := bind_eq_ok.mp h
  obtain ⟨hm, t, rest, hrest, hb⟩ := check_takes hcheck
  by_cases ht : t.kind = kind
  · obtain rfl : b = true := by simpa [ht] using hb
    simp only [if_true, bind_eq_ok, pure_eq_ok] at h
    obtain ⟨u, m', hadv, rfl, rfl⟩ := h
    obtain ⟨rfl, hq⟩ := advance_plain hrest (by rw [ht]; exact hk) hadv
    exact ⟨hm.trans hq, by simpa using ht, by simp⟩
  · obtain rfl : b = false := hb.trans (beq_false_of_ne ht)
    simp only [Bool.false_eq_true, if_false, pure_eq_ok] at h
    obtain ⟨rfl, rfl⟩ := h
    exact ⟨hm, by simp, fun _ => ⟨t, rest, hrest, ht⟩⟩

theorem eat_of_tokens (h : p.tokens = t :: rest) (ht : t.kind = kind)
    (hk : kind.isPlain = true) : ∃ q, eat kind p = .ok (some t) q ∧ Takes p q [t] [] := by
  obtain ⟨m, hcheck, hm⟩ := check_of_tokens h kind
  obtain ⟨q, hadv, hq⟩ := advance_plain_of_tokens (hm.rest h) (by rw [ht]; exact hk)
  refine ⟨q, ?_, hm.trans hq⟩
  rw [eat, bind_of_ok hcheck, if_pos (by simpa using ht), bind_of_ok hadv]
  rfl

theorem eat_none_of_tokens (h : p.tokens = t :: rest) (ht : t.kind ≠ kind) :
    ∃ q, eat kind p = .ok none q ∧ Takes p q [] [] := by
  obtain ⟨m, hcheck, hm⟩ := check_of_tokens h kind
  refine ⟨m, ?_, hm⟩
  rw [eat, bind_of_ok hcheck, if_neg (by simpa using ht)]
  rfl

theorem ident_takes {id : Ident} (h : ident p = .ok id q) :
    ∃ t, Takes p q [t] [] ∧ t.kind = .identifier ∧ id = t.ident := by
  obtain ⟨t, m, hpeek, h⟩ := bind_eq_ok.mp h
  obtain ⟨hm, rest, hrest⟩ := peek_takes hpeek
  by_cases ht : t.kind = .identifier
  · simp only [ht, if_true, bind_eq_ok, pure_eq_ok] at h
    obtain ⟨u, m', hadv, rfl, rfl⟩ := h
    obtain ⟨rfl, hq⟩ := advance_plain hrest (by rw [ht]; rfl) hadv
    exact ⟨u, hm.trans hq, ht, rfl⟩
  · rw [if_neg ht] at h
    simp [expected, fail] at h

theorem ident_of_tokens (h : p.tokens = t :: rest) (ht : t.kind = .identifier) :
    ∃ q, ident p = .ok t.ident q ∧ Takes p q [t] [] := by
  obtain ⟨m, hpeek, hm⟩ := peek_of_tokens h
  obtain ⟨q, hadv, hq⟩ := advance_plain_of_tokens (hm.rest h) (by rw [ht]; rfl)
  refine ⟨q, ?_, hm.trans hq⟩
  rw [ident, bind_of_ok hpeek, if_pos ht, bind_of_ok hadv]
  rfl

theorem declare_eq (d : Decl) (p : Parser) :
    Parser.declare d p = .ok () { p with declared := d :: p.declared } := rfl

end Steps

/-! ### Forms

`form` relates tokens to an answer and to what is declared, and `follow` is what may stand
behind.  Fuel is compared with the number of tokens: `n` is enough for any form of fewer
tokens.  An expression is followed by something that does not go on with it, and after
reading one this is known (`RecognisesExpr.stops`).
-/

/--
The step takes just the tokens of a form.  It takes them all, if there are fewer than
`n` of them and what stands behind them may follow.
-/
structure Recognises {α : Type} (n : Nat) (x : Parsing α)
    (form : List Token → α → List Decl → Prop) (follow : List Token → Prop) : Prop where
  sound : ∀ {p q : Parser} {a : α}, x p = .ok a q → ∃ ts own, Takes p q ts own ∧ form ts a own
  complete : ∀ {p : Parser} {a : α} {ts rest : List Token} {own : List Decl}, form ts a own →
    p.tokens = ts ++ rest → (∀ t ∈ ts, t.Fits) → follow rest → ts.length < n →
      ∃ q, x p = .ok a q ∧ Takes p q ts own

/-- A form that declares nothing. -/
def plain {α : Type} (form : List Token → α → Prop) (ts : List Token) (a : α)
    (own : List Decl) : Prop := form ts a ∧ own = []

/-- The next token is no operator that binds at least as tightly as the level. -/
def Stops (m : Nat) (ts : List Token) : Prop :=
  ∃ t rest, ts = t :: rest ∧ ∀ op, t.kind.binary? = some op → op.precedence < m

theorem Stops.mono {m k : Nat} {ts : List Token} (h : Stops m ts) (hm : m ≤ k) : Stops k ts := by
  obtain ⟨t, rest, rfl, hop⟩ := h
  exact ⟨t, rest, rfl, fun op h => Nat.lt_of_lt_of_le (hop op h) hm⟩

private theorem stops_tightest (t : Token) (rest : List Token) :
    Stops Operator.tightest (t :: rest) :=
  ⟨t, rest, rfl, fun _ h => Operator.precedence_lt_tightest h⟩

theorem stops_of_binary? {t : Token} (h : t.kind.binary? = none) (m : Nat) (rest : List Token) :
    Stops m (t :: rest) := by
  refine ⟨t, rest, rfl, ?_⟩
  intro op hop
  rw [h] at hop
  simp at hop

/-- The step takes an expression of a level, and all that can go on with it. -/
structure RecognisesExpr (n m : Nat) (x : Parsing Expr) : Prop
    extends Recognises n x (plain (ExprForm m)) (Stops m) where
  stops : ∀ {p q : Parser} {e : Expr}, x p = .ok e q → Stops m q.tokens

/-! ### Operands

An operand is a single token, or starts with a parenthesis or a prefix operator and goes on
with an expression that has fewer tokens.  What is read as an operand is an expression of
every level, since nothing looser is on its outside.
-/

section Operands

variable {n : Nat} {expr : Nat → Parsing Expr} {p q : Parser} {e : Expr}

/-- What is read as an operand is one at every level. -/
theorem primary_sound (hexpr : ∀ m, RecognisesExpr n m (expr m)) (h : primary expr p = .ok e q) :
    ∃ ts, Takes p q ts [] ∧ ∀ m, ExprForm m ts e := by
  obtain ⟨t, m, hpeek, h⟩ := bind_eq_ok.mp h
  obtain ⟨hm, rest, hrest⟩ := peek_takes hpeek
  generalize hk : t.kind = kind at h
  split at h
  · -- An integer is the one token that can be taken and then be refused.
    obtain ⟨u, m', hadv, h⟩ := bind_eq_ok.mp h
    obtain rfl := advance_eq hadv hrest
    generalize hvalue : Numeral.literal? u.lexeme.toList = value? at h
    cases value? with
    | none => simp [fail] at h
    | some value =>
        obtain ⟨rfl, rfl⟩ := pure_eq_ok.mp h
        obtain ⟨rfl, -⟩ := Numeral.eq_of_literal? hvalue
        have hq := advance_takes hadv (by rw [hk]; simp) fun _ => hvalue
        exact ⟨[u], hm.trans hq, fun _ => .integer hk⟩
  · obtain ⟨u, m', hadv, h⟩ := bind_eq_ok.mp h
    obtain ⟨rfl, rfl⟩ := pure_eq_ok.mp h
    obtain ⟨rfl, hq⟩ := advance_plain hrest (by rw [hk]; rfl) hadv
    exact ⟨[u], hm.trans hq, fun _ => .trueWord hk⟩
  · obtain ⟨u, m', hadv, h⟩ := bind_eq_ok.mp h
    obtain ⟨rfl, rfl⟩ := pure_eq_ok.mp h
    obtain ⟨rfl, hq⟩ := advance_plain hrest (by rw [hk]; rfl) hadv
    exact ⟨[u], hm.trans hq, fun _ => .falseWord hk⟩
  · obtain ⟨u, m', hadv, h⟩ := bind_eq_ok.mp h
    obtain ⟨rfl, hq⟩ := advance_plain hrest (by rw [hk]; rfl) hadv
    generalize hr : u.register? = r? at h
    cases r? with
    | none => simp [unexpected, fail] at h
    | some r =>
        obtain ⟨rfl, rfl⟩ := pure_eq_ok.mp h
        exact ⟨[u], hm.trans hq, fun _ => .register hr⟩
  · obtain ⟨u, m', hadv, h⟩ := bind_eq_ok.mp h
    obtain ⟨rfl, rfl⟩ := pure_eq_ok.mp h
    obtain ⟨rfl, hq⟩ := advance_plain hrest (by rw [hk]; rfl) hadv
    exact ⟨[u], hm.trans hq, fun _ => .ident hk⟩
  · obtain ⟨u, m₁, hadv, h⟩ := bind_eq_ok.mp h
    obtain ⟨inner, m₂, hinner, h⟩ := bind_eq_ok.mp h
    obtain ⟨closing, m₃, hclose, h⟩ := bind_eq_ok.mp h
    obtain ⟨rfl, rfl⟩ := pure_eq_ok.mp h
    obtain ⟨rfl, h₁⟩ := advance_plain hrest (by rw [hk]; rfl) hadv
    obtain ⟨ts, _, h₂, hform, rfl⟩ := (hexpr _).sound hinner
    obtain ⟨h₃, hc⟩ := expect_takes hclose rfl
    exact ⟨_, hm.trans (h₁.trans (h₂.trans h₃)), fun _ => .parens hk hform hc⟩
  · simp [expected, fail] at h
  · simp [unexpected, fail] at h

private theorem operand_sound (hexpr : ∀ m, RecognisesExpr n m (expr m))
    (h : operand expr p = .ok e q) :
    ∃ ts, Takes p q ts [] ∧ ∀ m, ExprForm m ts e := by
  obtain ⟨t, m, hpeek, h⟩ := bind_eq_ok.mp h
  obtain ⟨hm, rest, hrest⟩ := peek_takes hpeek
  generalize hop : t.kind.unary? = op? at h
  cases op? with
  | none =>
      obtain ⟨ts, hts, hform⟩ := primary_sound hexpr h
      exact ⟨ts, hm.trans hts, hform⟩
  | some op =>
      obtain ⟨u, m₁, hadv, h⟩ := bind_eq_ok.mp h
      obtain ⟨inner, m₂, hinner, h⟩ := bind_eq_ok.mp h
      obtain ⟨rfl, rfl⟩ := pure_eq_ok.mp h
      obtain ⟨rfl, h₁⟩ := advance_plain hrest (TokenKind.isPlain_of_unary? hop) hadv
      obtain ⟨ts, _, h₂, hform, rfl⟩ := (hexpr _).sound hinner
      exact ⟨_, hm.trans (h₁.trans h₂), fun _ => .unary hop hform⟩

/-- A token that is no prefix operator is looked at twice and then taken. -/
theorem operand_eq_primary (expr : Nat → Parsing Expr) {t : Token} {rest : List Token}
    (h : p.tokens = t :: rest) (hop : t.kind.unary? = none) (hk : t.kind ≠ .eof) (hfit : t.Fits) :
    ∃ m m' q, operand expr p = primary expr m ∧ peek m = .ok t m' ∧ advance m' = .ok t q ∧
      Takes p q [t] [] := by
  obtain ⟨m, hpeek, hm⟩ := peek_of_tokens h
  obtain ⟨m', hpeek', hm'⟩ := peek_of_tokens (hm.rest h)
  obtain ⟨q, hadv, hq⟩ := advance_of_tokens (hm'.rest (hm.rest h)) hk hfit
  refine ⟨m, m', q, ?_, hpeek', hadv, hm.trans (hm'.trans hq)⟩
  rw [operand, bind_of_ok hpeek, hop]

/-- A token that is an operand by itself is taken, and its branch of `primary` says what it is. -/
private theorem operand_of_branch {t : Token} {rest : List Token} (h : p.tokens = t :: rest)
    (hop : t.kind.unary? = none) (hk : t.kind ≠ .eof) (hfit : t.Fits)
    (hbranch : ∀ {m m'}, peek m = .ok t m' →
      primary expr m = (advance >>= fun _ => pure e) m') :
    ∃ q, operand expr p = .ok e q ∧ Takes p q [t] [] := by
  obtain ⟨m, m', q, hprim, hpeek, hadv, hq⟩ := operand_eq_primary expr h hop hk hfit
  refine ⟨q, ?_, hq⟩
  rw [hprim, hbranch hpeek, bind_of_ok hadv]
  rfl

private theorem operand_parens (hexpr : ∀ m, RecognisesExpr n m (expr m)) {opening closing : Token}
    {ts rest : List Token} (ho : opening.kind = .mark .leftParen) (he : ExprForm lowest ts e)
    (hc : closing.kind = .mark .rightParen)
    (htokens : p.tokens = opening :: (ts ++ [closing]) ++ rest)
    (hfits : ∀ t ∈ opening :: (ts ++ [closing]), t.Fits)
    (hlen : (opening :: (ts ++ [closing])).length ≤ n) :
    ∃ q, operand expr p = .ok e q ∧ Takes p q (opening :: (ts ++ [closing])) [] := by
  rw [List.cons_append, List.append_assoc] at htokens
  obtain ⟨m, m', m₁, hprim, hpeek, hadv, h₁⟩ := operand_eq_primary expr htokens
    (by rw [ho]; rfl) (by rw [ho]; simp) (hfits opening List.mem_cons_self)
  have htokens₁ : m₁.tokens = ts ++ ([closing] ++ rest) := h₁.rest htokens
  have hstop : Stops lowest ([closing] ++ rest) := stops_of_binary? (by rw [hc]; rfl) _ _
  simp only [List.length_cons, List.length_append] at hlen
  obtain ⟨m₂, hinner, h₂⟩ := (hexpr lowest).complete ⟨he, rfl⟩ htokens₁
    (fun t ht => hfits t (by simp [ht])) hstop (by omega)
  obtain ⟨q, hclose, h₃⟩ := expect_of_tokens (h₂.rest htokens₁) hc rfl
  refine ⟨q, ?_, h₁.trans (h₂.trans h₃)⟩
  rw [hprim, primary, bind_of_ok hpeek]
  simp only [ho]
  rw [bind_of_ok hadv, bind_of_ok hinner, bind_of_ok (x := expectMark _) hclose]
  rfl

private theorem operand_unary (hexpr : ∀ m, RecognisesExpr n m (expr m)) {t : Token} {op : Operator}
    {ts rest : List Token} (hop : t.kind.unary? = some op) (he : ExprForm op.precedence ts e)
    (htokens : p.tokens = t :: ts ++ rest) (hfits : ∀ u ∈ t :: ts, u.Fits) (hrest : rest ≠ [])
    (hlen : (t :: ts).length ≤ n) :
    ∃ q, operand expr p = .ok (.unary op e (t.span.merge e.span)) q ∧ Takes p q (t :: ts) [] := by
  rw [List.cons_append] at htokens
  obtain ⟨m, hpeek, hm⟩ := peek_of_tokens htokens
  obtain ⟨m₁, hadv, h₁⟩ :=
    advance_plain_of_tokens (hm.rest htokens) (TokenKind.isPlain_of_unary? hop)
  have htokens₁ : m₁.tokens = ts ++ rest := h₁.rest (hm.rest htokens)
  have hstop : Stops op.precedence rest := by
    obtain ⟨u, more, rfl⟩ := List.exists_cons_of_ne_nil hrest
    rw [Operator.precedence_of_unary? hop]
    exact stops_tightest u more
  obtain ⟨q, hinner, h₂⟩ := (hexpr op.precedence).complete ⟨he, rfl⟩ htokens₁
    (fun t ht => hfits t (by simp [ht])) hstop hlen
  refine ⟨q, ?_, hm.trans (h₁.trans h₂)⟩
  rw [operand, bind_of_ok hpeek, hop]
  dsimp only
  rw [bind_of_ok hadv, bind_of_ok hinner]
  rfl

/-- Tokens that form an operand are read as one. -/
theorem operand_complete (hexpr : ∀ m, RecognisesExpr n m (expr m)) {ts rest : List Token}
    (h : ExprForm Operator.tightest ts e) (htokens : p.tokens = ts ++ rest)
    (hfits : ∀ t ∈ ts, t.Fits) (hrest : rest ≠ []) (hlen : ts.length ≤ n) :
    ∃ q, operand expr p = .ok e q ∧ Takes p q ts [] := by
  cases h with
  | @integer _ t hk =>
      have hfit := hfits t List.mem_cons_self
      refine operand_of_branch htokens (by rw [hk]; rfl) (by rw [hk]; simp) hfit fun hpeek => ?_
      rw [primary, bind_of_ok hpeek]
      simp only [hk, hfit hk]
  | @trueWord _ t hk =>
      refine operand_of_branch htokens (by rw [hk]; rfl) (by rw [hk]; simp)
        (hfits t List.mem_cons_self) fun hpeek => ?_
      rw [primary, bind_of_ok hpeek]
      simp only [hk]
  | @falseWord _ t hk =>
      refine operand_of_branch htokens (by rw [hk]; rfl) (by rw [hk]; simp)
        (hfits t List.mem_cons_self) fun hpeek => ?_
      rw [primary, bind_of_ok hpeek]
      simp only [hk]
  | @register _ t r hr =>
      have hk := Token.kind_of_register? hr
      refine operand_of_branch htokens (by rw [hk]; rfl) (by rw [hk]; simp)
        (hfits t List.mem_cons_self) fun hpeek => ?_
      rw [primary, bind_of_ok hpeek]
      simp only [hk, hr]
  | @ident _ t hk =>
      refine operand_of_branch htokens (by rw [hk]; rfl) (by rw [hk]; simp)
        (hfits t List.mem_cons_self) fun hpeek => ?_
      rw [primary, bind_of_ok hpeek]
      simp only [hk]
      rfl
  | parens ho he hc => exact operand_parens hexpr ho he hc htokens hfits hlen
  | unary hop he => exact operand_unary hexpr hop he htokens hfits hrest hlen
  -- At the level of `tightest` no operator stands outside of parentheses.
  | binary hop hm hl hr => exact absurd (Operator.precedence_lt_tightest hop) (by omega)

end Operands

end Parser

/-! ### Chains of operators

In the grammar the last operator of a chain is at the root if all bind alike; in `climb` the
left operand grows from the first one on.  `split` takes a tree apart into its first operand
and the chain behind it, and `form` puts the two together again.  The bound in `ExprTail`
goes down from an operator to the next: what the right operand could have taken is not left
to the loop.
-/

/--
Operators with their right operands, in the order of the text, that make one expression
of another.  All of them may stand at level `m`, and the first one is below `bound`.
-/
inductive ExprTail (m : Nat) : (bound : Nat) → Expr → List Token → Expr → Prop where
  | nil {bound : Nat} {e : Expr} : ExprTail m bound e [] e
  | cons {bound : Nat} {t : Token} {op : Operator} {rs ts : List Token} {l r e : Expr}
      (hop : t.kind.binary? = some op) (hm : m ≤ op.precedence) (hbound : op.precedence < bound)
      (hr : ExprForm op.nextMin rs r)
      (htail : ExprTail m op.nextMin (.binary op l r (l.span.merge r.span)) ts e) :
      ExprTail m bound l (t :: (rs ++ ts)) e

/-- An operator goes to the end of a chain that can be its left operand. -/
theorem ExprTail.snoc {m bound : Nat} {t : Token} {op : Operator} {us rs : List Token}
    {l₀ l r : Expr} (hop : t.kind.binary? = some op) (hm : m ≤ op.precedence)
    (hr : ExprForm op.nextMin rs r) (h : ExprTail op.leftMin bound l₀ us l) :
    op.precedence < bound →
      ExprTail m bound l₀ (us ++ t :: rs) (.binary op l r (l.span.merge r.span)) := by
  induction h with
  | @nil bound l =>
      intro hbound
      have hone := ExprTail.cons (l := l) hop hm hbound hr .nil
      rwa [List.append_nil] at hone
  | @cons bound t₁ op₁ rs₁ ts l₁ r₁ e hop₁ hm₁ hbound₁ hr₁ _ ih =>
      intro _
      have hm' : m ≤ op₁.precedence := hm.trans (op.precedence_le_leftMin.trans hm₁)
      have htail := ih ((Operator.leftMin_le_iff hop₁ hop).mp hm₁)
      rw [List.cons_append, List.append_assoc]
      exact .cons hop₁ hm' hbound₁ hr₁ htail

/-- An expression is an operand and a chain of operators behind it. -/
theorem ExprForm.split {m : Nat} {ts : List Token} {e : Expr} (h : ExprForm m ts e) :
    ∃ ls us l, ts = ls ++ us ∧ ExprForm Operator.tightest ls l ∧
      ExprTail m Operator.tightest l us e := by
  induction h with
  | integer hk => exact ⟨_, [], _, rfl, .integer hk, .nil⟩
  | trueWord hk => exact ⟨_, [], _, rfl, .trueWord hk, .nil⟩
  | falseWord hk => exact ⟨_, [], _, rfl, .falseWord hk, .nil⟩
  | register hr => exact ⟨_, [], _, rfl, .register hr, .nil⟩
  | ident hk => exact ⟨_, [], _, rfl, .ident hk, .nil⟩
  | parens ho he hc _ => exact ⟨_, [], _, (List.append_nil _).symm, .parens ho he hc, .nil⟩
  | unary hop he _ => exact ⟨_, [], _, (List.append_nil _).symm, .unary hop he, .nil⟩
  | @binary m t op ls rs l r hop hm hl hr ihl _ =>
      obtain ⟨ls₀, us, l₀, rfl, hl₀, htail⟩ := ihl
      refine ⟨ls₀, us ++ t :: rs, l₀, List.append_assoc .., hl₀, ?_⟩
      exact htail.snoc hop hm hr (Operator.precedence_lt_tightest hop)

/-- An expression stays one with a chain behind it whose operators it can be the left operand of. -/
theorem ExprTail.form {m bound : Nat} {us : List Token} {l e : Expr}
    (h : ExprTail m bound l us e) :
    ∀ (ls : List Token), ExprForm m ls l →
      (∀ {kind : TokenKind} {op : Operator}, kind.binary? = some op → op.precedence < bound →
        ExprForm op.leftMin ls l) → ExprForm m (ls ++ us) e := by
  induction h with
  | nil =>
      intro ls hl _
      rwa [List.append_nil]
  | @cons bound t op rs ts l r e hop hm hbound hr _ ih =>
      intro ls _ hleft
      have hl := hleft hop hbound
      have hnext := ih (ls ++ t :: rs) (.binary hop hm hl hr) fun hop' hbound' =>
        .binary hop ((Operator.leftMin_le_iff hop hop').mpr hbound') hl hr
      rwa [List.append_assoc, List.cons_append] at hnext

namespace Parser

/-- Behind a chain stands nothing that could go on with it. -/
theorem stops_of_tail {m bound : Nat} {us rest : List Token} {l e : Expr}
    (h : ExprTail m bound l us e) (hm : m ≤ bound) (hrest : Stops m rest) :
    Stops bound (us ++ rest) := by
  cases h with
  | nil => exact hrest.mono hm
  | cons hop _ hbound _ _ =>
      refine ⟨_, _, rfl, ?_⟩
      intro op' hop'
      obtain rfl := Option.some.inj (hop.symm.trans hop')
      exact hbound

section Climbing

variable {n : Nat} {expr : Nat → Parsing Expr}

/-- What climbing takes is a chain, if the right operand before it took all that it could. -/
theorem climb_sound (hexpr : ∀ m, RecognisesExpr n m (expr m)) (min : Nat) :
    ∀ (k bound : Nat) {left e : Expr} {p q : Parser},
      (∀ t rest op, p.tokens = t :: rest → t.kind.binary? = some op → op.precedence < bound) →
      climb expr min k left p = .ok e q →
      ∃ ts, Takes p q ts [] ∧ ExprTail min bound left ts e ∧ Stops min q.tokens := by
  intro k
  induction k with
  | zero =>
      intro bound left e p q _ h
      simp [climb, outOfFuel, fail] at h
  | succ k ih =>
      intro bound left e p q hbound h
      rw [climb] at h
      obtain ⟨t, m, hpeek, h⟩ := bind_eq_ok.mp h
      obtain ⟨hm, rest, hrest⟩ := peek_takes hpeek
      generalize hop : t.kind.binary? = op? at h
      cases op? with
      | none =>
          obtain ⟨rfl, rfl⟩ := pure_eq_ok.mp h
          refine ⟨[], hm, .nil, ?_⟩
          rw [hrest]
          exact stops_of_binary? hop _ _
      | some op =>
          dsimp only at h
          by_cases hlt : op.precedence < min
          · rw [if_pos hlt] at h
            obtain ⟨rfl, rfl⟩ := pure_eq_ok.mp h
            refine ⟨[], hm, .nil, t, rest, hrest, ?_⟩
            intro op' hop'
            obtain rfl := Option.some.inj (hop.symm.trans hop')
            exact hlt
          · rw [if_neg hlt] at h
            obtain ⟨u, m₁, hadv, h⟩ := bind_eq_ok.mp h
            obtain ⟨right, m₂, hright, h⟩ := bind_eq_ok.mp h
            obtain ⟨rfl, h₁⟩ := advance_plain hrest (TokenKind.isPlain_of_binary? hop) hadv
            obtain ⟨rs, _, h₂, hform, rfl⟩ := (hexpr _).sound hright
            -- The right operand has stopped, so what follows binds less than it was read with:
            -- this is the bound for the rest of the chain.
            have hbelow : ∀ t rest op', m₂.tokens = t :: rest → t.kind.binary? = some op' →
                op'.precedence < op.nextMin := by
              obtain ⟨v, more, hmore, hstop⟩ := (hexpr _).stops hright
              intro t rest op' htokens hop'
              obtain ⟨rfl, -⟩ := List.cons.inj (hmore.symm.trans htokens)
              exact hstop op' hop'
            obtain ⟨ts, h₃, htail, hstop⟩ := ih _ hbelow h
            refine ⟨u :: (rs ++ ts), hm.trans (h₁.trans (h₂.trans h₃)), ?_, hstop⟩
            have hfirst : op.precedence < bound := by
              refine hbound u rest op ?_ hop
              rw [hm.tokens, hrest]
              rfl
            exact .cons hop (Nat.le_of_not_lt hlt) hfirst hform htail

/-- A chain that nothing goes on with is taken whole. -/
theorem climb_complete (hexpr : ∀ m, RecognisesExpr n m (expr m)) {min bound : Nat}
    {left e : Expr} {ts rest : List Token} (h : ExprTail min bound left ts e) :
    ∀ {k : Nat} {p : Parser}, p.tokens = ts ++ rest → (∀ t ∈ ts, t.Fits) → Stops min rest →
      ts.length < k → ts.length ≤ n → ∃ q, climb expr min k left p = .ok e q ∧ Takes p q ts [] := by
  induction h with
  | nil =>
      intro k p htokens _ hstop hk _
      obtain ⟨k, rfl⟩ := Nat.exists_eq_succ_of_ne_zero (Nat.ne_of_gt hk)
      obtain ⟨t, more, rfl, hbelow⟩ := hstop
      obtain ⟨q, hpeek, hq⟩ := peek_of_tokens htokens
      refine ⟨q, ?_, hq⟩
      rw [climb, bind_of_ok hpeek]
      cases hop : t.kind.binary? with
      | none => rfl
      | some op =>
          dsimp only
          rw [if_pos (hbelow op hop)]
          rfl
  | @cons bound t op rs ts l r e hop hm hbound hr htail ih =>
      intro k p htokens hfits hstop hk hn
      obtain ⟨k, rfl⟩ := Nat.exists_eq_succ_of_ne_zero (Nat.ne_of_gt (Nat.zero_lt_of_lt hk))
      rw [List.cons_append, List.append_assoc] at htokens
      simp only [List.length_cons, List.length_append] at hk hn
      obtain ⟨m, hpeek, hm'⟩ := peek_of_tokens htokens
      obtain ⟨m₁, hadv, h₁⟩ :=
        advance_plain_of_tokens (hm'.rest htokens) (TokenKind.isPlain_of_binary? hop)
      have htokens₁ : m₁.tokens = rs ++ (ts ++ rest) := h₁.rest (hm'.rest htokens)
      -- The right operand ends where the chain goes on, since the next operator is below its
      -- bound.
      have hstop₁ : Stops op.nextMin (ts ++ rest) :=
        stops_of_tail htail (hm.trans op.precedence_le_nextMin) hstop
      obtain ⟨m₂, hright, h₂⟩ := (hexpr op.nextMin).complete ⟨hr, rfl⟩ htokens₁
        (fun t ht => hfits t (by simp [ht])) hstop₁ (by omega)
      obtain ⟨q, hrest, h₃⟩ := ih (k := k) (h₂.rest htokens₁)
        (fun t ht => hfits t (by simp [ht])) hstop (by omega) (by omega)
      refine ⟨q, ?_, hm'.trans (h₁.trans (h₂.trans h₃))⟩
      rw [climb, bind_of_ok hpeek, hop]
      dsimp only
      rw [if_neg (Nat.not_lt.mpr hm), bind_of_ok hadv, bind_of_ok hright, hrest]

end Climbing

/-- **An expression is read just when its tokens form one that nothing goes on with.** -/
theorem exprAt_recognises : ∀ n m, RecognisesExpr n m (exprAt n m) := by
  intro n
  induction n with
  | zero =>
      intro m
      have hfail : ∀ {p q : Parser} {e : Expr}, exprAt 0 m p ≠ .ok e q := by
        intro p q e h
        simp [exprAt, outOfFuel, fail] at h
      exact ⟨⟨fun h => absurd h hfail, fun _ _ _ _ hlen => by omega⟩, fun h => absurd h hfail⟩
  | succ n ih =>
      intro m
      -- That reading stops is known together with soundness, from the end of the chain.
      have hsound : ∀ {p q : Parser} {e : Expr}, exprAt (n + 1) m p = .ok e q →
          ∃ ts, Takes p q ts [] ∧ ExprForm m ts e ∧ Stops m q.tokens := by
        intro p q e h
        rw [exprAt] at h
        obtain ⟨left, m₁, hleft, h⟩ := bind_eq_ok.mp h
        obtain ⟨ls, h₁, hform⟩ := operand_sound ih hleft
        obtain ⟨us, h₂, htail, hstop⟩ := climb_sound ih m n Operator.tightest
          (fun _ _ _ _ hop => Operator.precedence_lt_tightest hop) h
        exact ⟨_, h₁.trans h₂, htail.form ls (hform m) fun _ _ => hform _, hstop⟩
      refine ⟨⟨?_, ?_⟩, ?_⟩
      · intro p q e h
        obtain ⟨ts, htakes, hform, -⟩ := hsound h
        exact ⟨ts, [], htakes, hform, rfl⟩
      · rintro p e ts rest own ⟨hform, rfl⟩ htokens hfits hstop hlen
        -- The tree is taken apart as the parser reads it: the first operand, then a chain.
        obtain ⟨ls, us, left, rfl, hleft, htail⟩ := hform.split
        rw [List.append_assoc] at htokens
        obtain ⟨t, ls', rfl, -⟩ := hleft.head
        rw [List.length_append, List.length_cons] at hlen
        have hne : us ++ rest ≠ [] := by
          obtain ⟨u, more, rfl, -⟩ := hstop
          simp
        obtain ⟨m₁, hoperand, h₁⟩ := operand_complete ih hleft htokens
          (fun t ht => hfits t (List.mem_append_left _ ht)) hne (by rw [List.length_cons]; omega)
        obtain ⟨q, hclimb, h₂⟩ := climb_complete ih htail (k := n) (h₁.rest htokens)
          (fun t ht => hfits t (List.mem_append_right _ ht)) hstop (by omega) (by omega)
        refine ⟨q, ?_, h₁.trans h₂⟩
        rw [exprAt, bind_of_ok hoperand, hclimb]
      · intro p q e h
        obtain ⟨-, -, -, hstop⟩ := hsound h
        exact hstop

/-! ### Arguments

Arguments are expressions with commas between them.  A comma and a closing parenthesis are
no operators, so each of them ends the expression before it.
-/

section Arguments

variable {n : Nat} {expr : Parsing Expr}

private theorem argumentsFrom_sound (hexpr : RecognisesExpr n lowest expr) :
    ∀ (k : Nat) {done es : List Expr} {p q : Parser}, argumentsFrom expr done k p = .ok es q →
      ∃ ts new, es = done.reverse ++ new ∧ Takes p q ts [] ∧ ArgsForm ts new := by
  intro k
  induction k with
  | zero =>
      intro done es p q h
      simp [argumentsFrom, outOfFuel, fail] at h
  | succ k ih =>
      intro done es p q h
      rw [argumentsFrom] at h
      obtain ⟨e, m₁, he, h⟩ := bind_eq_ok.mp h
      obtain ⟨comma, m₂, heat, h⟩ := bind_eq_ok.mp h
      obtain ⟨ts, _, h₁, hform, rfl⟩ := hexpr.sound he
      obtain ⟨h₂, hcomma, -⟩ := eat_takes heat rfl
      cases comma with
      | none =>
          obtain ⟨rfl, rfl⟩ := pure_eq_ok.mp h
          refine ⟨ts, [e], by simp, ?_, .last hform⟩
          simpa using h₁.trans h₂
      | some comma =>
          obtain ⟨ts', new, rfl, h₃, hnew⟩ := ih h
          refine ⟨ts ++ comma :: ts', e :: new, by simp, ?_, .more hform (hcomma comma rfl) hnew⟩
          simpa using h₁.trans (h₂.trans h₃)

/-- Arguments are taken up to the parenthesis that closes them. -/
theorem argumentsFrom_complete (hexpr : RecognisesExpr n lowest expr) {ts rest : List Token}
    {new : List Expr} {closing : Token} (hc : closing.kind = .mark .rightParen)
    (h : ArgsForm ts new) :
    ∀ (k : Nat) (done : List Expr) {p : Parser}, p.tokens = ts ++ closing :: rest →
      (∀ t ∈ ts, t.Fits) → ts.length < k → ts.length < n →
      ∃ q, argumentsFrom expr done k p = .ok (done.reverse ++ new) q ∧ Takes p q ts [] := by
  induction h with
  | last he =>
      intro k done p htokens hfits hk hn
      obtain ⟨k, rfl⟩ := Nat.exists_eq_succ_of_ne_zero (Nat.ne_of_gt (Nat.zero_lt_of_lt hk))
      have hstop : Stops lowest (closing :: rest) := stops_of_binary? (by rw [hc]; rfl) _ _
      obtain ⟨m₁, hread, h₁⟩ := hexpr.complete ⟨he, rfl⟩ htokens hfits hstop hn
      obtain ⟨q, heat, h₂⟩ :=
        eat_none_of_tokens (h₁.rest htokens) (show closing.kind ≠ .mark .comma by rw [hc]; simp)
      refine ⟨q, ?_, by simpa using h₁.trans h₂⟩
      rw [argumentsFrom, bind_of_ok hread, bind_of_ok heat, ← List.reverse_cons]
      rfl
  | @more ts ts' comma e es he hcomma _ ih =>
      intro k done p htokens hfits hk hn
      obtain ⟨k, rfl⟩ := Nat.exists_eq_succ_of_ne_zero (Nat.ne_of_gt (Nat.zero_lt_of_lt hk))
      rw [List.append_assoc, List.cons_append] at htokens
      simp only [List.length_append, List.length_cons] at hk hn
      have hstop : Stops lowest (comma :: (ts' ++ closing :: rest)) :=
        stops_of_binary? (by rw [hcomma]; rfl) _ _
      obtain ⟨m₁, hread, h₁⟩ := hexpr.complete ⟨he, rfl⟩ htokens
        (fun t ht => hfits t (by simp [ht])) hstop (by omega)
      obtain ⟨m₂, heat, h₂⟩ := eat_of_tokens (h₁.rest htokens) hcomma rfl
      obtain ⟨q, hmore, h₃⟩ := ih k (e :: done) (h₂.rest (h₁.rest htokens))
        (fun t ht => hfits t (by simp [ht])) (by omega) (by omega)
      refine ⟨q, ?_, by simpa using h₁.trans (h₂.trans h₃)⟩
      rw [argumentsFrom, bind_of_ok hread, bind_of_ok heat]
      simpa using hmore

theorem argumentList_recognises (hexpr : RecognisesExpr n lowest expr) :
    Recognises n (argumentList expr n) (plain ArgumentsForm) fun _ => True := by
  refine ⟨?_, ?_⟩
  · intro p q a h
    obtain ⟨opening, m₁, hopen, h⟩ := bind_eq_ok.mp h
    obtain ⟨none?, m₂, hcheck, h⟩ := bind_eq_ok.mp h
    obtain ⟨h₁, ho⟩ := expect_takes hopen rfl
    obtain ⟨h₂, -⟩ := check_takes hcheck
    cases none? with
    | true =>
        simp only [if_true, bind_eq_ok, pure_eq_ok] at h
        obtain ⟨args, m₃, ⟨rfl, rfl⟩, closing, m₄, hclose, rfl, rfl⟩ := h
        obtain ⟨h₃, hc⟩ := expect_takes hclose rfl
        exact ⟨_, _, h₁.trans (h₂.trans h₃), .none ho hc, rfl⟩
    | false =>
        simp only [Bool.false_eq_true, if_false, bind_eq_ok, pure_eq_ok] at h
        obtain ⟨args, m₃, hargs, closing, m₄, hclose, rfl, rfl⟩ := h
        obtain ⟨ts, new, rfl, h₃, hnew⟩ := argumentsFrom_sound hexpr n hargs
        obtain ⟨h₄, hc⟩ := expect_takes hclose rfl
        exact ⟨_, _, h₁.trans (h₂.trans (h₃.trans h₄)), .some ho hnew hc, rfl⟩
  · rintro p a ts rest own ⟨hform, rfl⟩ htokens hfits - hlen
    cases hform with
    | @none opening closing ho hc =>
        obtain ⟨m₁, hopen, h₁⟩ := expect_of_tokens htokens ho rfl
        obtain ⟨m₂, hcheck, h₂⟩ := check_of_tokens (h₁.rest htokens) (.mark .rightParen)
        obtain ⟨q, hclose, h₃⟩ := expect_of_tokens (h₂.rest (h₁.rest htokens)) hc rfl
        refine ⟨q, ?_, h₁.trans (h₂.trans h₃)⟩
        rw [argumentList, bind_of_ok (x := expectMark _) hopen, bind_of_ok hcheck, hc]
        exact bind_of_ok (x := expectMark _) hclose
    | @some opening closing ts es ho hes hc =>
        rw [List.cons_append, List.append_assoc, List.singleton_append] at htokens
        simp only [List.length_cons, List.length_append, List.length_nil] at hlen
        obtain ⟨m₁, hopen, h₁⟩ := expect_of_tokens htokens ho rfl
        obtain ⟨t, ts', hts, hstart⟩ := hes.head
        have htokens₁ : m₁.tokens = ts ++ closing :: rest := h₁.rest htokens
        obtain ⟨m₂, hcheck, h₂⟩ :=
          check_of_tokens (t := t) (by rw [htokens₁, hts]; rfl) (.mark .rightParen)
        obtain ⟨m₃, hargs, h₃⟩ := argumentsFrom_complete hexpr hc hes n []
          (h₂.rest htokens₁) (fun t ht => hfits t (by simp [ht])) (by omega) (by omega)
        obtain ⟨q, hclose, h₄⟩ := expect_of_tokens (h₃.rest (h₂.rest htokens₁)) hc rfl
        refine ⟨q, ?_, h₁.trans (h₂.trans (h₃.trans h₄))⟩
        -- An argument does not start with the parenthesis that is looked for.
        have hnot : (t.kind == .mark .rightParen) = false := by
          refine beq_false_of_ne ?_
          intro hk
          simp [hk, TokenKind.startsExpr] at hstart
        rw [argumentList, bind_of_ok (x := expectMark _) hopen, bind_of_ok hcheck, hnot]
        simp only [Bool.false_eq_true, if_false]
        rw [bind_of_ok hargs]
        exact bind_of_ok (x := expectMark _) hclose

end Arguments

end Parser

end StackCode
