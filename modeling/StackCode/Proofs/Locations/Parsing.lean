/-
Parse errors point at tokens.

The parser stops at a token that it has looked at, and reports where that token stands.  The
only other error of its own is that it is out of steps.  `Keeps` follows a run, whether it
fails or not: the parser sees no tokens but those it was started with, and an error is at
one of them.  If it stops because characters are no token, they are the ones at which
reading the text stops anyway (`Cursor.Fails`).

Steps never run out.  Every construct inside another one comes after a token of the outer
one, and so does every round of a loop; with more steps than tokens before the end there is
always one left.  `Proceeds` says this of a reader: given more steps than there are tokens,
it takes at least one token or fails at one.
-/
import StackCode.Proofs.Recognition.Program

namespace StackCode

open Sequencing

/-! ### Tokens before the end

What the fuel is compared with in this file is `Parser.left`, the number of tokens that are
not the end of the text.  The end can be looked at any number of times, so it does not
count.
-/

private theorem Cursor.length_filter_tokens_le (c : Cursor) :
    (c.tokens.filter (·.kind != .eof)).length ≤ c.rest.length := by
  fun_induction tokens c with
  | case1 => simp
  | case2 c t c' hscan hk => simp [hk]
  | case3 c t c' hscan hk ih =>
      have hlt := length_lt_of_scan hscan hk
      rw [List.filter_cons_of_pos (by simpa using hk), List.length_cons]
      omega

private theorem Lexer.length_filter_tokens_le (l : Lexer) :
    (l.tokens.filter (·.kind != .eof)).length ≤ l.bound := by
  obtain ⟨ahead, c⟩ := l
  rw [tokens, bound]
  induction ahead with
  | nil =>
      rw [List.length_nil, Nat.zero_add]
      exact c.length_filter_tokens_le
  | cons t ahead ih =>
      simp only [tokensBehind, List.length_cons] at ih ⊢
      split
      · rename_i hk
        simp [hk]
      · rename_i hk
        rw [List.filter_cons_of_pos (by simpa using hk), List.length_cons]
        omega

/-! ### Characters that are no token

`Fails c e` is that reading token after token from `c` stops with `e`.  It is stated of the
cursor alone, so that it does not matter which tokens wait in front of the text or were put
back.
-/

/-- Reading tokens from the cursor on stops with this error. -/
inductive Cursor.Fails : Cursor → LexError → Prop where
  | here {c c' : Cursor} {e : LexError} (h : c.scan = (.error e, c')) : Fails c e
  | later {c c' : Cursor} {t : Token} {e : LexError} (h : c.scan = (.ok t, c'))
      (hrest : Fails c' e) : Fails c e

namespace Lexer

/-- What the step leaves fails as what it found does, and it fails itself only so. -/
structure Reads {α : Type} (step : Lexing α) (l : Lexer) : Prop where
  ok : ∀ {a : α} {l' : Lexer} {e : LexError}, step l = .ok a l' → l'.cursor.Fails e →
    l.cursor.Fails e
  error : ∀ {l' : Lexer} {e : LexError}, step l = .error e l' → l.cursor.Fails e

private theorem scan_reads (l : Lexer) : Reads scan l := by
  rcases hscan : l.cursor.scan with ⟨e | t, c⟩
  · refine ⟨fun hok => ?_, fun herror => ?_⟩
    · simp [scan_eq, hscan] at hok
    · obtain ⟨rfl, -⟩ : e = _ ∧ _ := by simpa [scan_eq, hscan] using herror
      exact .here hscan
  · refine ⟨fun hok hfails => ?_, fun herror => ?_⟩
    · obtain ⟨-, rfl⟩ : t = _ ∧ _ := by simpa [scan_eq, hscan] using hok
      exact .later hscan hfails
    · simp [scan_eq, hscan] at herror

private theorem next_reads (l : Lexer) : Reads next l := by
  obtain ⟨ahead, c⟩ := l
  cases ahead with
  | nil => exact ⟨(scan_reads ⟨[], c⟩).ok, (scan_reads ⟨[], c⟩).error⟩
  | cons t ahead =>
      refine ⟨fun hok hfails => ?_, fun herror => by cases herror⟩
      obtain ⟨-, rfl⟩ := EStateM.Result.ok.inj hok
      exact hfails

private theorem peek_reads (l : Lexer) : Reads peek l := by
  obtain ⟨ahead, c⟩ := l
  cases ahead with
  | cons t ahead =>
      refine ⟨fun hok hfails => ?_, fun herror => by cases herror⟩
      obtain ⟨-, rfl⟩ := EStateM.Result.ok.inj hok
      exact hfails
  | nil =>
      refine ⟨fun hok hfails => ?_, fun herror => ?_⟩
      · obtain ⟨c', hscan, rfl⟩ := peek_nil_eq_ok.mp hok
        exact .later hscan hfails
      · rcases bind_eq_error.mp (show readAhead ⟨[], c⟩ = _ from herror) with h | ⟨t, m, -, h⟩
        · exact (scan_reads _).error h
        · cases h

private theorem pushBack_reads (t : Token) (l : Lexer) : Reads (pushBack t) l := by
  refine ⟨fun hok hfails => ?_, fun herror => by cases herror⟩
  obtain rfl := modify_eq_ok.mp hok
  exact hfails

end Lexer

namespace Parser

/-- How many tokens there are before the end. -/
def left (p : Parser) : Nat := (p.tokens.filter (·.kind != .eof)).length

private theorem left_of_tokens {p q : Parser} (h : q.tokens = p.tokens) : q.left = p.left := by
  rw [left, left, h]

private theorem left_of_cons {p q : Parser} {t : Token} (h : p.tokens = t :: q.tokens)
    (ht : t.kind ≠ .eof) : p.left = q.left + 1 := by
  rw [left, left, h, List.filter_cons_of_pos (by simpa using ht), List.length_cons]

/-! ### Runs that keep to tokens

`Keeps` has four parts because a run has three outcomes, and the third part is for what
comes after it: a later failure to read is one of the text as it was found.  `bind` hands on
what is known of the state between, that its tokens are among those of the start and
whatever `post` says.
-/

/--
From `p` on, the step leaves tokens among `all` and answers so that `post` holds, or it
fails at one of these tokens or where reading the text does.
-/
structure Keeps {α : Type} (all : List Token) (x : Parsing α) (p : Parser)
    (post : α → Parser → Prop) : Prop where
  ok : ∀ {a : α} {q : Parser}, x p = .ok a q → q.tokens ⊆ all ∧ post a q
  error : ∀ {e : ParseError} {q : Parser}, x p = .error (.parse e) q → ∃ t ∈ all, e.span = t.span
  fails : ∀ {a : α} {q : Parser} {e : LexError}, x p = .ok a q → q.lexer.cursor.Fails e →
    p.lexer.cursor.Fails e
  lex : ∀ {e : LexError} {q : Parser}, x p = .error (.lex e) q → p.lexer.cursor.Fails e

namespace Keeps

variable {α β : Type} {all : List Token} {x : Parsing α} {p : Parser} {post : α → Parser → Prop}

theorem bind {f : α → Parsing β} {post' : β → Parser → Prop} (hx : Keeps all x p post)
    (hf : ∀ a q, q.tokens ⊆ all → post a q → Keeps all (f a) q post') :
    Keeps all (x >>= f) p post' := by
  constructor
  · intro b q h
    obtain ⟨a, m, hxm, hfm⟩ := bind_eq_ok.mp h
    obtain ⟨hm, ha⟩ := hx.ok hxm
    exact (hf a m hm ha).ok hfm
  · intro e q h
    rcases bind_eq_error.mp h with h | ⟨a, m, hxm, hfm⟩
    · exact hx.error h
    · obtain ⟨hm, ha⟩ := hx.ok hxm
      exact (hf a m hm ha).error hfm
  · intro b q e h hfails
    obtain ⟨a, m, hxm, hfm⟩ := bind_eq_ok.mp h
    obtain ⟨hm, ha⟩ := hx.ok hxm
    exact hx.fails hxm ((hf a m hm ha).fails hfm hfails)
  · intro e q h
    rcases bind_eq_error.mp h with h | ⟨a, m, hxm, hfm⟩
    · exact hx.lex h
    · obtain ⟨hm, ha⟩ := hx.ok hxm
      exact hx.fails hxm ((hf a m hm ha).lex hfm)

theorem pure (hp : p.tokens ⊆ all) {a : α} (h : post a p) : Keeps all (pure a) p post := by
  constructor
  · intro b q hok
    obtain ⟨rfl, rfl⟩ := pure_eq_ok.mp hok
    exact ⟨hp, h⟩
  · intro e q herror
    cases herror
  · intro b q e hok hfails
    obtain ⟨-, rfl⟩ := pure_eq_ok.mp hok
    exact hfails
  · intro e q herror
    cases herror

theorem map {f : α → β} {post' : β → Parser → Prop}
    (h : Keeps all x p fun a q => post' (f a) q) : Keeps all (f <$> x) p post' := by
  have hmap : ∀ {e : SourceError} {q : Parser}, (f <$> x) p = .error e q → x p = .error e q := by
    intro e q herror
    have hmap : EStateM.map f x p = .error e q := herror
    unfold EStateM.map at hmap
    cases hx : x p with
    | ok a m => simp [hx] at hmap
    | error e' m => simpa [hx] using hmap
  constructor
  · intro b q hok
    obtain ⟨a, ha, rfl⟩ := map_eq_ok.mp hok
    exact h.ok ha
  · exact fun herror => h.error (hmap herror)
  · intro b q e hok hfails
    obtain ⟨a, ha, rfl⟩ := map_eq_ok.mp hok
    exact h.fails ha hfails
  · exact fun herror => h.lex (hmap herror)

theorem imp {post' : α → Parser → Prop} (h : Keeps all x p post)
    (himp : ∀ a q, post a q → post' a q) : Keeps all x p post' :=
  ⟨fun hok => ⟨(h.ok hok).1, himp _ _ (h.ok hok).2⟩, h.error, h.fails, h.lex⟩

/-- A failure at a token that is known. -/
theorem fail {e : ParseError} {t : Token} (ht : t ∈ all) (he : e.span = t.span) :
    Keeps all (fail e : Parsing α) p post := by
  constructor
  · intro a q h
    cases h
  · intro e' q h
    have hsame : EStateM.Result.error (SourceError.parse e) p = .error (.parse e') q := h
    simp only [EStateM.Result.error.injEq, SourceError.parse.injEq] at hsame
    exact ⟨t, ht, hsame.1 ▸ he⟩
  · intro a q e' h
    cases h
  · intro e' q h
    cases h

/-- Characters that are no token make no parse error. -/
theorem onLexer {step : Lexing α} (hstep : Lexer.Reads step p.lexer)
    (h : ∀ {a : α} {q : Parser}, Parser.onLexer step p = .ok a q → q.tokens ⊆ all ∧ post a q) :
    Keeps all (Parser.onLexer step) p post := by
  refine ⟨h, ?_, ?_, ?_⟩
  · intro e q herror
    simp only [Parser.onLexer] at herror
    split at herror <;> simp at herror
  · intro a q e hok hfails
    obtain ⟨l, hread, rfl⟩ := onLexer_eq_ok.mp hok
    exact hstep.ok hread hfails
  · intro e q herror
    simp only [Parser.onLexer] at herror
    split at herror
    · cases herror
    · rename_i hread
      obtain ⟨he, -⟩ := EStateM.Result.error.inj herror
      obtain rfl := SourceError.lex.inj he
      exact hstep.error hread

end Keeps

/-! ### Tokens

One lemma for each step of the parser that touches a token, with what becomes of `left`.
Looking keeps it, taking lowers it by one, putting back raises it by one.
-/

section Steps

variable {all : List Token} {p : Parser}

private theorem peek_keeps (hp : p.tokens ⊆ all) :
    Keeps all peek p fun t q => t ∈ all ∧ q.left = p.left ∧ ∃ rest, q.tokens = t :: rest := by
  refine .onLexer (Lexer.peek_reads _) fun {t q} h => ?_
  obtain ⟨htakes, rest, hrest⟩ := peek_takes h
  have hsame : q.tokens = p.tokens := htakes.tokens.symm
  rw [hsame] at hrest ⊢
  exact ⟨hp, hp (by simp [hrest]), left_of_tokens hsame, rest, hrest⟩

/-- A token that was looked at and is not the end is taken. -/
theorem advance_keeps (hp : p.tokens ⊆ all) {t : Token} {rest : List Token}
    (hrest : p.tokens = t :: rest) (ht : t.kind ≠ .eof) :
    Keeps all advance p fun u q => u = t ∧ q.left + 1 = p.left := by
  refine .onLexer (Lexer.next_reads _) fun {u q} h => ?_
  obtain rfl := advance_eq h hrest
  obtain ⟨l, hstep, rfl⟩ := onLexer_eq_ok.mp h
  obtain ⟨rest', htokens, hl⟩ := Lexer.tokens_of_next hstep
  have hcons : p.tokens = u :: ({ p with lexer := l } : Parser).tokens := by
    have hl : l.tokens = rest' := hl ht
    rw [← hl] at htokens
    exact htokens
  refine ⟨fun v hv => hp ?_, rfl, (left_of_cons hcons ht).symm⟩
  rw [hcons]
  exact List.mem_cons_of_mem _ hv

private theorem pushBack_keeps (hp : p.tokens ⊆ all) {t : Token} (hmem : t ∈ all)
    (ht : t.kind ≠ .eof) :
    Keeps all (pushBack t) p fun _ q => q.left = p.left + 1 ∧ q.tokens = t :: p.tokens := by
  refine .onLexer (Lexer.pushBack_reads t _) fun {_ q} h => ?_
  obtain ⟨l, hstep, rfl⟩ := onLexer_eq_ok.mp h
  have hcons : ({ p with lexer := l } : Parser).tokens = t :: p.tokens :=
    Lexer.tokens_of_pushBack hstep ht
  rw [hcons]
  exact ⟨List.cons_subset.mpr ⟨hmem, hp⟩, left_of_cons hcons ht, rfl⟩

private theorem check_keeps (hp : p.tokens ⊆ all) (kind : TokenKind) :
    Keeps all (check kind) p fun found q => q.left = p.left ∧
      ∃ t rest, t ∈ all ∧ q.tokens = t :: rest ∧ found = (t.kind == kind) := by
  refine (peek_keeps hp).bind fun t q hq h => ?_
  obtain ⟨hmem, hleft, rest, hrest⟩ := h
  exact .pure hq ⟨hleft, t, rest, hmem, hrest, rfl⟩

private theorem expect_keeps (hp : p.tokens ⊆ all) {kind : TokenKind} (hk : kind ≠ .eof) :
    Keeps all (expect kind) p fun _ q => q.left + 1 = p.left := by
  refine (peek_keeps hp).bind fun t q hq h => ?_
  obtain ⟨hmem, hleft, rest, hrest⟩ := h
  split
  · rename_i hkind
    refine (advance_keeps hq hrest (by rw [hkind]; exact hk)).imp fun _ r h => ?_
    omega
  · exact .fail hmem rfl

private theorem eat_keeps (hp : p.tokens ⊆ all) {kind : TokenKind} (hk : kind ≠ .eof) :
    Keeps all (eat kind) p fun found q =>
      (found = none → q.left = p.left) ∧ (found.isSome → q.left + 1 = p.left) := by
  refine (check_keeps hp kind).bind fun found q hq h => ?_
  obtain ⟨hleft, t, rest, hmem, hrest, rfl⟩ := h
  split
  · rename_i hkind
    have hkind : t.kind = kind := by simpa using hkind
    refine (advance_keeps hq hrest (by rw [hkind]; exact hk)).bind fun u r hr h => ?_
    exact .pure hr ⟨by simp, fun _ => by omega⟩
  · exact .pure hq ⟨fun _ => hleft, by simp⟩

private theorem ident_keeps (hp : p.tokens ⊆ all) :
    Keeps all ident p fun _ q => q.left + 1 = p.left := by
  refine (peek_keeps hp).bind fun t q hq h => ?_
  obtain ⟨hmem, hleft, rest, hrest⟩ := h
  split
  · rename_i hkind
    refine (advance_keeps hq hrest (by simp [hkind])).bind fun u r hr h => .pure hr ?_
    omega
  · exact .fail hmem rfl

private theorem declare_keeps (hp : p.tokens ⊆ all) (d : Decl) :
    Keeps all (Parser.declare d) p fun _ q => q.left = p.left := by
  constructor
  · intro _ q h
    obtain rfl := modify_eq_ok.mp h
    exact ⟨hp, rfl⟩
  · intro e q h
    cases h
  · intro _ q e h hfails
    obtain rfl := modify_eq_ok.mp h
    exact hfails
  · intro e q h
    cases h

end Steps

/-! ### Expressions

The fuel of `exprAt` goes down with every nested expression, and the fuel of the loop in
`climb` with every operator.  Both are bounded by `left`, and both take a token first.
-/

section Readers

variable {all : List Token} {n : Nat}

/-- With more steps than tokens, the reader takes a token or fails at one. -/
def Proceeds {α : Type} (all : List Token) (n : Nat) (x : Parsing α) : Prop :=
  ∀ p : Parser, p.tokens ⊆ all → p.left < n → Keeps all x p fun _ q => q.left < p.left

private theorem primary_proceeds {expr : Nat → Parsing Expr}
    (hexpr : ∀ m, Proceeds all n (expr m)) :
    Proceeds all (n + 1) (primary expr) := by
  intro p hp hroom
  refine (peek_keeps hp).bind fun t q hq h => ?_
  obtain ⟨hmem, hleft, rest, hrest⟩ := h
  -- Whatever the token is, taking it leaves fewer of them.
  have htake : t.kind ≠ .eof → Keeps all advance q fun _ r => r.left < p.left := by
    intro hk
    refine (advance_keeps hq hrest hk).imp fun _ r h => ?_
    omega
  split
  · rename_i hk
    refine (htake (by simp [hk])).bind fun _ r hr h => ?_
    split
    · exact .pure hr h
    · exact .fail hmem rfl
  · rename_i hk
    exact (htake (by simp [hk])).bind fun _ r hr h => .pure hr h
  · rename_i hk
    exact (htake (by simp [hk])).bind fun _ r hr h => .pure hr h
  · rename_i hk
    refine (htake (by simp [hk])).bind fun _ r hr h => ?_
    split
    · exact .pure hr h
    · exact .fail hmem rfl
  · rename_i hk
    exact (htake (by simp [hk])).bind fun _ r hr h => .pure hr h
  · rename_i hk
    refine (htake (by simp [hk])).bind fun _ r hr h => ?_
    refine (hexpr _ r hr (by omega)).bind fun e u hu h' => ?_
    refine (expect_keeps hu (by simp)).bind fun _ v hv h'' => .pure hv ?_
    omega
  · exact .fail hmem rfl
  · exact .fail hmem rfl

private theorem operand_proceeds {expr : Nat → Parsing Expr}
    (hexpr : ∀ m, Proceeds all n (expr m)) :
    Proceeds all (n + 1) (operand expr) := by
  intro p hp hroom
  refine (peek_keeps hp).bind fun t q hq h => ?_
  obtain ⟨hmem, hleft, rest, hrest⟩ := h
  split
  · rename_i op hop
    have hk : t.kind ≠ .eof := (TokenKind.isPlain_iff.mp (TokenKind.isPlain_of_unary? hop)).2
    refine (advance_keeps hq hrest hk).bind fun _ r hr h => ?_
    refine (hexpr _ r hr (by omega)).bind fun e u hu h' => .pure hu ?_
    omega
  · refine (primary_proceeds hexpr q hq (by omega)).imp fun _ r h => ?_
    omega

private theorem climb_keeps {expr : Nat → Parsing Expr} (hexpr : ∀ m, Proceeds all n (expr m))
    (min : Nat) :
    ∀ (k : Nat) (l : Expr) (p : Parser), p.tokens ⊆ all → p.left < k → p.left ≤ n →
      Keeps all (climb expr min k l) p fun _ q => q.left ≤ p.left := by
  intro k
  induction k with
  | zero => exact fun _ _ _ h => absurd h (Nat.not_lt_zero _)
  | succ k ih =>
      intro l p hp hroom hn
      rw [climb]
      refine (peek_keeps hp).bind fun t q hq h => ?_
      obtain ⟨hmem, hleft, rest, hrest⟩ := h
      split
      · exact .pure hq hleft.le
      · rename_i op hop
        split
        · exact .pure hq hleft.le
        · have hk : t.kind ≠ .eof := (TokenKind.isPlain_iff.mp (TokenKind.isPlain_of_binary? hop)).2
          refine (advance_keeps hq hrest hk).bind fun _ r hr h => ?_
          refine (hexpr _ r hr (by omega)).bind fun e u hu h' => ?_
          refine (ih _ u hu (by omega) (by omega)).imp fun _ v h'' => ?_
          omega

private theorem exprAt_proceeds : ∀ n m : Nat, Proceeds all n (exprAt n m) := by
  intro n
  induction n with
  | zero => exact fun _ _ _ h => absurd h (Nat.not_lt_zero _)
  | succ n ih =>
      intro m p hp hroom
      rw [exprAt]
      refine (operand_proceeds ih p hp hroom).bind fun l q hq h => ?_
      refine (climb_keeps ih m n l q hq (by omega) (by omega)).imp fun _ r h' => ?_
      omega

private theorem argumentsFrom_keeps {expr : Parsing Expr} (hexpr : Proceeds all n expr) :
    ∀ (k : Nat) (done : List Expr) (p : Parser), p.tokens ⊆ all → p.left < k → p.left < n →
      Keeps all (argumentsFrom expr done k) p fun _ q => q.left < p.left := by
  intro k
  induction k with
  | zero => exact fun _ _ _ h => absurd h (Nat.not_lt_zero _)
  | succ k ih =>
      intro done p hp hroom hn
      rw [argumentsFrom]
      refine (hexpr p hp hn).bind fun e q hq h => ?_
      refine (eat_keeps hq (by simp)).bind fun found r hr h' => ?_
      cases found with
      | some _ =>
          have hcomma := h'.2 rfl
          refine (ih _ r hr (by omega) (by omega)).imp fun _ u h'' => ?_
          omega
      | none => exact .pure hr (by rw [h'.1 rfl]; exact h)

private theorem argumentList_proceeds {expr : Parsing Expr} (hexpr : Proceeds all n expr) :
    Proceeds all n (argumentList expr n) := by
  intro p hp hroom
  refine (expect_keeps hp (by simp)).bind fun opening q hq h₁ => ?_
  refine (check_keeps hq _).bind fun found r hr h₂ => ?_
  split
  · have hnone : Keeps all (pure []) r fun (_ : List Expr) u => u.left = r.left := .pure hr rfl
    refine hnone.bind fun args u hu h₃ => ?_
    refine (expect_keeps hu (by simp)).bind fun _ v hv h₄ => .pure hv ?_
    omega
  · refine (argumentsFrom_keeps hexpr n [] r hr (by omega) (by omega)).bind fun args u hu h₃ => ?_
    refine (expect_keeps hu (by simp)).bind fun _ v hv h₄ => .pure hv ?_
    omega

/-! ### Blocks

Statements of a block are read in a loop, and each takes at least one token.  The closing
token is looked at and left for `blockOf` to take.  At the end of the text the loop expects
it all the same, and fails at the end, which is a token too.
-/

/-- The names that a block declares are no concern of the tokens. -/
theorem inBlock_keeps {α : Type} {body : Parsing α} {p : Parser} {post : α → Parser → Prop}
    (h : Keeps all body { p with declared := [] } post) :
    Keeps all (inBlock body) p fun a q => ∃ r, q.tokens = r.tokens ∧ post a.1 r := by
  have hbody : ∀ {e : SourceError} {q : Parser}, inBlock body p = .error e q →
      ∃ r, body { p with declared := [] } = .error e r := by
    intro e q herror
    simp only [inBlock] at herror
    split at herror
    · cases herror
    · rename_i e' r hread
      obtain ⟨rfl, -⟩ := EStateM.Result.error.inj herror
      exact ⟨r, hread⟩
  constructor
  · intro a q hok
    obtain ⟨r, hread, -, rfl⟩ := inBlock_eq_ok.mp hok
    exact ⟨(h.ok hread).1, r, rfl, (h.ok hread).2⟩
  · intro e q herror
    obtain ⟨r, hread⟩ := hbody herror
    exact h.error hread
  · intro a q e hok hfails
    obtain ⟨r, hread, -, rfl⟩ := inBlock_eq_ok.mp hok
    exact h.fails hread hfails
  · intro e q herror
    obtain ⟨r, hread⟩ := hbody herror
    exact h.lex hread

/-- Statements are read up to the closing token, which is left standing. -/
theorem statementsUntil_keeps {statement : Parsing (Option Stmt)}
    (hstmt : Proceeds all n statement) {closing : TokenKind} (hc : closing ≠ .eof) :
    ∀ (k : Nat) (done : List Stmt) (p : Parser), p.tokens ⊆ all → p.left < k → p.left < n →
      Keeps all (statementsUntil statement closing done k) p fun _ q => q.left ≤ p.left ∧
        ∃ t rest, q.tokens = t :: rest ∧ t.kind = closing := by
  intro k
  induction k with
  | zero => exact fun _ _ _ h => absurd h (Nat.not_lt_zero _)
  | succ k ih =>
      intro done p hp hroom hn
      -- What is left of a round once it is clear that there is one: a statement, and more rounds.
      have hround : ∀ next : Option Stmt → Parsing (List Stmt),
          (∀ found, ∃ more, next found = statementsUntil statement closing more k) →
          ∀ q : Parser, q.tokens ⊆ all → q.left ≤ p.left →
            Keeps all (statement >>= next) q fun _ r => r.left ≤ p.left ∧
              ∃ t rest, r.tokens = t :: rest ∧ t.kind = closing := by
        intro next hnext q hq hle
        refine (hstmt q hq (by omega)).bind fun found r hr h₁ => ?_
        obtain ⟨more, hmore⟩ := hnext found
        rw [hmore]
        exact (ih more r hr (by omega) (by omega)).imp fun _ u h₂ => ⟨by omega, h₂.2⟩
      rw [statementsUntil]
      refine (check_keeps hp closing).bind fun found q hq h₁ => ?_
      obtain ⟨hleft, t, rest, hmem, hrest, rfl⟩ := h₁
      split
      · rename_i hkind
        exact .pure hq ⟨hleft.le, t, rest, hrest, by simpa using hkind⟩
      · refine (check_keeps hq .eof).bind fun ended r hr h₂ => ?_
        split
        · refine (expect_keeps hr hc).bind fun _ u hu h₃ => ?_
          exact hround _ (fun found => by cases found <;> exact ⟨_, rfl⟩) u hu (by omega)
        · exact hround _ (fun found => by cases found <;> exact ⟨_, rfl⟩) r hr (by omega)

private theorem blockOf_proceeds {statement : Parsing (Option Stmt)}
    (hstmt : Proceeds all n statement) :
    Proceeds all (n + 1) (blockOf statement n) := by
  intro p hp hroom
  refine (expect_keeps hp (by simp)).bind fun opening q hq h₁ => ?_
  have hbody := statementsUntil_keeps hstmt (show TokenKind.mark .rightBrace ≠ .eof by simp) n []
    { q with declared := [] } hq (show q.left < n by omega) (show q.left < n by omega)
  refine (inBlock_keeps hbody).bind fun body r hr h₂ => ?_
  obtain ⟨u, hsame, hleft, t, rest, hrest, hkind⟩ := h₂
  have hr' : r.left ≤ q.left := by
    rw [left_of_tokens hsame]
    exact hleft
  refine (advance_keeps hr (hsame.trans hrest) (by simp [hkind])).bind fun _ v hv h₃ =>
    .pure hv ?_
  omega

/-! ### Statements

Every statement starts with a token that decides its kind and takes it.  What is left for
the parts is less by one, so what is assumed of the parts is enough.
-/

section Statements

variable {expr : Parsing Expr} {args : Parsing Arguments} {block : Parsing Block}

private theorem ifStatement_keeps (hexpr : Proceeds all n expr) (hblock : Proceeds all n block) :
    ∀ (k : Nat) (p : Parser), p.tokens ⊆ all → p.left < k → p.left < n →
      Keeps all (ifStatement expr block k) p fun _ q => q.left < p.left := by
  intro k
  induction k with
  | zero => exact fun _ _ h => absurd h (Nat.not_lt_zero _)
  | succ k ih =>
      intro p hp hroom hn
      rw [ifStatement]
      refine (expect_keeps hp (by simp)).bind fun word q hq h₁ => ?_
      refine (hexpr q hq (by omega)).bind fun cond r hr h₂ => ?_
      refine (hblock r hr (by omega)).bind fun body u hu h₃ => ?_
      refine (eat_keeps hu (by simp)).bind fun found v hv h₄ => ?_
      cases found with
      | none =>
          have hleft := h₄.1 rfl
          exact .pure hv (by omega)
      | some _ =>
          have hleft := h₄.2 rfl
          refine (check_keeps hv _).bind fun chained x hx h₅ => ?_
          split
          · refine (ih x hx (by omega) (by omega)).bind fun _ y hy h₆ => .pure hy ?_
            omega
          · refine (hblock x hx (by omega)).bind fun _ y hy h₆ => .pure hy ?_
            omega

private theorem whileStatement_proceeds (hexpr : Proceeds all n expr)
    (hblock : Proceeds all n block) :
    Proceeds all n (whileStatement expr block) := by
  intro p hp hroom
  refine (expect_keeps hp (by simp)).bind fun word q hq h₁ => ?_
  refine (hexpr q hq (by omega)).bind fun cond r hr h₂ => ?_
  refine (hblock r hr (by omega)).bind fun body u hu h₃ => .pure hu ?_
  omega

private theorem funcStatement_proceeds (hblock : Proceeds all n block) :
    Proceeds all n (funcStatement block) := by
  intro p hp hroom
  refine (expect_keeps hp (by simp)).bind fun word q hq h₁ => ?_
  refine (ident_keeps hq).bind fun name r hr h₂ => ?_
  refine (declare_keeps hr _).bind fun _ u hu h₃ => ?_
  refine (hblock u hu (by omega)).bind fun body v hv h₄ => .pure hv ?_
  omega

private theorem returnStatement_proceeds (hexpr : Proceeds all n expr) :
    Proceeds all n (returnStatement expr) := by
  intro p hp hroom
  refine (expect_keeps hp (by simp)).bind fun word q hq h₁ => ?_
  refine (check_keeps hq _).bind fun bare r hr h₂ => ?_
  split
  · have hnone : Keeps all (pure none) r fun (_ : Option Expr) u => u.left = r.left :=
      .pure hr rfl
    refine hnone.bind fun _ u hu h₃ => ?_
    refine (expect_keeps hu (by simp)).bind fun _ v hv h₄ => .pure hv ?_
    omega
  · have hvalue : Keeps all (some <$> expr) r fun _ u => u.left < r.left :=
      .map (hexpr r hr (by omega))
    refine hvalue.bind fun _ u hu h₃ => ?_
    refine (expect_keeps hu (by simp)).bind fun _ v hv h₄ => .pure hv ?_
    omega

private theorem varStatement_proceeds (hexpr : Proceeds all n expr) :
    Proceeds all n (varStatement expr) := by
  intro p hp hroom
  refine (expect_keeps hp (by simp)).bind fun word q hq h₁ => ?_
  refine (ident_keeps hq).bind fun name r hr h₂ => ?_
  refine (declare_keeps hr _).bind fun _ u hu h₃ => ?_
  refine (eat_keeps hu (by simp)).bind fun found v hv h₄ => ?_
  cases found with
  | none =>
      have hleft := h₄.1 rfl
      refine (expect_keeps hv (by simp)).bind fun _ x hx h₅ => .pure hx ?_
      omega
  | some _ =>
      have hleft := h₄.2 rfl
      refine (hexpr v hv (by omega)).bind fun value x hx h₅ => ?_
      refine (expect_keeps hx (by simp)).bind fun _ y hy h₆ => .pure hy ?_
      omega

private theorem aliasStatement_proceeds : Proceeds all n aliasStatement := by
  intro p hp hroom
  refine (expect_keeps hp (by simp)).bind fun word q hq h₁ => ?_
  refine (ident_keeps hq).bind fun name r hr h₂ => ?_
  refine (expect_keeps hr (by simp)).bind fun _ u hu h₃ => ?_
  refine (peek_keeps hu).bind fun t v hv h₄ => ?_
  obtain ⟨hmem, hleft, rest, hrest⟩ := h₄
  split
  · exact .fail hmem rfl
  · rename_i reg hreg
    have hk : t.kind ≠ .eof := by simp [Token.kind_of_register? hreg]
    refine (advance_keeps hv hrest hk).bind fun _ x hx h₅ => ?_
    refine (expect_keeps hx (by simp)).bind fun _ y hy h₆ => ?_
    refine (declare_keeps hy _).imp fun _ z h₇ => ?_
    omega

/-- An intrinsic is read where one was looked at. -/
theorem intrinsicStatement_keeps (hargs : Proceeds all n args) {p : Parser} {t : Token}
    {rest : List Token} (hp : p.tokens ⊆ all) (hroom : p.left < n) (hrest : p.tokens = t :: rest)
    (ht : t.kind ≠ .eof) :
    Keeps all (intrinsicStatement args) p fun _ q => q.left < p.left := by
  refine (advance_keeps hp hrest ht).bind fun word q hq h₁ => ?_
  split
  · have hmem : word ∈ all := by
      rw [h₁.1]
      exact hp (by simp [hrest])
    exact .fail hmem rfl
  · refine (hargs q hq (by omega)).bind fun _ r hr h₂ => ?_
    refine (expect_keeps hr (by simp)).bind fun _ u hu h₃ => .pure hu ?_
    omega

private theorem callStatement_proceeds (hargs : Proceeds all n args) :
    Proceeds all n (callStatement args) := by
  intro p hp hroom
  refine (ident_keeps hp).bind fun name q hq h₁ => ?_
  refine (hargs q hq (by omega)).bind fun _ r hr h₂ => ?_
  refine (expect_keeps hr (by simp)).bind fun _ u hu h₃ => .pure hu ?_
  omega

private theorem assignStatement_proceeds (hexpr : Proceeds all n expr) :
    Proceeds all n (assignStatement expr) := by
  intro p hp hroom
  refine (hexpr p hp hroom).bind fun target q hq h₁ => ?_
  refine (peek_keeps hq).bind fun sign r hr h₂ => ?_
  obtain ⟨hmem, hleft, rest, hrest⟩ := h₂
  split
  · rename_i hsign
    have hk : sign.kind ≠ .eof := by
      intro hk
      rw [hk] at hsign
      cases hsign
    refine (advance_keeps hr hrest hk).bind fun _ u hu h₃ => ?_
    refine (hexpr u hu (by omega)).bind fun value v hv h₄ => ?_
    refine (expect_keeps hv (by simp)).bind fun _ x hx h₅ => ?_
    split
    · exact .pure hx (by omega)
    · exact .pure hx (by omega)
  · exact .fail hmem rfl

private theorem statementOf_proceeds (hexpr : Proceeds all n expr) (hargs : Proceeds all n args)
    (hblock : Proceeds all n block) : Proceeds all n (statementOf expr args block n) := by
  intro p hp hroom
  refine (peek_keeps hp).bind fun t q hq h₁ => ?_
  obtain ⟨hmem, hleft, rest, hrest⟩ := h₁
  have hsome : ∀ {x : Parsing Stmt}, Keeps all x q (fun _ r => r.left < q.left) →
      Keeps all (some <$> x) q fun _ r => r.left < p.left := by
    intro x hx
    refine .map (hx.imp fun _ r h => ?_)
    omega
  have hroom' : q.left < n := by omega
  split
  · exact hsome (ifStatement_keeps hexpr hblock n q hq hroom' hroom')
  · exact hsome (whileStatement_proceeds hexpr hblock q hq hroom')
  · exact hsome (funcStatement_proceeds hblock q hq hroom')
  · exact hsome (returnStatement_proceeds hexpr q hq hroom')
  · rw [← hleft]
    exact varStatement_proceeds hexpr q hq hroom'
  · refine (aliasStatement_proceeds q hq hroom').bind fun _ r hr h₂ => .pure hr ?_
    omega
  · rename_i i hk
    exact hsome (intrinsicStatement_keeps hargs hq hroom' hrest (by simp [hk]))
  · rename_i hk
    have hk : t.kind ≠ .eof := by simp [hk]
    refine (advance_keeps hq hrest hk).bind fun name r hr h₂ => ?_
    -- The name is put back, so the statement has all of its tokens before it again.
    obtain ⟨rfl, h₂⟩ := h₂
    refine (check_keeps hr _).bind fun isCall u hu h₃ => ?_
    refine (pushBack_keeps hu hmem hk).bind fun _ v hv h₄ => ?_
    have hv' : v.left < n := by omega
    split
    · refine .map ((callStatement_proceeds hargs v hv hv').imp fun _ x h => ?_)
      omega
    · refine .map ((assignStatement_proceeds hexpr v hv hv').imp fun _ x h => ?_)
      omega
  · rename_i hk
    refine (advance_keeps hq hrest (by simp [hk])).bind fun _ r hr h₂ => ?_
    exact .fail hmem rfl
  · exact hsome (assignStatement_proceeds hexpr q hq hroom')

end Statements

private theorem statementAt_proceeds : ∀ n : Nat, Proceeds all n (statementAt n) := by
  intro n
  induction n with
  | zero => exact fun _ _ h => absurd h (Nat.not_lt_zero _)
  | succ n ih =>
      rw [statementAt]
      exact statementOf_proceeds (exprAt_proceeds _ _) (argumentList_proceeds (exprAt_proceeds _ _))
        (blockOf_proceeds ih)

/-! ### Programs

A program is read with `bound + 1` steps, and there are fewer tokens than that.  So being
out of steps, which would blame no token, does not happen.
-/

private theorem statementsToEnd_keeps {statement : Parsing (Option Stmt)}
    (hstmt : Proceeds all n statement) :
    ∀ (k : Nat) (done : List Stmt) (p : Parser), p.tokens ⊆ all → p.left < k → p.left < n →
      Keeps all (statementsToEnd statement done k) p fun _ _ => True := by
  intro k
  induction k with
  | zero => exact fun _ _ _ h => absurd h (Nat.not_lt_zero _)
  | succ k ih =>
      intro done p hp hroom hn
      rw [statementsToEnd]
      refine (check_keeps hp .eof).bind fun ended q hq h₁ => ?_
      split
      · exact .pure hq trivial
      · refine (check_keeps hq _).bind fun stray r hr h₂ => ?_
        obtain ⟨hleft, t, rest, hmem, hrest, rfl⟩ := h₂
        split
        · rename_i hk
          have hk : t.kind ≠ .eof := by
            have hk : t.kind = .mark .rightBrace := by simpa using hk
            simp [hk]
          refine (advance_keeps hr hrest hk).bind fun u v hv h₃ => ?_
          obtain ⟨rfl, -⟩ := h₃
          have hstop : Keeps all (unexpectedToken u) v fun (_ : Unit) _ => False :=
            .fail hmem rfl
          exact hstop.bind fun _ _ _ h => h.elim
        · refine (hstmt r hr (by omega)).bind fun found u hu h₃ => ?_
          cases found with
          | some s => exact ih _ u hu (by omega) (by omega)
          | none => exact ih _ u hu (by omega) (by omega)

private theorem program_keeps (p : Parser) : Keeps p.tokens program p fun _ _ => True := by
  refine (peek_keeps (List.Subset.refl _)).bind fun first q hq h₁ => ?_
  have hfuel : Keeps p.tokens fuel q fun n r => r = q ∧ n = q.lexer.bound + 1 := by
    constructor
    · intro n r hok
      obtain ⟨rfl, rfl⟩ := EStateM.Result.ok.inj hok
      exact ⟨hq, rfl, rfl⟩
    · intro e r herror
      cases herror
    · intro n r e hok hfails
      obtain ⟨-, rfl⟩ := EStateM.Result.ok.inj hok
      exact hfails
    · intro e r herror
      cases herror
  refine hfuel.bind fun n r hr h₂ => ?_
  obtain ⟨rfl, rfl⟩ := h₂
  have hroom : r.left < r.lexer.bound + 1 := Nat.lt_succ_of_le r.lexer.length_filter_tokens_le
  have hbody := statementsToEnd_keeps (statementAt_proceeds (r.lexer.bound + 1))
    (r.lexer.bound + 1) [] { r with declared := [] } hr hroom hroom
  refine (inBlock_keeps hbody).bind fun body u hu _ => ?_
  exact (peek_keeps hu).bind fun last v hv _ => .pure hv trivial

end Readers

end Parser

/-- **A parse error is at a token of the text.** -/
theorem Program.mem_tokens_of_parse_error {source : String} {tabWidth : Nat} {e : ParseError}
    (h : Program.parse source tabWidth = .error (.parse e)) :
    ∃ t ∈ (Lexer.ofString source tabWidth).tokens, e.span = t.span := by
  unfold Program.parse at h
  split at h
  · cases h
  · rename_i e' q hread
    obtain rfl := Except.error.inj h
    exact (Parser.program_keeps _).error hread

/-- **Characters that are no token are reported where reading the text stops.** -/
theorem Program.fails_of_lex_error {source : String} {tabWidth : Nat} {e : LexError}
    (h : Program.parse source tabWidth = .error (.lex e)) :
    (Cursor.ofText source.toList tabWidth).Fails e := by
  unfold Program.parse at h
  split at h
  · cases h
  · rename_i e' q hread
    obtain rfl := Except.error.inj h
    exact (Parser.program_keeps _).lex hread

end StackCode
