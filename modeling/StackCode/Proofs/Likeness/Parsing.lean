/-
Texts with the same tokens are read alike.

The parser looks at a token for its kind and its lexeme and keeps its span, so two texts
with the same tokens take the same turns.  The one thing that differs is the fuel, which
depends on the length of the text; it has to be shown that neither run needs more than it
has.  The fuel is compared with the number of tokens that are left, and whatever goes round
a loop or into a nested construct takes a token first.

`Reads M m` relates two parsers with at most `m` tokens left, and `TakesAlike M m` two steps
that end alike and leave at least one token less.  So `m` goes down where the fuel does, and
a lemma about a loop holds for any two amounts of fuel that are at least `m`.
-/
import StackCode.Proofs.Likeness
import StackCode.Proofs.Lockstep
import StackCode.Proofs.Recognition

namespace StackCode

open Sequencing

/-- Errors that differ in their places only. -/
def SourceError.Same (e e' : SourceError) : Prop := e.unplaced = e'.unplaced

namespace Parser

/-- Two parsers with the same tokens left, at most `m` of them, and the same names declared. -/
structure Reads (M : Matching) (m : Nat) (p p' : Parser) : Prop where
  tokens : List.Forall₂ (TokenAlike M) p.tokens p'.tokens
  declared : List.Forall₂ (DeclAlike M) p.declared p'.declared
  /-- The texts have no bad characters. -/
  ended : ∃ ts e, p.tokens = ts ++ [e] ∧ e.kind = .eof
  room : p.tokens.length ≤ m

/-- Two parsers of which it is known what token is next. -/
structure Facing (M : Matching) (m : Nat) (next : Token → Prop) (p p' : Parser) : Prop
    extends Reads M m p p' where
  faces : ∃ t rest, p.tokens = t :: rest ∧ next t

/-- From parsers with the same tokens two steps end alike, and take at least one token. -/
def TakesAlike {α : Type} (M : Matching) (m : Nat) (x x' : Parsing α) (answer : α → α → Prop) :
    Prop :=
  ∀ j, j < m → Lockstep SourceError.Same (Reads M (j + 1)) x x' answer (Reads M j)

/-! ### Parsers side by side

The end of the text is among the tokens (`Reads.ended`), so there always is a next one to look
at, and it is the same on both sides.  After a look it is known which token is next, and
`Facing` has that until the token is taken.
-/

section States

variable {M : Matching} {m j k : Nat} {p p' q q' : Parser}

theorem Reads.mono (h : Reads M m p p') (hm : m ≤ k) : Reads M k p p' :=
  { h with room := h.room.trans hm }

theorem Facing.mono {next : Token → Prop} (h : Facing M m next p p') (hm : m ≤ k) :
    Facing M k next p p' :=
  ⟨h.toReads.mono hm, h.faces⟩

/-- There always is a next token. -/
theorem Reads.exists_next (h : Reads M m p p') :
    ∃ t t' rest rest', p.tokens = t :: rest ∧ p'.tokens = t' :: rest' ∧ TokenAlike M t t' ∧
      List.Forall₂ (TokenAlike M) rest rest' := by
  obtain ⟨ts, e, hts, -⟩ := h.ended
  have htokens := h.tokens
  generalize p.tokens = us, p'.tokens = us' at hts htokens
  cases htokens with
  | nil => simp at hts
  | cons ht hrest => exact ⟨_, _, _, _, rfl, rfl, ht, hrest⟩

private theorem Reads.pos (h : Reads M m p p') : 0 < m := by
  obtain ⟨t, t', rest, rest', htokens, -⟩ := h.exists_next
  have hroom := h.room
  rw [htokens, List.length_cons] at hroom
  omega

/-- A look at the next token leaves the same tokens. -/
theorem Reads.of_takes (h : Reads M m p p') (hq : Takes p q [] []) (hq' : Takes p' q' [] []) :
    Reads M m q q' := by
  have htokens : p.tokens = q.tokens := hq.tokens
  have htokens' : p'.tokens = q'.tokens := hq'.tokens
  have hdeclared : q.declared = p.declared := hq.declared
  have hdeclared' : q'.declared = p'.declared := hq'.declared
  refine ⟨?_, ?_, ?_, ?_⟩
  · rw [← htokens, ← htokens']
    exact h.tokens
  · rw [hdeclared, hdeclared']
    exact h.declared
  · rw [← htokens]
    exact h.ended
  · rw [← htokens]
    exact h.room

private theorem Reads.with_declared (h : Reads M m p p') {d d' : List Decl}
    (hd : List.Forall₂ (DeclAlike M) d d') :
    Reads M m { p with declared := d } { p' with declared := d' } :=
  { h with declared := hd }

end States

/-! ### Rules

Looking at a token keeps `m`, taking one lowers it.  The end of the text is never taken, and
each of the rules that take a token asks for a reason why it is another one.
-/

section Rules

variable {α β : Type} {M : Matching} {m j k : Nat} {x x' : Parsing α} {answer : α → α → Prop}

/-- The same without the count. -/
theorem TakesAlike.lax (h : TakesAlike M m x x' answer) (hj : j ≤ m) :
    Lockstep SourceError.Same (Reads M j) x x' answer (Reads M j) := by
  cases j with
  | zero =>
      intro p p' hp
      exact absurd hp.pos (Nat.lt_irrefl 0)
  | succ j => exact Lockstep.conseq (h j hj) id id fun hq => hq.mono (Nat.le_succ j)

private theorem fail_lockstep {pre post : Parser → Parser → Prop} {e e' : ParseError}
    (he : e.unplaced = e'.unplaced) :
    Lockstep SourceError.Same pre (fail e) (fail e') answer post := by
  refine .throw ?_
  show SourceError.parse e.unplaced = SourceError.parse e'.unplaced
  rw [he]

private theorem pure_lockstep {a a' : α} (ha : answer a a') :
    Lockstep SourceError.Same (Reads M j) (pure a : Parsing α) (pure a') answer (Reads M j) :=
  .pure ha id

/-- A look at the next token. -/
theorem peek_bind {f f' : Token → Parsing β} {answer : β → β → Prop}
    {post : Parser → Parser → Prop}
    (hf : ∀ {t t'}, TokenAlike M t t' →
      Lockstep SourceError.Same (Facing M m (· = t)) (f t) (f' t') answer post) :
    Lockstep SourceError.Same (Reads M m) (peek >>= f) (peek >>= f') answer post := by
  intro p p' hp
  obtain ⟨t, t', rest, rest', htokens, htokens', ht, -⟩ := hp.exists_next
  obtain ⟨q, hpeek, hq⟩ := peek_of_tokens htokens
  obtain ⟨q', hpeek', hq'⟩ := peek_of_tokens htokens'
  rw [bind_of_ok hpeek, bind_of_ok hpeek']
  exact hf ht ⟨hp.of_takes hq hq', t, rest, hq.rest htokens, rfl⟩

/-- The next token is taken, if it is not the end of the text. -/
theorem advance_lockstep {next : Token → Prop} (hnext : ∀ t, next t → t.kind ≠ .eof) :
    Lockstep SourceError.Same (Facing M (m + 1) next) advance advance
      (fun t t' => TokenAlike M t t' ∧ next t) (Reads M m) := by
  intro p p' hp
  obtain ⟨t, rest, htokens, ht⟩ := hp.faces
  obtain ⟨u, t', more, rest', hmore, htokens', halike, hrest⟩ := hp.exists_next
  obtain ⟨rfl, rfl⟩ := List.cons.inj (htokens.symm.trans hmore)
  obtain ⟨l, hstep⟩ := Lexer.next_of_tokens htokens
  obtain ⟨l', hstep'⟩ := Lexer.next_of_tokens htokens'
  have hk := hnext t ht
  -- What is left is the rest of the tokens on either side.
  have hl : l.tokens = rest := by
    obtain ⟨more, hmore, hl⟩ := Lexer.tokens_of_next hstep
    rw [hl hk]
    exact (List.cons.inj (hmore.symm.trans htokens)).2
  have hl' : l'.tokens = rest' := by
    obtain ⟨more, hmore, hl'⟩ := Lexer.tokens_of_next hstep'
    rw [hl' (by rw [← halike.kind]; exact hk)]
    exact (List.cons.inj (hmore.symm.trans htokens')).2
  have hadv : advance p = .ok t { p with lexer := l } := onLexer_eq_ok.mpr ⟨l, hstep, rfl⟩
  have hadv' : advance p' = .ok t' { p' with lexer := l' } := onLexer_eq_ok.mpr ⟨l', hstep', rfl⟩
  rw [hadv, hadv']
  refine .ok ⟨halike, ht⟩ ⟨?_, hp.declared, ?_, ?_⟩
  · show List.Forall₂ (TokenAlike M) l.tokens l'.tokens
    rw [hl, hl']
    exact hrest
  · obtain ⟨ts, e, hts, he⟩ := hp.ended
    rw [htokens] at hts
    cases ts with
    | nil =>
        obtain ⟨rfl, -⟩ := List.cons.inj hts
        exact absurd he hk
    | cons u ts => exact ⟨ts, e, hl.trans (List.cons.inj hts).2, he⟩
  · have hroom := hp.room
    rw [htokens, List.length_cons] at hroom
    show l.tokens.length ≤ m
    rw [hl]
    omega

/-- What is known of the next token may be dropped. -/
theorem of_reads {next : Token → Prop} {post : Parser → Parser → Prop}
    (h : Lockstep SourceError.Same (Reads M m) x x' answer post) :
    Lockstep SourceError.Same (Facing M m next) x x' answer post :=
  h.conseq (fun hp => hp.toReads) id id

private theorem check_bind {f f' : Bool → Parsing β} {answer : β → β → Prop}
    {post : Parser → Parser → Prop} {kind : TokenKind}
    (hf : ∀ b, Lockstep SourceError.Same (Facing M m fun t => b = (t.kind == kind)) (f b) (f' b)
      answer post) :
    Lockstep SourceError.Same (Reads M m) (check kind >>= f) (check kind >>= f') answer post := by
  intro p p' hp
  obtain ⟨t, t', rest, rest', htokens, htokens', ht, -⟩ := hp.exists_next
  obtain ⟨q, hcheck, hq⟩ := check_of_tokens htokens kind
  obtain ⟨q', hcheck', hq'⟩ := check_of_tokens htokens' kind
  rw [bind_of_ok hcheck, bind_of_ok hcheck', ← ht.kind]
  exact hf _ ⟨hp.of_takes hq hq', t, rest, hq.rest htokens, rfl⟩

private theorem expect_alike {kind : TokenKind} (hk : kind ≠ .eof) :
    TakesAlike M m (expect kind) (expect kind) (TokenAlike M) := by
  intro j _
  refine peek_bind fun {t t'} ht => ?_
  by_cases hkind : t.kind = kind
  · rw [if_pos hkind, if_pos (ht.kind.symm.trans hkind)]
    refine Lockstep.conseq (advance_lockstep ?_) id And.left id
    rintro u rfl
    rw [hkind]
    exact hk
  · rw [if_neg hkind, if_neg fun h => hkind (ht.kind.trans h)]
    refine fail_lockstep ?_
    rw [ht.describe]
    rfl

/-- A token that was looked at is taken, and nothing more is asked about it. -/
theorem advance_bind {t : Token} (ht : t.kind ≠ .eof) {f f' : Token → Parsing β}
    {answer : β → β → Prop} {post : Parser → Parser → Prop}
    (hf : ∀ {u'}, TokenAlike M t u' →
      Lockstep SourceError.Same (Reads M m) (f t) (f' u') answer post) :
    Lockstep SourceError.Same (Facing M (m + 1) (· = t)) (advance >>= f) (advance >>= f') answer
      post := by
  refine Lockstep.bind (advance_lockstep ?_) ?_
  · rintro u rfl
    exact ht
  · rintro u u' ⟨hu, rfl⟩
    exact hf hu

private theorem eat_lockstep {kind : TokenKind} (hk : kind ≠ .eof) :
    Lockstep SourceError.Same (Reads M m) (eat kind) (eat kind)
      (Option.Rel (TokenAlike M)) (Reads M m) := by
  cases m with
  | zero =>
      intro p p' hp
      exact absurd hp.pos (Nat.lt_irrefl 0)
  | succ m =>
      refine check_bind fun b => ?_
      cases b with
      | true =>
          refine Lockstep.bind (advance_lockstep ?_) fun {t t'} ht => ?_
          · intro t ht
            rw [show t.kind = kind by simpa using ht.symm]
            exact hk
          · exact .pure (.some ht.1) fun hq => hq.mono (Nat.le_succ m)
      | false => exact of_reads (pure_lockstep .none)

private theorem ident_alike : TakesAlike M m ident ident M.Name := by
  intro j _
  refine peek_bind fun {t t'} ht => ?_
  by_cases hk : t.kind = .identifier
  · rw [if_pos hk, if_pos (ht.kind.symm.trans hk)]
    exact advance_bind (by rw [hk]; simp) fun _ => pure_lockstep (ht.name hk)
  · rw [if_neg hk, if_neg fun h => hk (ht.kind.trans h)]
    exact fail_lockstep rfl

private theorem declare_lockstep {d d' : Decl} (hd : DeclAlike M d d') :
    Lockstep SourceError.Same (Reads M m) (Parser.declare d) (Parser.declare d') (fun _ _ => True)
      (Reads M m) :=
  .update fun hp => hp.with_declared (.cons hd hp.declared)

/-- What a block declares is told apart from what is declared around it. -/
theorem inBlock_lockstep {next : Token → Prop}
    (hx : Lockstep SourceError.Same (Reads M m) x x' answer (Facing M m next)) :
    Lockstep SourceError.Same (Reads M m) (inBlock x) (inBlock x')
      (fun a a' => answer a.1 a'.1 ∧ List.Forall₂ (DeclAlike M) a.2 a'.2) (Facing M m next) := by
  intro p p' hp
  have hends := hx (hp.with_declared .nil)
  unfold inBlock
  generalize x { p with declared := [] } = r, x' { p' with declared := [] } = r' at hends
  cases hends with
  | ok ha hq =>
      refine .ok ⟨ha, List.forall₂_reverse_iff.mpr hq.declared⟩ ⟨?_, hq.faces⟩
      exact hq.toReads.with_declared hp.declared
  | error he => exact .error he

end Rules

/-! ### Expressions

`primary` and `operand` take a token before they go on with an expression, so they are for
one token more than their parts are.  The loop of `climb` has fuel of its own, and its
induction is on the tokens that are left while both amounts of fuel are arbitrary above
that.
-/

section Expressions

variable {M : Matching} {m n n' : Nat} {expr expr' : Nat → Parsing Expr}

private theorem primary_alike (hexpr : ∀ min, TakesAlike M m (expr min) (expr' min) (ExprAlike M)) :
    TakesAlike M (m + 1) (primary expr) (primary expr') (ExprAlike M) := by
  intro j hj
  refine peek_bind fun {t t'} ht => ?_
  -- Both tokens are of one kind, so both sides take the same branch.
  have hkind := ht.kind
  have hspan := ht.span
  have hname := ht.name
  generalize hk' : t'.kind = kind' at hkind
  generalize hk : t.kind = kind at hkind hname
  subst hkind
  have hne : kind ≠ .eof → t.kind ≠ .eof := by
    rw [hk]
    exact id
  split
  · refine advance_bind (hne (by simp)) fun _ => ?_
    rw [ht.lexeme]
    cases Numeral.literal? t'.lexeme.toList with
    | none =>
        refine fail_lockstep ?_
        rw [ht.describe]
        rfl
    | some value => exact pure_lockstep (.integer hspan)
  · exact advance_bind (hne (by simp)) fun _ => pure_lockstep (.boolean hspan)
  · exact advance_bind (hne (by simp)) fun _ => pure_lockstep (.boolean hspan)
  · refine advance_bind (hne (by simp)) fun _ => ?_
    rw [ht.register?]
    cases t'.register? with
    | none =>
        refine fail_lockstep ?_
        rw [ht.describe]
        rfl
    | some r => exact pure_lockstep (.register hspan)
  · exact advance_bind (hne (by simp)) fun _ => pure_lockstep (.ident (hname rfl))
  · refine advance_bind (hne (by simp)) fun _ => ?_
    refine Lockstep.bind ((hexpr lowest).lax (Nat.le_of_lt_succ hj)) fun he => ?_
    refine Lockstep.bind ((expect_alike (by simp)).lax (Nat.le_refl j)) fun _ => ?_
    exact pure_lockstep he
  · exact fail_lockstep rfl
  · refine fail_lockstep ?_
    rw [ht.describe]
    rfl

private theorem operand_alike (hexpr : ∀ min, TakesAlike M m (expr min) (expr' min) (ExprAlike M)) :
    TakesAlike M (m + 1) (operand expr) (operand expr') (ExprAlike M) := by
  intro j hj
  refine peek_bind fun {t t'} ht => ?_
  rw [← ht.kind]
  cases hop : t.kind.unary? with
  | none => exact of_reads (primary_alike hexpr j hj)
  | some op =>
      have hk : t.kind ≠ .eof := by
        intro hk
        simp [hk, TokenKind.unary?] at hop
      refine advance_bind hk fun _ => ?_
      refine Lockstep.bind ((hexpr _).lax (Nat.le_of_lt_succ hj)) fun he => ?_
      exact pure_lockstep (.unary he (ht.span.merge _ _))

/-- Both loops go round as often as there are operators, and each takes a token. -/
theorem climb_lockstep (hexpr : ∀ min, TakesAlike M m (expr min) (expr' min) (ExprAlike M))
    (min : Nat) :
    ∀ (j : Nat) {k k' : Nat} {left left' : Expr}, j ≤ m → j ≤ k → j ≤ k' →
      ExprAlike M left left' →
      Lockstep SourceError.Same (Reads M j) (climb expr min k left) (climb expr' min k' left')
        (ExprAlike M) (Reads M j) := by
  intro j
  induction j with
  | zero =>
      intro k k' left left' _ _ _ _ p p' hp
      exact absurd hp.pos (Nat.lt_irrefl 0)
  | succ j ih =>
      intro k k' left left' hm hk hk' hleft
      -- The fuel may differ on the two sides; it is enough on both, so both have a step left.
      obtain ⟨k, rfl⟩ := Nat.exists_eq_add_of_le' hk
      obtain ⟨k', rfl⟩ := Nat.exists_eq_add_of_le' hk'
      rw [← Nat.add_assoc, ← Nat.add_assoc, climb, climb]
      refine peek_bind fun {t t'} ht => ?_
      rw [← ht.kind]
      cases hop : t.kind.binary? with
      | none => exact of_reads (pure_lockstep hleft)
      | some op =>
          have hne : t.kind ≠ .eof := by
            intro hne
            simp [hne, TokenKind.binary?] at hop
          by_cases hmin : op.precedence < min
          · simp only [if_pos hmin]
            exact of_reads (pure_lockstep hleft)
          · simp only [if_neg hmin]
            refine advance_bind hne fun _ => ?_
            refine Lockstep.bind ((hexpr _).lax (Nat.le_of_succ_le hm)) fun hright => ?_
            refine Lockstep.conseq (ih (Nat.le_of_succ_le hm) (Nat.le_add_left j k)
              (Nat.le_add_left j k') (.binary hleft hright (hleft.span.merge _ _))) id id ?_
            exact fun hq => hq.mono (Nat.le_succ j)

/-- **Expressions are read alike**, as long as there is fuel for every token. -/
theorem exprAt_alike : ∀ (m : Nat) {n n' : Nat}, m ≤ n → m ≤ n' → ∀ min,
    TakesAlike M m (exprAt n min) (exprAt n' min) (ExprAlike M) := by
  intro m
  induction m with
  | zero =>
      intro n n' _ _ min j hj
      omega
  | succ m ih =>
      intro n n' hn hn' min j hj
      obtain ⟨n, rfl⟩ := Nat.exists_eq_succ_of_ne_zero (Nat.ne_of_gt (Nat.zero_lt_of_lt hn))
      obtain ⟨n', rfl⟩ := Nat.exists_eq_succ_of_ne_zero (Nat.ne_of_gt (Nat.zero_lt_of_lt hn'))
      have hexpr : ∀ min, TakesAlike M m (exprAt n min) (exprAt n' min) (ExprAlike M) :=
        ih (by omega) (by omega)
      rw [exprAt, exprAt]
      refine Lockstep.bind (operand_alike hexpr j hj) fun hleft => ?_
      exact climb_lockstep hexpr min j (by omega) (by omega) (by omega) hleft

private theorem argumentsFrom_lockstep {expr expr' : Parsing Expr}
    (hexpr : TakesAlike M m expr expr' (ExprAlike M)) :
    ∀ (j : Nat) {k k' : Nat} {done done' : List Expr}, j ≤ m → j ≤ k → j ≤ k' →
      List.Forall₂ (ExprAlike M) done done' →
      Lockstep SourceError.Same (Reads M j) (argumentsFrom expr done k)
        (argumentsFrom expr' done' k') (List.Forall₂ (ExprAlike M)) (Reads M j) := by
  intro j
  induction j with
  | zero =>
      intro k k' done done' _ _ _ _ p p' hp
      exact absurd hp.pos (Nat.lt_irrefl 0)
  | succ j ih =>
      intro k k' done done' hm hk hk' hdone
      obtain ⟨k, rfl⟩ := Nat.exists_eq_add_of_le' hk
      obtain ⟨k', rfl⟩ := Nat.exists_eq_add_of_le' hk'
      rw [← Nat.add_assoc, ← Nat.add_assoc, argumentsFrom, argumentsFrom]
      refine Lockstep.bind (hexpr j hm) fun he => ?_
      refine Lockstep.bind (eat_lockstep (by simp)) fun hcomma => ?_
      cases hcomma with
      | none =>
          refine .pure (List.forall₂_reverse_iff.mpr (.cons he hdone)) ?_
          exact fun hq => hq.mono (Nat.le_succ j)
      | some _ =>
          refine Lockstep.conseq (ih (Nat.le_of_succ_le hm) (Nat.le_add_left j k)
            (Nat.le_add_left j k') (.cons he hdone)) id id ?_
          exact fun hq => hq.mono (Nat.le_succ j)

private theorem argumentList_alike {expr expr' : Parsing Expr} {k k' : Nat}
    (hexpr : TakesAlike M m expr expr' (ExprAlike M)) (hk : m ≤ k) (hk' : m ≤ k') :
    TakesAlike M m (argumentList expr k) (argumentList expr' k')
      fun a a' => List.Forall₂ (ExprAlike M) a.args a'.args := by
  intro j hj
  refine Lockstep.bind (expect_alike (m := m) (by simp) j hj) fun _ => ?_
  refine check_bind fun b => of_reads ?_
  cases b with
  | true =>
      have hnone : Lockstep SourceError.Same (Reads M j) (pure []) (pure [])
          (List.Forall₂ (ExprAlike M)) (Reads M j) := pure_lockstep .nil
      refine Lockstep.bind hnone fun hargs => ?_
      refine Lockstep.bind ((expect_alike (by simp)).lax (Nat.le_refl j)) fun _ => ?_
      exact pure_lockstep hargs
  | false =>
      refine Lockstep.bind
        (argumentsFrom_lockstep hexpr j (by omega) (by omega) (by omega) .nil) fun hargs => ?_
      refine Lockstep.bind ((expect_alike (by simp)).lax (Nat.le_refl j)) fun _ => ?_
      exact pure_lockstep hargs

end Expressions

/-! ### Blocks

The loop over statements ends where the closing brace is next, without taking it; that is
what `Facing` says behind the loop.
-/

section Blocks

variable {M : Matching} {m : Nat} {statement statement' : Parsing (Option Stmt)}

/-- Is a statement that was read added to those before it? -/
theorem StmtsAlike.onto {s s' : Option Stmt} {done done' : List Stmt}
    (hs : Option.Rel (StmtAlike M) s s') (hdone : StmtsAlike M done done') :
    StmtsAlike M (s.toList ++ done) (s'.toList ++ done') := by
  cases hs with
  | none => exact hdone
  | some hs => exact .cons hs hdone

private theorem statementsUntil_lockstep
    (hstmt : TakesAlike M m statement statement' (Option.Rel (StmtAlike M))) {closing : TokenKind}
    (hclosing : closing ≠ .eof) :
    ∀ (j : Nat) {k k' : Nat} {done done' : List Stmt}, j ≤ m → j ≤ k → j ≤ k' →
      StmtsAlike M done done' →
      Lockstep SourceError.Same (Reads M j) (statementsUntil statement closing done k)
        (statementsUntil statement' closing done' k') (StmtsAlike M)
        (Facing M j fun t => t.kind = closing) := by
  intro j
  induction j with
  | zero =>
      intro k k' done done' _ _ _ _ p p' hp
      exact absurd hp.pos (Nat.lt_irrefl 0)
  | succ j ih =>
      intro k k' done done' hm hk hk' hdone
      obtain ⟨k, rfl⟩ := Nat.exists_eq_add_of_le' hk
      obtain ⟨k', rfl⟩ := Nat.exists_eq_add_of_le' hk'
      rw [← Nat.add_assoc, ← Nat.add_assoc, statementsUntil, statementsUntil]
      have hmore : ∀ {s s' : Option Stmt}, Option.Rel (StmtAlike M) s s' →
          Lockstep SourceError.Same (Reads M j)
            (statementsUntil statement closing (s.toList ++ done) (k + j))
            (statementsUntil statement' closing (s'.toList ++ done') (k' + j)) (StmtsAlike M)
            (Facing M (j + 1) fun t => t.kind = closing) := fun hs =>
        (ih (Nat.le_of_succ_le hm) (Nat.le_add_left j k) (Nat.le_add_left j k')
          (StmtsAlike.onto hs hdone)).conseq id id (·.mono (Nat.le_succ j))
      refine check_bind fun b => ?_
      cases b with
      | true =>
          refine .pure hdone.reverse fun hq => ⟨hq.toReads, ?_⟩
          obtain ⟨t, rest, htokens, ht⟩ := hq.faces
          exact ⟨t, rest, htokens, by simpa using ht.symm⟩
      | false =>
          refine of_reads (check_bind fun ended => of_reads ?_)
          cases ended with
          | true =>
              -- At the end of the text `expect` fails, and what would come behind it is the same.
              refine Lockstep.bind ((expect_alike hclosing).lax (Nat.le_refl _)) fun _ => ?_
              refine Lockstep.bind (hstmt j hm) fun {s s'} hs => ?_
              cases hs with
              | none => exact hmore .none
              | some hs => exact hmore (.some hs)
          | false =>
              refine Lockstep.bind (hstmt j hm) fun {s s'} hs => ?_
              cases hs with
              | none => exact hmore .none
              | some hs => exact hmore (.some hs)

private theorem blockOf_alike
    (hstmt : TakesAlike M m statement statement' (Option.Rel (StmtAlike M)))
    {k k' : Nat} (hk : m ≤ k) (hk' : m ≤ k') :
    TakesAlike M (m + 1) (blockOf statement k) (blockOf statement' k') (BlockAlike M) := by
  intro j hj
  refine Lockstep.bind (expect_alike (m := m + 1) (by simp) j hj) fun hopening => ?_
  refine Lockstep.bind (inBlock_lockstep (statementsUntil_lockstep hstmt (by simp) j (by omega)
    (by omega) (by omega) .nil)) fun {a a'} ha => ?_
  cases j with
  | zero =>
      intro p p' hp
      exact absurd hp.pos (Nat.lt_irrefl 0)
  | succ j =>
      refine Lockstep.bind (advance_lockstep ?_) fun _ => ?_
      · intro t ht
        rw [ht]
        simp
      · refine .pure (.mk ha.2 ha.1 (hopening.span.merge _ _)) ?_
        exact fun hq => hq.mono (Nat.le_succ j)

end Blocks

/-! ### Statements

One lemma for each kind of statement, for any two ways of reading the parts that are alike.
The choice between them is by the kind of the next token, and a name is looked at once more
behind it and put back.
-/

section Statements

variable {M : Matching} {m : Nat} {expr expr' : Parsing Expr} {args args' : Parsing Arguments}
variable {block block' : Parsing Block}

private theorem ifStatement_alike (hexpr : TakesAlike M m expr expr' (ExprAlike M))
    (hblock : TakesAlike M m block block' (BlockAlike M)) :
    ∀ (j : Nat) {k k' : Nat}, j ≤ m → j ≤ k → j ≤ k' →
      TakesAlike M j (ifStatement expr block k) (ifStatement expr' block' k') (StmtAlike M) := by
  intro j
  induction j with
  | zero =>
      intro k k' _ _ _ i hi
      omega
  | succ j ih =>
      intro k k' hm hk hk' i hi
      obtain ⟨k, rfl⟩ := Nat.exists_eq_add_of_le' hk
      obtain ⟨k', rfl⟩ := Nat.exists_eq_add_of_le' hk'
      rw [← Nat.add_assoc, ← Nat.add_assoc, ifStatement, ifStatement]
      refine Lockstep.bind (expect_alike (m := m) (by simp) i (by omega)) fun hword => ?_
      refine Lockstep.bind (hexpr.lax (by omega)) fun hcond => ?_
      refine Lockstep.bind (hblock.lax (by omega)) fun hbody => ?_
      refine Lockstep.bind (eat_lockstep (by simp)) fun helse => ?_
      cases helse with
      | none => exact pure_lockstep (.ifThen hcond hbody (hword.span.merge _ _))
      | some _ =>
          refine check_bind fun b => of_reads ?_
          cases b with
          | true =>
              refine Lockstep.bind ((ih (by omega) (by omega) (by omega)).lax (by omega))
                fun hchained => ?_
              refine pure_lockstep (.ifElse hcond hbody (.mk .nil (.cons hchained .nil) ?_) ?_)
              · exact hchained.span
              · exact (hword.span.merge _ _).merge _ _
          | false =>
              refine Lockstep.bind (hblock.lax (by omega)) fun helse => ?_
              exact pure_lockstep (.ifElse hcond hbody helse ((hword.span.merge _ _).merge _ _))

private theorem whileStatement_alike (hexpr : TakesAlike M m expr expr' (ExprAlike M))
    (hblock : TakesAlike M m block block' (BlockAlike M)) :
    TakesAlike M m (whileStatement expr block) (whileStatement expr' block') (StmtAlike M) := by
  intro j hj
  refine Lockstep.bind (expect_alike (by simp) j hj) fun hword => ?_
  refine Lockstep.bind (hexpr.lax (by omega)) fun hcond => ?_
  refine Lockstep.bind (hblock.lax (by omega)) fun hbody => ?_
  exact pure_lockstep (.whileLoop hcond hbody (hword.span.merge _ _))

private theorem funcStatement_alike (hblock : TakesAlike M m block block' (BlockAlike M)) :
    TakesAlike M m (funcStatement block) (funcStatement block') (StmtAlike M) := by
  intro j hj
  refine Lockstep.bind (expect_alike (by simp) j hj) fun hword => ?_
  refine Lockstep.bind (ident_alike.lax (Nat.le_refl j)) fun hname => ?_
  refine Lockstep.bind (declare_lockstep ⟨rfl, hname⟩) fun _ => ?_
  refine Lockstep.bind (hblock.lax (by omega)) fun hbody => ?_
  exact pure_lockstep (.func hname hbody (hword.span.merge _ _))

private theorem returnStatement_alike (hexpr : TakesAlike M m expr expr' (ExprAlike M)) :
    TakesAlike M m (returnStatement expr) (returnStatement expr') (StmtAlike M) := by
  intro j hj
  refine Lockstep.bind (expect_alike (by simp) j hj) fun hword => ?_
  refine check_bind fun b => of_reads ?_
  cases b with
  | true =>
      have hnone : Lockstep SourceError.Same (Reads M j) (pure none) (pure none)
          (Option.Rel (ExprAlike M)) (Reads M j) := pure_lockstep .none
      refine Lockstep.bind hnone fun hvalue => ?_
      refine Lockstep.bind ((expect_alike (by simp)).lax (Nat.le_refl j)) fun _ => ?_
      exact pure_lockstep (.ret hvalue (hword.span.merge _ _))
  | false =>
      have hsome : Lockstep SourceError.Same (Reads M j) (some <$> expr) (some <$> expr')
          (Option.Rel (ExprAlike M)) (Reads M j) := .map (hexpr.lax (by omega)) .some
      refine Lockstep.bind hsome fun hvalue => ?_
      refine Lockstep.bind ((expect_alike (by simp)).lax (Nat.le_refl j)) fun _ => ?_
      exact pure_lockstep (.ret hvalue (hword.span.merge _ _))

private theorem varStatement_alike (hexpr : TakesAlike M m expr expr' (ExprAlike M)) :
    TakesAlike M m (varStatement expr) (varStatement expr') (Option.Rel (StmtAlike M)) := by
  intro j hj
  refine Lockstep.bind (expect_alike (by simp) j hj) fun hword => ?_
  refine Lockstep.bind (ident_alike.lax (Nat.le_refl j)) fun hname => ?_
  refine Lockstep.bind (declare_lockstep ⟨rfl, hname⟩) fun _ => ?_
  refine Lockstep.bind (eat_lockstep (by simp)) fun hsign => ?_
  cases hsign with
  | none =>
      refine Lockstep.bind ((expect_alike (by simp)).lax (Nat.le_refl j)) fun _ => ?_
      exact pure_lockstep .none
  | some _ =>
      refine Lockstep.bind (hexpr.lax (by omega)) fun hvalue => ?_
      refine Lockstep.bind ((expect_alike (by simp)).lax (Nat.le_refl j)) fun _ => ?_
      exact pure_lockstep (.some (.assign (.ident hname) hvalue (hword.span.merge _ _)))

private theorem aliasStatement_alike :
    TakesAlike M m aliasStatement aliasStatement fun _ _ => True := by
  intro j hj
  refine Lockstep.bind (expect_alike (by simp) j hj) fun _ => ?_
  refine Lockstep.bind (ident_alike.lax (Nat.le_refl j)) fun hname => ?_
  refine Lockstep.bind ((expect_alike (by simp)).lax (Nat.le_refl j)) fun _ => ?_
  cases j with
  | zero =>
      intro p p' hp
      exact absurd hp.pos (Nat.lt_irrefl 0)
  | succ j =>
      refine peek_bind fun {t t'} ht => ?_
      rw [← ht.register?]
      cases hr : t.register? with
      | none => exact fail_lockstep rfl
      | some r =>
          refine advance_bind (by rw [Token.kind_of_register? hr]; simp) fun _ => ?_
          refine Lockstep.bind ((expect_alike (by simp)).lax (Nat.le_refl j)) fun _ => ?_
          refine Lockstep.conseq (declare_lockstep ⟨rfl, hname⟩) id id ?_
          exact fun hq => hq.mono (Nat.le_succ j)

/-- An intrinsic is only read where one stands. -/
theorem intrinsicStatement_lockstep
    (hargs : TakesAlike M m args args' fun a a' => List.Forall₂ (ExprAlike M) a.args a'.args)
    {j : Nat} (hj : j < m) (i : Intrinsic) :
    Lockstep SourceError.Same (Facing M (j + 1) fun t => t.kind = .intrinsic i)
      (intrinsicStatement args) (intrinsicStatement args') (StmtAlike M) (Reads M j) := by
  refine Lockstep.bind (advance_lockstep ?_) ?_
  · intro t ht
    rw [ht]
    simp
  · rintro t t' ⟨ht, hk⟩
    rw [← ht.kind, hk]
    refine Lockstep.bind (hargs.lax (by omega)) fun hargs => ?_
    refine Lockstep.bind ((expect_alike (by simp)).lax (Nat.le_refl j)) fun _ => ?_
    exact pure_lockstep (.intrinsic hargs (ht.span.merge _ _))

private theorem callStatement_alike
    (hargs : TakesAlike M m args args' fun a a' => List.Forall₂ (ExprAlike M) a.args a'.args) :
    TakesAlike M m (callStatement args) (callStatement args') (StmtAlike M) := by
  intro j hj
  refine Lockstep.bind (ident_alike j hj) fun hname => ?_
  refine Lockstep.bind (hargs.lax (by omega)) fun hargs => ?_
  refine Lockstep.bind ((expect_alike (by simp)).lax (Nat.le_refl j)) fun _ => ?_
  refine pure_lockstep (.call hname hargs (SpanAlike.merge ?_ _ _))
  exact M.line_eq hname

private theorem assignStatement_alike (hexpr : TakesAlike M m expr expr' (ExprAlike M)) :
    TakesAlike M m (assignStatement expr) (assignStatement expr') (StmtAlike M) := by
  intro j hj
  refine Lockstep.bind (hexpr j hj) fun htarget => ?_
  cases j with
  | zero =>
      intro p p' hp
      exact absurd hp.pos (Nat.lt_irrefl 0)
  | succ j =>
      refine peek_bind fun {t t'} ht => ?_
      rw [← ht.kind]
      by_cases hsign : t.kind.isAssignment = true
      · have hne : t.kind ≠ .eof := by
          intro hk
          simp [hk, TokenKind.isAssignment] at hsign
        rw [if_pos hsign, if_pos hsign]
        refine advance_bind hne fun _ => ?_
        refine Lockstep.bind (hexpr.lax (by omega)) fun hvalue => ?_
        refine Lockstep.bind ((expect_alike (by simp)).lax (Nat.le_refl j)) fun _ => ?_
        have hspan := htarget.span.merge
        cases t.kind.compound? with
        | none => exact .pure (.assign htarget hvalue (hspan _ _)) fun hq => hq.mono (Nat.le_succ j)
        | some op =>
            exact .pure (.compound htarget hvalue (hspan _ _)) fun hq => hq.mono (Nat.le_succ j)
      · rw [if_neg hsign, if_neg hsign]
        exact fail_lockstep rfl

/-- A token that was taken is put back. -/
theorem pushBack_lockstep {j : Nat} {t t' : Token} (ht : TokenAlike M t t') (hk : t.kind ≠ .eof) :
    Lockstep SourceError.Same (Reads M j) (pushBack t) (pushBack t') (fun _ _ => True)
      (Reads M (j + 1)) := by
  intro p p' hp
  have htokens : (Lexer.mk (t :: p.lexer.ahead) p.lexer.cursor).tokens = t :: p.tokens :=
    Lexer.tokens_of_pushBack (l := p.lexer) rfl hk
  have htokens' : (Lexer.mk (t' :: p'.lexer.ahead) p'.lexer.cursor).tokens = t' :: p'.tokens :=
    Lexer.tokens_of_pushBack (l := p'.lexer) rfl (by rw [← ht.kind]; exact hk)
  refine .ok trivial ⟨?_, hp.declared, ?_, ?_⟩
  · show List.Forall₂ (TokenAlike M) (Lexer.tokens _) (Lexer.tokens _)
    rw [htokens, htokens']
    exact .cons ht hp.tokens
  · obtain ⟨ts, e, hts, he⟩ := hp.ended
    refine ⟨t :: ts, e, htokens.trans ?_, he⟩
    rw [hts]
    rfl
  · show (Lexer.tokens _).length ≤ j + 1
    rw [htokens, List.length_cons]
    exact Nat.succ_le_succ hp.room

private theorem statementOf_alike (hexpr : TakesAlike M m expr expr' (ExprAlike M))
    (hargs : TakesAlike M m args args' fun a a' => List.Forall₂ (ExprAlike M) a.args a'.args)
    (hblock : TakesAlike M m block block' (BlockAlike M)) {k k' : Nat} (hk : m ≤ k) (hk' : m ≤ k') :
    TakesAlike M m (statementOf expr args block k) (statementOf expr' args' block' k')
      (Option.Rel (StmtAlike M)) := by
  intro j hj
  refine peek_bind fun {t t'} ht => ?_
  have hkind := ht.kind
  generalize hkt' : t'.kind = kind' at hkind
  generalize hkt : t.kind = kind at hkind
  subst hkind
  split
  · exact of_reads (.map (ifStatement_alike hexpr hblock m (Nat.le_refl m) hk hk' j hj) .some)
  · exact of_reads (.map (whileStatement_alike hexpr hblock j hj) .some)
  · exact of_reads (.map (funcStatement_alike hblock j hj) .some)
  · exact of_reads (.map (returnStatement_alike hexpr j hj) .some)
  · exact of_reads (varStatement_alike hexpr j hj)
  · refine of_reads (Lockstep.bind (aliasStatement_alike j hj) fun _ => ?_)
    exact pure_lockstep .none
  · rename_i i
    refine .map (Lockstep.conseq (intrinsicStatement_lockstep hargs hj i) ?_ id id) .some
    rintro p p' ⟨hp, u, rest, htokens, rfl⟩
    exact ⟨hp, u, rest, htokens, hkt⟩
  · -- What follows the name is of one kind on both sides, so both read a call or neither does.
    have hne : t.kind ≠ .eof := by
      rw [hkt]
      simp
    refine advance_bind hne fun ht' => ?_
    refine check_bind fun b => of_reads ?_
    refine Lockstep.bind (pushBack_lockstep ht' hne) fun _ => ?_
    cases b with
    | true => exact .map (callStatement_alike hargs j hj) .some
    | false => exact .map (assignStatement_alike hexpr j hj) .some
  · refine advance_bind (by rw [hkt]; simp) fun _ => ?_
    refine fail_lockstep ?_
    rw [ht.describe]
    rfl
  · exact of_reads (.map (assignStatement_alike hexpr j hj) .some)

end Statements

/-- **Statements are read alike**, as long as there is fuel for every token. -/
theorem statementAt_alike {M : Matching} : ∀ (m : Nat) {n n' : Nat}, m ≤ n → m ≤ n' →
    TakesAlike M m (statementAt n) (statementAt n') (Option.Rel (StmtAlike M)) := by
  intro m
  induction m with
  | zero =>
      intro n n' _ _ j hj
      omega
  | succ m ih =>
      intro n n' hn hn'
      obtain ⟨n, rfl⟩ := Nat.exists_eq_succ_of_ne_zero (Nat.ne_of_gt (Nat.zero_lt_of_lt hn))
      obtain ⟨n', rfl⟩ := Nat.exists_eq_succ_of_ne_zero (Nat.ne_of_gt (Nat.zero_lt_of_lt hn'))
      have hexpr := exprAt_alike (M := M) (m + 1) hn hn' lowest
      have hstmt := ih (Nat.le_of_succ_le_succ hn) (Nat.le_of_succ_le_succ hn')
      rw [statementAt, statementAt]
      exact statementOf_alike hexpr (argumentList_alike hexpr hn hn')
        (blockOf_alike hstmt (Nat.le_of_succ_le_succ hn) (Nat.le_of_succ_le_succ hn')) hn hn'

/-! ### Programs

The fuel of a program is the bound of its lexer, and there are no more tokens than that
(`length_tokens_le_fuel`).  So from here on `m` is the number of tokens, and all conditions
on fuel are met on both sides.
-/

private theorem statementsToEnd_lockstep {M : Matching} {m : Nat}
    {statement statement' : Parsing (Option Stmt)}
    (hstmt : TakesAlike M m statement statement' (Option.Rel (StmtAlike M))) :
    ∀ (j : Nat) {k k' : Nat} {done done' : List Stmt}, j ≤ m → j ≤ k → j ≤ k' →
      StmtsAlike M done done' →
      Lockstep SourceError.Same (Reads M j) (statementsToEnd statement done k)
        (statementsToEnd statement' done' k') (StmtsAlike M)
        (Facing M j fun t => t.kind = .eof) := by
  intro j
  induction j with
  | zero =>
      intro k k' done done' _ _ _ _ p p' hp
      exact absurd hp.pos (Nat.lt_irrefl 0)
  | succ j ih =>
      intro k k' done done' hm hk hk' hdone
      obtain ⟨k, rfl⟩ := Nat.exists_eq_add_of_le' hk
      obtain ⟨k', rfl⟩ := Nat.exists_eq_add_of_le' hk'
      rw [← Nat.add_assoc, ← Nat.add_assoc, statementsToEnd, statementsToEnd]
      refine check_bind fun b => ?_
      cases b with
      | true =>
          refine .pure hdone.reverse fun hq => ⟨hq.toReads, ?_⟩
          obtain ⟨t, rest, htokens, ht⟩ := hq.faces
          exact ⟨t, rest, htokens, by simpa using ht.symm⟩
      | false =>
          refine of_reads (check_bind fun stray => ?_)
          cases stray with
          | true =>
              -- A brace that closes nothing is taken and then refused, on both sides.
              refine Lockstep.bind (advance_lockstep ?_) fun {t t'} ht => ?_
              · intro t ht
                rw [show t.kind = .mark .rightBrace by simpa using ht.symm]
                simp
              · have hfail : Lockstep SourceError.Same (Reads M j)
                    (unexpectedToken t : Parsing Unit) (unexpectedToken t')
                    (fun _ _ => False) (Reads M j) := by
                  refine fail_lockstep ?_
                  rw [ht.1.describe]
                  rfl
                exact Lockstep.bind hfail False.elim
          | false =>
              refine of_reads (Lockstep.bind (hstmt j hm) fun {s s'} hs => ?_)
              have hmore := (ih (Nat.le_of_succ_le hm) (Nat.le_add_left j k)
                (Nat.le_add_left j k') (StmtsAlike.onto hs hdone)).conseq id id
                (·.mono (Nat.le_succ j))
              cases hs with
              | none => exact hmore
              | some _ => exact hmore

/-- The fuel that a parser starts with is enough for its tokens. -/
theorem length_tokens_le_fuel (p : Parser) : p.tokens.length ≤ p.lexer.bound + 1 :=
  Lexer.length_tokens_le p.lexer

/-- **Programs are read alike.** -/
theorem program_lockstep {M : Matching} {m : Nat} :
    Lockstep SourceError.Same (Reads M m) program program
      (fun p p' => BlockAlike M p.block p'.block) (fun _ _ => True) := by
  refine peek_bind fun {t t'} ht => of_reads ?_
  intro p p' hp
  have hfuel : ∀ q : Parser, fuel q = .ok (q.lexer.bound + 1) q := fun _ => rfl
  rw [bind_of_ok (hfuel p), bind_of_ok (hfuel p')]
  -- From here on the number of tokens is what the fuel is compared with.
  have hroom : Reads M p.tokens.length p p' := { hp with room := Nat.le_refl _ }
  have hle' : p.tokens.length ≤ p'.lexer.bound + 1 := by
    rw [hp.tokens.length_eq]
    exact p'.length_tokens_le_fuel
  have hstmts := statementsToEnd_lockstep
    (statementAt_alike (M := M) p.tokens.length p.length_tokens_le_fuel hle') p.tokens.length
    (Nat.le_refl _) p.length_tokens_le_fuel hle' .nil
  refine Lockstep.bind (inBlock_lockstep hstmts) (fun {a a'} ha => of_reads ?_) hroom
  refine peek_bind fun {u u'} _ => ?_
  exact .pure (.mk ha.2 ha.1 (ht.span.merge _ _)) fun _ => trivial

end Parser

/-- Two texts whose tokens are the same are read alike. -/
theorem Program.parse_alike {M : Matching} {source source' : String} {w w' : Nat} {ts : List Token}
    {e : Token} (htokens : (Lexer.ofString source w).tokens = ts ++ [e]) (he : e.kind = .eof)
    (halike : List.Forall₂ (TokenAlike M) (Lexer.ofString source w).tokens
      (Lexer.ofString source' w').tokens) :
    ExceptAlike SourceError.Same (fun p p' => BlockAlike M p.block p'.block)
      (Program.parse source w) (Program.parse source' w') := by
  have hreads : Parser.Reads M _ (.ofSource source w) (.ofSource source' w') :=
    ⟨halike, .nil, ⟨ts, e, htokens, he⟩, Nat.le_refl _⟩
  have hends := Parser.program_lockstep hreads
  unfold Program.parse
  generalize Parser.program (.ofSource source w) = r,
    Parser.program (.ofSource source' w') = r' at hends
  cases hends with
  | ok h _ => exact .ok h
  | error h => exact .error h

end StackCode
