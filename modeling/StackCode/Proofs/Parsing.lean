/-
Names are read off tokens of their own.

The parser takes tokens in the order of the text and never the same one twice, so
the names in what it has read lie between the place where it started and the place
where it stopped, each at a place of its own.  Two constructs read one after the
other keep this, because the first ends where the second begins; that is the whole
induction, and `Reading` is the invariant that carries it.

Names that are declared are counted apart from names that are referred to.  The
name of a variable with an initial value is one token in both counts, and a
function's name is declared in the block that its statement stands in, which is
what `FuncsDeclared` records.
-/
import Mathlib.Data.List.Nodup
import StackCode.Parser.Stmt
import StackCode.Proofs.Names
import StackCode.Proofs.Places

namespace StackCode

open Sequencing

/-! ### Names between two places

`Within lo hi ids` is a half-open interval of places with the names in it.  Two intervals
that meet can be joined, and the names of both are apart because no place is in both.
-/

/-- The names stand from one place on and before another, no two of them at the same place. -/
structure Within (lo hi : ℕ ×ₗ ℕ) (ids : List Ident) : Prop where
  bounds : ∀ id ∈ ids, lo ≤ id.span.key ∧ id.span.key < hi
  nodup : (ids.map (·.span.key)).Nodup

/-- The two inner ones of four lists may change places. -/
theorem append_shuffle {α : Type} (a b c d : List α) :
    ((a ++ b) ++ (c ++ d)).Perm ((a ++ c) ++ (b ++ d)) := by
  rw [List.append_assoc, List.append_assoc]
  refine List.Perm.append_left a ?_
  rw [← List.append_assoc, ← List.append_assoc]
  exact List.Perm.append_right d List.perm_append_comm

namespace Within

variable {lo mid hi : ℕ ×ₗ ℕ} {ids ids' : List Ident}

theorem nil : Within lo hi [] := ⟨by simp, by simp⟩

theorem single {id : Ident} (h : lo ≤ id.span.key) (h' : id.span.key < hi) : Within lo hi [id] :=
  ⟨by simpa using ⟨h, h'⟩, by simp⟩

/-- Names read one after another stay apart. -/
theorem append (h : Within lo mid ids) (h' : Within mid hi ids') (hlo : lo ≤ mid)
    (hhi : mid ≤ hi) : Within lo hi (ids ++ ids') := by
  refine ⟨?_, ?_⟩
  · intro id hid
    rcases List.mem_append.mp hid with hid | hid
    · exact ⟨(h.bounds id hid).1, (h.bounds id hid).2.trans_le hhi⟩
    · exact ⟨hlo.trans (h'.bounds id hid).1, (h'.bounds id hid).2⟩
  · rw [List.map_append]
    refine List.nodup_append.mpr ⟨h.nodup, h'.nodup, ?_⟩
    intro a ha b hb
    obtain ⟨id, hid, rfl⟩ := List.mem_map.mp ha
    obtain ⟨id', hid', rfl⟩ := List.mem_map.mp hb
    exact ((h.bounds id hid).2.trans_le (h'.bounds id' hid').1).ne

theorem perm (h : Within lo hi ids) (hp : ids.Perm ids') : Within lo hi ids' :=
  ⟨fun id hid => h.bounds id (hp.mem_iff.mpr hid), (hp.map _).nodup_iff.mp h.nodup⟩

theorem sublist (h : Within lo hi ids) (hs : ids'.Sublist ids) : Within lo hi ids' :=
  ⟨fun id hid => h.bounds id (hs.subset hid), h.nodup.sublist (hs.map _)⟩

/-- Names at different places have different spans. -/
theorem nodup_span (h : Within lo hi ids) : (ids.map (·.span)).Nodup := by
  have hkeys : ids.map (·.span.key) = (ids.map (·.span)).map Span.key := by simp
  exact List.Nodup.of_map _ (hkeys ▸ h.nodup)

end Within

namespace Parser

/-- The place that everything still to be read stands at or after. -/
def front (p : Parser) : ℕ ×ₗ ℕ := p.lexer.front

/--
What the parser did from `p` to `q`: it took tokens from one place to another and
found `names` among them, recorded `own` on the block that is being read, and met
`inner` among the names that may come to stand for something without being recorded.
-/
structure Reading (p q : Parser) (names : List Ident) (own : List Decl) (inner : List Ident) :
    Prop where
  ordered : q.lexer.Ordered
  le : p.front ≤ q.front
  declared : q.declared = own.reverse ++ p.declared
  names : Within p.front q.front names
  binders : Within p.front q.front (own.map (·.name) ++ inner)

namespace Reading

variable {p q u : Parser} {names names' inner inner' : List Ident} {own own' : List Decl}

/-- A reading goes on where another one stopped. -/
theorem trans (h : Reading p q names own inner) (h' : Reading q u names' own' inner') :
    Reading p u (names ++ names') (own ++ own') (inner ++ inner') := by
  refine ⟨h'.ordered, h.le.trans h'.le, ?_, h.names.append h'.names h.le h'.le, ?_⟩
  · rw [h'.declared, h.declared]
    simp
  · refine (h.binders.append h'.binders h.le h'.le).perm ?_
    rw [List.map_append]
    exact append_shuffle _ inner _ inner'

/-- Some of the names that were found. -/
theorem sublist (h : Reading p q names own inner) (hs : names'.Sublist names) :
    Reading p q names' own inner := { h with names := h.names.sublist hs }

theorem perm (h : Reading p q names own inner) (hp : names.Perm names') :
    Reading p q names' own inner := { h with names := h.names.perm hp }

/-- Some of the names that may come to stand for something. -/
theorem fewer (h : Reading p q names own inner) (hs : inner'.Sublist inner) :
    Reading p q names own inner' :=
  { h with binders := h.binders.sublist ((List.Sublist.refl _).append hs) }

/-- Names that were found may come to stand for something. -/
theorem binding (h : Reading p q names [] []) (hs : inner.Sublist names) :
    Reading p q names [] inner := { h with binders := h.names.sublist hs }

/-- A name that was just read is recorded on the block. -/
theorem declare {id : Ident} (h : Reading p q [id] [] []) (kind : DeclKind) :
    Reading p { q with declared := ⟨kind, id⟩ :: q.declared } [id] [⟨kind, id⟩] [] := by
  refine ⟨h.ordered, h.le, ?_, h.names, h.names⟩
  simp [h.declared]

end Reading

/-- A step that takes tokens and finds no names. -/
def Skips {α : Type} (x : Parsing α) : Prop :=
  ∀ ⦃p a q⦄, p.lexer.Ordered → x p = .ok a q → Reading p q [] [] []

/-! ### Tokens

A token that was taken starts at the front of the stream or behind it, and the front is
behind the token afterwards.  That is `advance_reading`, and it is the only place where the
order of tokens is used.
-/

/-- `t` is the next token, and was looked at already. -/
def Next (p : Parser) (t : Token) : Prop := ∃ rest, p.lexer.ahead = t :: rest

theorem onLexer_eq_ok {α : Type} {step : Lexing α} {p q : Parser} {a : α} :
    onLexer step p = .ok a q ↔ ∃ l, step p.lexer = .ok a l ∧ { p with lexer := l } = q := by
  simp only [onLexer]
  cases step p.lexer with
  | ok b l =>
      simp only [EStateM.Result.ok.injEq]
      constructor
      · rintro ⟨rfl, rfl⟩
        exact ⟨l, ⟨rfl, rfl⟩, rfl⟩
      · rintro ⟨_, ⟨rfl, rfl⟩, rfl⟩
        exact ⟨rfl, rfl⟩
  | error e l => simp

private theorem reading_of_lexer {p : Parser} {l : Lexer} (hl : l.Ordered)
    (hle : p.front ≤ l.front) :
    Reading p { p with lexer := l } [] [] [] := ⟨hl, hle, rfl, .nil, .nil⟩

private theorem reading_refl {p : Parser} (hp : p.lexer.Ordered) : Reading p p [] [] [] :=
  ⟨hp, le_refl _, rfl, .nil, .nil⟩

theorem peek_reading {p q : Parser} {t : Token} (hp : p.lexer.Ordered) (h : peek p = .ok t q) :
    Reading p q [] [] [] ∧ q.Next t := by
  obtain ⟨l, hstep, rfl⟩ := onLexer_eq_ok.mp h
  obtain ⟨hl, hle, hnext⟩ := Lexer.peek_ordered hp hstep
  exact ⟨reading_of_lexer hl hle, hnext⟩

theorem advance_reading {p q : Parser} {t : Token} (hp : p.lexer.Ordered)
    (h : advance p = .ok t q) :
    Reading p q [] [] [] ∧ p.front ≤ t.span.key ∧ t.Precedes q.front := by
  obtain ⟨l, hstep, rfl⟩ := onLexer_eq_ok.mp h
  obtain ⟨hl, hle, hprec⟩ := Lexer.next_ordered hp hstep
  exact ⟨reading_of_lexer hl (hle.trans hprec.1), hle, hprec⟩

/-- The token that was looked at is the one that is taken. -/
theorem advance_next {p q : Parser} {t u : Token} (ht : p.Next t) (h : advance p = .ok u q) :
    u = t := by
  obtain ⟨rest, hahead⟩ := ht
  obtain ⟨l, hstep, -⟩ := onLexer_eq_ok.mp h
  simp only [Lexer.next, hahead, EStateM.Result.ok.injEq] at hstep
  exact hstep.1.symm

/-- Taking an identifier that was looked at finds its name. -/
theorem advance_identifier {p q : Parser} {t u : Token} (hp : p.lexer.Ordered) (ht : p.Next t)
    (hk : t.kind ≠ .eof) (h : advance p = .ok u q) : Reading p q [⟨t.lexeme, t.span⟩] [] [] := by
  obtain ⟨hread, hle, hprec⟩ := advance_reading hp h
  obtain rfl := advance_next ht h
  exact { hread with names := .single hle (hprec.2 hk) }

theorem skips_peek : Skips peek := fun _ _ _ hp h => (peek_reading hp h).1

theorem skips_advance : Skips advance := fun _ _ _ hp h => (advance_reading hp h).1

/-- Steps that find no names can be put one after another. -/
theorem Skips.bind {α β : Type} {x : Parsing α} {f : α → Parsing β} (hx : Skips x)
    (hf : ∀ a, Skips (f a)) : Skips (x >>= f) := by
  intro p b q hp h
  obtain ⟨a, m, hxm, hfm⟩ := bind_eq_ok.mp h
  have hm := hx hp hxm
  exact hm.trans (hf a hm.ordered hfm)

private theorem skips_pure {α : Type} (a : α) : Skips (pure a) := by
  intro p b q hp h
  obtain ⟨rfl, rfl⟩ := pure_eq_ok.mp h
  exact reading_refl hp

private theorem skips_fail {α : Type} (e : ParseError) : Skips (fail e : Parsing α) := by
  intro p a q _ h
  exact absurd h (by simp [fail])

theorem skips_check (kind : TokenKind) : Skips (check kind) :=
  skips_peek.bind fun _ => skips_pure _

theorem skips_eat (kind : TokenKind) : Skips (eat kind) := by
  refine (skips_check kind).bind fun found => ?_
  cases found with
  | true => exact skips_advance.bind fun t => skips_pure (some t)
  | false => exact skips_pure none

theorem skips_expect (kind : TokenKind) : Skips (expect kind) := by
  refine skips_peek.bind fun t => ?_
  by_cases hk : t.kind = kind
  · simpa only [hk, if_pos] using skips_advance
  · simpa only [hk, if_neg, not_false_eq_true] using skips_fail _

theorem skips_expectMark (m : Mark) : Skips (expectMark m) := skips_expect _

/-- A name that had to stand here was read. -/
theorem ident_reading {p q : Parser} {id : Ident} (hp : p.lexer.Ordered) (h : ident p = .ok id q) :
    Reading p q [id] [] [] := by
  obtain ⟨t, m, hpeek, h⟩ := bind_eq_ok.mp h
  obtain ⟨hm, hnext⟩ := peek_reading hp hpeek
  by_cases hk : t.kind = .identifier
  · simp only [hk, if_pos, bind_eq_ok, pure_eq_ok] at h
    obtain ⟨u, m', hadv, rfl, rfl⟩ := h
    have hne : t.kind ≠ .eof := by rw [hk]; simp
    exact hm.trans (advance_identifier hm.ordered hnext hne hadv)
  · simp only [hk, if_neg, not_false_eq_true, expected, fail, throw_eq_ok] at h

/-! ### Expressions

Each lemma says of a reader that the names of the tree it answers with are the names it has
read.  Loops collect operands or arguments, so theirs say which names are new.
-/

/-- A step that reads an expression. -/
def ReadsExpr (x : Parsing Expr) : Prop :=
  ∀ ⦃p e q⦄, p.lexer.Ordered → x p = .ok e q → Reading p q e.refs [] []

private theorem primary_reads {expr : Nat → Parsing Expr} (hexpr : ∀ min, ReadsExpr (expr min)) :
    ReadsExpr (primary expr) := by
  intro p e q hp h
  obtain ⟨t, m, hpeek, h⟩ := bind_eq_ok.mp h
  obtain ⟨hm, hnext⟩ := peek_reading hp hpeek
  refine hm.trans ?_
  generalize hk : t.kind = kind at h
  split at h
  · -- A literal is out of range or has no names.
    obtain ⟨u, m', hadv, h⟩ := bind_eq_ok.mp h
    have hm' := skips_advance hm.ordered hadv
    generalize Numeral.literal? t.lexeme.toList = value? at h
    cases value? with
    | some value =>
        obtain ⟨rfl, rfl⟩ := pure_eq_ok.mp h
        exact hm'
    | none => simp [fail] at h
  · obtain ⟨u, m', hadv, h⟩ := bind_eq_ok.mp h
    obtain ⟨rfl, rfl⟩ := pure_eq_ok.mp h
    exact skips_advance hm.ordered hadv
  · obtain ⟨u, m', hadv, h⟩ := bind_eq_ok.mp h
    obtain ⟨rfl, rfl⟩ := pure_eq_ok.mp h
    exact skips_advance hm.ordered hadv
  · obtain ⟨u, m', hadv, h⟩ := bind_eq_ok.mp h
    have hm' := skips_advance hm.ordered hadv
    generalize t.register? = r? at h
    cases r? with
    | some r =>
        obtain ⟨rfl, rfl⟩ := pure_eq_ok.mp h
        exact hm'
    | none => simp [unexpected, fail] at h
  · obtain ⟨u, m', hadv, h⟩ := bind_eq_ok.mp h
    obtain ⟨rfl, rfl⟩ := pure_eq_ok.mp h
    have hne : t.kind ≠ .eof := by rw [hk]; simp
    exact advance_identifier hm.ordered hnext hne hadv
  · -- Parentheses leave no node.
    obtain ⟨u, m₁, hadv, h⟩ := bind_eq_ok.mp h
    obtain ⟨inner, m₂, hinner, h⟩ := bind_eq_ok.mp h
    obtain ⟨v, m₃, hclose, h⟩ := bind_eq_ok.mp h
    obtain ⟨rfl, rfl⟩ := pure_eq_ok.mp h
    have h₁ := skips_advance hm.ordered hadv
    have h₂ := hexpr _ h₁.ordered hinner
    have h₃ := skips_expectMark _ h₂.ordered hclose
    simpa using (h₁.trans h₂).trans h₃
  · simp [expected, fail] at h
  · simp [unexpected, fail] at h

private theorem operand_reads {expr : Nat → Parsing Expr} (hexpr : ∀ min, ReadsExpr (expr min)) :
    ReadsExpr (operand expr) := by
  intro p e q hp h
  obtain ⟨t, m, hpeek, h⟩ := bind_eq_ok.mp h
  have hm := skips_peek hp hpeek
  generalize t.kind.unary? = op? at h
  split at h
  · obtain ⟨u, m₁, hadv, h⟩ := bind_eq_ok.mp h
    obtain ⟨inner, m₂, hinner, h⟩ := bind_eq_ok.mp h
    obtain ⟨rfl, rfl⟩ := pure_eq_ok.mp h
    have h₁ := skips_advance hm.ordered hadv
    exact (hm.trans h₁).trans (hexpr _ h₁.ordered hinner)
  · exact hm.trans (primary_reads hexpr hm.ordered h)

/-- Climbing adds the names of the operands that it takes behind those of the first one. -/
theorem climb_reads {expr : Nat → Parsing Expr} (hexpr : ∀ min, ReadsExpr (expr min)) (min : Nat) :
    ∀ (n : Nat) (left : Expr) ⦃p e q⦄, p.lexer.Ordered → climb expr min n left p = .ok e q →
      ∃ more, e.refs = left.refs ++ more ∧ Reading p q more [] [] := by
  intro n
  induction n with
  | zero =>
      intro left p e q _ h
      simp [climb, outOfFuel, fail] at h
  | succ n ih =>
      intro left p e q hp h
      rw [climb] at h
      obtain ⟨t, m, hpeek, h⟩ := bind_eq_ok.mp h
      have hm := skips_peek hp hpeek
      generalize t.kind.binary? = op? at h
      split at h
      · obtain ⟨rfl, rfl⟩ := pure_eq_ok.mp h
        exact ⟨[], by simp, hm⟩
      · split at h
        · obtain ⟨rfl, rfl⟩ := pure_eq_ok.mp h
          exact ⟨[], by simp, hm⟩
        · obtain ⟨u, m₁, hadv, h⟩ := bind_eq_ok.mp h
          obtain ⟨right, m₂, hright, h⟩ := bind_eq_ok.mp h
          have h₁ := skips_advance hm.ordered hadv
          have h₂ := hexpr _ h₁.ordered hright
          obtain ⟨more, hrefs, hmore⟩ := ih _ h₂.ordered h
          refine ⟨right.refs ++ more, by simp [hrefs, Expr.refs], ?_⟩
          simpa using ((hm.trans h₁).trans h₂).trans hmore

/-- **The names in an expression stand between where its reading began and where it ended.** -/
theorem exprAt_reads : ∀ (n min : Nat), ReadsExpr (exprAt n min) := by
  intro n
  induction n with
  | zero =>
      intro min p e q _ h
      simp [exprAt, outOfFuel, fail] at h
  | succ n ih =>
      intro min p e q hp h
      rw [exprAt] at h
      obtain ⟨left, m, hleft, h⟩ := bind_eq_ok.mp h
      have hm := operand_reads ih hp hleft
      obtain ⟨more, hrefs, hmore⟩ := climb_reads ih min n left hm.ordered h
      rw [hrefs]
      exact hm.trans hmore

private theorem argumentsFrom_reads {expr : Parsing Expr} (hexpr : ReadsExpr expr) :
    ∀ (n : Nat) (done : List Expr) ⦃p args q⦄, p.lexer.Ordered →
      argumentsFrom expr done n p = .ok args q →
      ∃ new, args = done.reverse ++ new ∧ Reading p q (exprsRefs new) [] [] := by
  intro n
  induction n with
  | zero =>
      intro done p args q _ h
      simp [argumentsFrom, outOfFuel, fail] at h
  | succ n ih =>
      intro done p args q hp h
      rw [argumentsFrom] at h
      obtain ⟨e, m, he, h⟩ := bind_eq_ok.mp h
      obtain ⟨comma, m₁, heat, h⟩ := bind_eq_ok.mp h
      have hm := hexpr hp he
      have h₁ := skips_eat _ hm.ordered heat
      cases comma with
      | some _ =>
          obtain ⟨new, rfl, hnew⟩ := ih (e :: done) h₁.ordered h
          refine ⟨e :: new, by simp, ?_⟩
          simpa [exprsRefs] using (hm.trans h₁).trans hnew
      | none =>
          obtain ⟨rfl, rfl⟩ := pure_eq_ok.mp h
          refine ⟨[e], by simp, ?_⟩
          simpa [exprsRefs] using hm.trans h₁

/-- A step that reads arguments. -/
def ReadsArguments (x : Parsing Arguments) : Prop :=
  ∀ ⦃p a q⦄, p.lexer.Ordered → x p = .ok a q → Reading p q (exprsRefs a.args) [] []

theorem argumentList_reads {expr : Parsing Expr} (hexpr : ReadsExpr expr) (n : Nat) :
    ReadsArguments (argumentList expr n) := by
  intro p a q hp h
  obtain ⟨opening, m₁, hopen, h⟩ := bind_eq_ok.mp h
  obtain ⟨none?, m₂, hcheck, h⟩ := bind_eq_ok.mp h
  have h₁ := skips_expectMark _ hp hopen
  have h₂ := skips_check _ h₁.ordered hcheck
  cases none? with
  | true =>
      simp only [if_true, bind_eq_ok, pure_eq_ok] at h
      obtain ⟨args, m₃, ⟨rfl, rfl⟩, closing, m₄, hclose, rfl, rfl⟩ := h
      exact (h₁.trans h₂).trans (skips_expectMark _ h₂.ordered hclose)
  | false =>
      simp only [Bool.false_eq_true, if_false, bind_eq_ok, pure_eq_ok] at h
      obtain ⟨args, m₃, hargs, closing, m₄, hclose, rfl, rfl⟩ := h
      obtain ⟨new, rfl, h₃⟩ := argumentsFrom_reads hexpr n [] h₂.ordered hargs
      have h₄ := skips_expectMark _ h₃.ordered hclose
      simpa using ((h₁.trans h₂).trans h₃).trans h₄

end Parser

end StackCode
