/-
Where trees stand.

A tree stands for some tokens of the text, and its span is put together by `Span.merge` from
the spans of its parts: on one line the two ends of a construct, over several lines its
start and a sum of lengths.  What comes out is simple.  A span starts where the first token
of its tree starts, and if the tree ends on the line where it starts, the span ends where
the last token ends.  This is `Span.Runs`.

Parentheses leave no node, so those around an expression are not part of it.  They can only
stand at the ends of an expression, hence of an assignment; parentheses around arguments do
belong to these.  So the tokens in question are `firstToken?` and `lastToken?`, which look
past them, and `Span.Covers` is `Runs` for these two.  The block of a whole program is no
construct of the grammar: it runs from the first token of the text, whatever that is, to the
end of the text.

Nodes are listed in the second half of the file, with the tokens each of them stands for
(`Placed`), and this is what other files use when they have to say where something in a tree
is.
-/
import Mathlib.Data.List.Pairwise
import StackCode.Proofs.Recognition.Program
import StackCode.Proofs.Tiling

namespace StackCode

/-! ### Tokens one behind another

`Token.Before` orders tokens by where they end and start, so of two neighbours it says that
they do not overlap.  It rests on tokens having no line feeds and no tabs in them: then the
cursor behind a token stands at the end of its span (`place_of_scan`), and everything that
comes later starts there or further on.
-/

/-- The token ends before the other one starts. -/
def Token.Before (t u : Token) : Prop :=
  t.span.line < u.span.line ∨ t.span.line = u.span.line ∧ t.span.stop ≤ u.span.col

/-- A text without tabs and line feeds moves the column by its length. -/
theorem Place.after_of_plain (w : Nat) (cs : List Char) : ∀ p : Place,
    (∀ c ∈ cs, c ≠ '\n' ∧ c ≠ '\t') →
      p.after w cs = ⟨p.line, p.col + (String.ofList cs).utf8ByteSize⟩ := by
  induction cs with
  | nil => exact fun _ _ => rfl
  | cons c cs ih =>
      intro p hplain
      obtain ⟨hline, htab⟩ := hplain c List.mem_cons_self
      rw [after_cons, ih _ fun d hd => hplain d (List.mem_cons_of_mem _ hd), next, if_neg hline,
        if_neg htab, String.ofList_cons, String.utf8ByteSize_append,
        String.utf8ByteSize_singleton, Nat.add_assoc]

namespace Lexeme

private theorem isNumeralChar_plain {radix : Nat} {c : Char} (h : isNumeralChar radix c = true) :
    c ≠ '\n' ∧ c ≠ '\t' := by
  have hline : Numeral.digitValue? '\n' = none := by decide
  have htab : Numeral.digitValue? '\t' = none := by decide
  constructor
  · rintro rfl
    simp [isNumeralChar, Numeral.isDigit, Numeral.digit?, hline] at h
  · rintro rfl
    simp [isNumeralChar, Numeral.isDigit, Numeral.digit?, htab] at h

private theorem isWordChar_plain {c : Char} (h : isWordChar c = true) : c ≠ '\n' ∧ c ≠ '\t' := by
  constructor
  · rintro rfl
    exact absurd h (by decide)
  · rintro rfl
    exact absurd h (by decide)

/-- A token stands on one line and has no tabs in it. -/
theorem IsToken.plain {kind : TokenKind} {text : List Char} (h : IsToken kind text) :
    ∀ c ∈ text, c ≠ '\n' ∧ c ≠ '\t' := by
  cases h with
  | decimal hc hcs =>
      simp only [List.forall_mem_cons]
      exact ⟨isNumeralChar_plain (isNumeralChar_of_isDigit hc), fun d hd =>
        isNumeralChar_plain (hcs d hd)⟩
  | @radix x d ds radix hx hd hds =>
      obtain ⟨-, ⟨-, hline, htab, -⟩, -⟩ := hx.letter_plain
      simp only [List.forall_mem_cons]
      exact ⟨by decide, ⟨hline, htab⟩, isNumeralChar_plain (isNumeralChar_iff.mpr (.inl hd)),
        fun e he => isNumeralChar_plain (hds e he)⟩
  | word hc hcs =>
      simp only [List.forall_mem_cons]
      exact ⟨isWordChar_plain (isWordChar_of_isWordStart hc), fun d hd =>
        isWordChar_plain (hcs d hd)⟩
  | mark m =>
      have hall : m.spelling.all (fun c => c != '\n' && c != '\t') = true := by
        cases m <;> decide
      intro c hc
      simpa using List.all_eq_true.mp hall c hc

end Lexeme

namespace Cursor

/-- Behind a token the cursor stands at its end. -/
theorem place_of_scan {c c' : Cursor} {t : Token} (h : c.scan = (.ok t, c')) :
    c'.place = ⟨t.span.line, t.span.stop⟩ := by
  obtain ⟨gap, -, -, hspan, hplace, hplace', -, hcases⟩ := scan_spec h
  have hplain : ∀ c ∈ t.lexeme.toList, c ≠ '\n' ∧ c ≠ '\t' := by
    rcases hcases with ⟨-, hempty, -⟩ | htoken
    · simp [hempty]
    · exact htoken.plain
  rw [hplace', Place.after_append, ← hplace, Place.after_of_plain _ _ _ hplain,
    String.ofList_toList, hspan]
  rfl

/-- **Each token ends before the next one starts.** -/
theorem tokens_before (c : Cursor) (hw : 0 < c.tabWidth) : c.tokens.Pairwise Token.Before := by
  fun_induction tokens c with
  | case1 => exact .nil
  | case2 => exact List.pairwise_singleton ..
  | case3 c t c' hscan ht ih =>
      obtain ⟨-, -, htab⟩ := scan_ordered hw hscan
      have hw' : 0 < c'.tabWidth := by rw [htab]; exact hw
      refine .cons ?_ (ih hw')
      intro u hu
      have hle := c'.place_le_of_mem_tokens hw' u hu
      rw [place_of_scan hscan] at hle
      exact Prod.Lex.toLex_le_toLex.mp hle

end Cursor

/-! ### From token to token

The arithmetic of `Span.merge` is used here only.  On one line lengths are measured from
start to stop, so the two constructs must be in order for the difference not to be cut off
at zero; that is what `Before` and `UpTo` are needed for in `Runs.merge`.
-/

namespace Span

/-- The span starts where `f` does, and ends where `l` does if that is on the same line. -/
structure Runs (s : Span) (f l : Token) : Prop where
  line : s.line = f.span.line
  col : s.col = f.span.col
  stop : f.span.line = l.span.line → s.stop = l.span.stop

/-- The token is the other one or ends before it. -/
def UpTo (f l : Token) : Prop := f = l ∨ f.Before l

private theorem UpTo.line_le {f l : Token} (h : UpTo f l) : f.span.line ≤ l.span.line := by
  rcases h with rfl | h | ⟨hline, -⟩
  · exact Nat.le_refl _
  · exact Nat.le_of_lt h
  · exact Nat.le_of_eq hline

theorem runs_self (t : Token) : t.span.Runs t t := ⟨rfl, rfl, fun _ => rfl⟩

/-- Two constructs, one behind the other, are joined to one that runs over both. -/
theorem Runs.merge {a b : Span} {f l f' l' : Token} (ha : a.Runs f l) (hb : b.Runs f' l')
    (hfl : UpTo f l) (hbetween : l.Before f') (hfl' : UpTo f' l') : (a.merge b).Runs f l' := by
  have hle := hfl.line_le
  have hle' := hfl'.line_le
  by_cases hline : a.line = b.line
  · rw [ha.line, hb.line] at hline
    -- The first construct ends on the line where the second one starts.
    obtain ⟨hsame, hstop⟩ : l.span.line = f'.span.line ∧ l.span.stop ≤ f'.span.col := by
      rcases hbetween with hlt | h
      · omega
      · exact h
    have hends : a.stop ≤ b.col := by
      rw [ha.stop (by omega), hb.col]
      exact hstop
    have hcol : min a.col b.col = a.col := Nat.min_eq_left ((Nat.le_add_right _ _).trans hends)
    have hmax : max b.stop a.stop = b.stop :=
      Nat.max_eq_left (hends.trans (Nat.le_add_right _ _))
    have hmerge : a.merge b = ⟨a.line, a.col, b.stop - a.col⟩ := by
      rw [Span.merge, if_pos (by rw [ha.line, hb.line, hline]), hcol, hmax]
    rw [hmerge]
    refine ⟨ha.line, ha.col, fun h => ?_⟩
    rw [← hb.stop (hline.symm.trans h)]
    have hstart : a.col ≤ b.stop :=
      (Nat.le_add_right _ _).trans (hends.trans (Nat.le_add_right _ _))
    exact Nat.add_sub_of_le hstart
  · have hmerge : a.merge b = ⟨a.line, a.col, a.len + b.len⟩ := by rw [Span.merge, if_neg hline]
    rw [hmerge]
    rw [ha.line, hb.line] at hline
    refine ⟨ha.line, ha.col, fun h => ?_⟩
    rcases hbetween with hlt | ⟨hsame, -⟩ <;> omega

end Span

/-! ### First and last tokens

`Covers` carries the two tokens along, since to join two parts one has to know where the
first one ends and the second one starts.  Between them may be tokens of neither part, such
as an operator.
-/

/-- The first token that is no opening parenthesis. -/
def firstToken? (ts : List Token) : Option Token := ts.find? fun t => t.kind != .mark .leftParen

/-- The last token that is no closing parenthesis. -/
def lastToken? (ts : List Token) : Option Token :=
  ts.reverse.find? fun t => t.kind != .mark .rightParen

/-- The span runs over the tokens, parentheses at their ends left out. -/
structure Span.Covers (s : Span) (ts : List Token) (f l : Token) : Prop where
  first : firstToken? ts = some f
  last : lastToken? ts = some l
  upTo : Span.UpTo f l
  runs : s.Runs f l

namespace Span.Covers

variable {a b s : Span} {us vs : List Token} {f l f' l' t : Token}

theorem single (hleft : t.kind ≠ .mark .leftParen) (hright : t.kind ≠ .mark .rightParen) :
    t.span.Covers [t] t t :=
  ⟨by simp [firstToken?, hleft], by simp [lastToken?, hright], .inl rfl, runs_self t⟩

/-- Parentheses around an expression are not part of it. -/
theorem parens {opening closing : Token} (ho : opening.kind = .mark .leftParen)
    (hc : closing.kind = .mark .rightParen) (h : s.Covers us f l) :
    s.Covers (opening :: (us ++ [closing])) f l := by
  have hfirst := h.first
  have hlast := h.last
  rw [firstToken?] at hfirst
  rw [lastToken?] at hlast
  exact ⟨by simp [firstToken?, ho, hfirst], by simp [lastToken?, hc, hlast], h.upTo, h.runs⟩

private theorem mem_first (h : s.Covers us f l) : f ∈ us := List.mem_of_find?_eq_some h.first

private theorem mem_last (h : s.Covers us f l) : l ∈ us :=
  List.mem_reverse.mp (List.mem_of_find?_eq_some h.last)

/-- What runs over two parts of the text runs over what is between them too. -/
theorem merge (mid : List Token) (ha : a.Covers us f l) (hb : b.Covers vs f' l')
    (hsorted : (us ++ (mid ++ vs)).Pairwise Token.Before) :
    (a.merge b).Covers (us ++ (mid ++ vs)) f l' := by
  have hbetween : ∀ t ∈ us, ∀ u ∈ mid ++ vs, t.Before u :=
    (List.pairwise_append.mp hsorted).2.2
  have hf' : f' ∈ mid ++ vs := List.mem_append_right _ hb.mem_first
  have hl' : l' ∈ mid ++ vs := List.mem_append_right _ hb.mem_last
  have hfirst := ha.first
  have hlast := hb.last
  rw [firstToken?] at hfirst
  rw [lastToken?] at hlast
  refine ⟨?_, ?_, .inr (hbetween f ha.mem_first l' hl'), ?_⟩
  · simp [firstToken?, hfirst]
  · simp [lastToken?, hlast]
  · exact ha.runs.merge hb.runs ha.upTo (hbetween l ha.mem_last f' hf') hb.upTo

end Span.Covers

/-! ### Expressions

The induction is on the rules of the grammar.  A parenthesised expression has the span of
what is inside, and `Covers.parens` says that the first and last tokens are those from
inside too.
-/

private theorem TokenKind.not_paren_of_unary? {kind : TokenKind} {op : Operator}
    (h : kind.unary? = some op) : kind ≠ .mark .leftParen ∧ kind ≠ .mark .rightParen := by
  constructor <;> rintro rfl <;> simp [unary?, Mark.unary?] at h

/-- **An expression runs from its first token to its last one.** -/
theorem ExprForm.covers {m : Nat} {ts : List Token} {e : Expr} (h : ExprForm m ts e) :
    ts.Pairwise Token.Before → ∃ f l, e.span.Covers ts f l := by
  induction h with
  | integer hk => exact fun _ => ⟨_, _, .single (by simp [hk]) (by simp [hk])⟩
  | trueWord hk => exact fun _ => ⟨_, _, .single (by simp [hk]) (by simp [hk])⟩
  | falseWord hk => exact fun _ => ⟨_, _, .single (by simp [hk]) (by simp [hk])⟩
  | register hr =>
      have hk := Token.kind_of_register? hr
      exact fun _ => ⟨_, _, .single (by simp [hk]) (by simp [hk])⟩
  | ident hk => exact fun _ => ⟨_, _, .single (by simp [hk]) (by simp [hk])⟩
  | parens ho _ hc ih =>
      intro hsorted
      obtain ⟨f, l, hcovers⟩ := ih (List.pairwise_append.mp (List.pairwise_cons.mp hsorted).2).1
      exact ⟨f, l, hcovers.parens ho hc⟩
  | @unary m t op ts e hop _ ih =>
      intro hsorted
      obtain ⟨f, l, hcovers⟩ := ih (List.pairwise_cons.mp hsorted).2
      obtain ⟨hleft, hright⟩ := TokenKind.not_paren_of_unary? hop
      exact ⟨t, l, (Span.Covers.single hleft hright).merge [] hcovers hsorted⟩
  | @binary m t op ls rs l r hop hm hl hr ihl ihr =>
      intro hsorted
      obtain ⟨hls, hrest, -⟩ := List.pairwise_append.mp hsorted
      obtain ⟨f, _, hleft⟩ := ihl hls
      obtain ⟨_, l, hright⟩ := ihr (List.pairwise_cons.mp hrest).2
      exact ⟨f, l, hleft.merge [t] hright hsorted⟩

/-! ### Blocks and statements

All constructs are of four shapes: from a word to a part, from a part to a mark, from a word
to a mark, and an `if` with two parts.  One lemma for each, and the rules of the grammar
only choose among them.
-/

section Constructs

variable {us vs : List Token} {s : Span} {word closing f l : Token}

/-- A construct that starts with a word and ends with a part of its own. -/
theorem covers_from (mid : List Token) (hleft : word.kind ≠ .mark .leftParen)
    (hright : word.kind ≠ .mark .rightParen) (hpart : s.Covers vs f l)
    (hsorted : (word :: (mid ++ vs)).Pairwise Token.Before) :
    (word.span.merge s).Covers (word :: (mid ++ vs)) word l :=
  (Span.Covers.single hleft hright).merge mid hpart hsorted

/-- A construct that starts with a part of its own and ends with a mark. -/
theorem covers_to (mid : List Token) (hleft : closing.kind ≠ .mark .leftParen)
    (hright : closing.kind ≠ .mark .rightParen) (hpart : s.Covers us f l)
    (hsorted : (us ++ (mid ++ [closing])).Pairwise Token.Before) :
    (s.merge closing.span).Covers (us ++ (mid ++ [closing])) f closing :=
  hpart.merge mid (.single hleft hright) hsorted

/-- A construct that starts with a word and ends with a mark. -/
theorem covers_between (mid : List Token)
    (hword : word.kind ≠ .mark .leftParen ∧ word.kind ≠ .mark .rightParen)
    (hclosing : closing.kind ≠ .mark .leftParen ∧ closing.kind ≠ .mark .rightParen)
    (hsorted : (word :: (mid ++ [closing])).Pairwise Token.Before) :
    (word.span.merge closing.span).Covers (word :: (mid ++ [closing])) word closing :=
  covers_from mid hword.1 hword.2 (.single hclosing.1 hclosing.2) hsorted

/-- A construct with a second part behind a word of its own. -/
theorem covers_otherwise {otherwise : Token} {cs bs es : List Token} {b : Span} {f' l' : Token}
    (hleft : word.kind ≠ .mark .leftParen) (hright : word.kind ≠ .mark .rightParen)
    (hbody : b.Covers bs f l) (helse : s.Covers es f' l')
    (hsorted : (word :: (cs ++ (bs ++ otherwise :: es))).Pairwise Token.Before) :
    ((word.span.merge b).merge s).Covers (word :: (cs ++ (bs ++ otherwise :: es))) word l' := by
  have hsplit : word :: (cs ++ (bs ++ otherwise :: es)) =
      (word :: (cs ++ bs)) ++ ([otherwise] ++ es) := by simp
  rw [hsplit] at hsorted ⊢
  have hbefore := (List.pairwise_append.mp hsorted).1
  exact (covers_from cs hleft hright hbody hbefore).merge [otherwise] helse hsorted

end Constructs

private theorem BlockForm.covers {ts : List Token} {b : Block} (h : BlockForm ts b)
    (hsorted : ts.Pairwise Token.Before) : ∃ f l, b.span.Covers ts f l := by
  cases h with
  | braces ho _ hc => exact ⟨_, _, covers_between _ (by simp [ho]) (by simp [hc]) hsorted⟩

/-- An `if` runs up to the end of its last block. -/
theorem IfForm.covers {ts : List Token} {s : Stmt} :
    IfForm ts s → ts.Pairwise Token.Before → ∃ f l, s.span.Covers ts f l
  | .ifThen hw hcond hbody, hsorted => by
      have hparts := List.pairwise_append.mp (List.pairwise_cons.mp hsorted).2
      obtain ⟨_, l, hbody⟩ := hbody.covers hparts.2.1
      exact ⟨_, l, covers_from _ (by simp [hw]) (by simp [hw]) hbody hsorted⟩
  | .ifElse hw hcond hbody he helse, hsorted => by
      have hparts := List.pairwise_append.mp
        (List.pairwise_append.mp (List.pairwise_cons.mp hsorted).2).2.1
      obtain ⟨_, _, hbody⟩ := hbody.covers hparts.1
      obtain ⟨_, l, helse⟩ := helse.covers (List.pairwise_cons.mp hparts.2.1).2
      exact ⟨_, l, covers_otherwise (by simp [hw]) (by simp [hw]) hbody helse hsorted⟩
  | .elseIf hw hcond hbody he hchained, hsorted => by
      have hparts := List.pairwise_append.mp
        (List.pairwise_append.mp (List.pairwise_cons.mp hsorted).2).2.1
      obtain ⟨_, _, hbody⟩ := hbody.covers hparts.1
      obtain ⟨_, l, hchained⟩ := hchained.covers (List.pairwise_cons.mp hparts.2.1).2
      exact ⟨_, l, covers_otherwise (by simp [hw]) (by simp [hw]) hbody hchained hsorted⟩

/-- A statement runs from its first token to the semicolon or the block at its end. -/
theorem StmtForm.covers {ts : List Token} {s : Stmt} {own : List Decl}
    (h : StmtForm ts (some s) own) (hsorted : ts.Pairwise Token.Before) :
    ∃ f l, s.span.Covers ts f l := by
  cases h with
  | conditional h => exact h.covers hsorted
  | whileLoop hw hcond hbody =>
      have hparts := List.pairwise_append.mp (List.pairwise_cons.mp hsorted).2
      obtain ⟨_, l, hbody⟩ := hbody.covers hparts.2.1
      exact ⟨_, l, covers_from _ (by simp [hw]) (by simp [hw]) hbody hsorted⟩
  | @func word name bs body hw hn hbody =>
      have hrest := (List.pairwise_cons.mp (List.pairwise_cons.mp hsorted).2).2
      obtain ⟨_, l, hbody⟩ := hbody.covers hrest
      exact ⟨_, l, covers_from [name] (by simp [hw]) (by simp [hw]) hbody hsorted⟩
  | ret hw hs => exact ⟨_, _, covers_between [] (by simp [hw]) (by simp [hs]) hsorted⟩
  | retValue hw hvalue hs => exact ⟨_, _, covers_between _ (by simp [hw]) (by simp [hs]) hsorted⟩
  | @varValue word name sign semicolon ts value hw hn hsign hvalue hs =>
      exact ⟨_, _, covers_between (name :: sign :: ts) (by simp [hw]) (by simp [hs]) hsorted⟩
  | intrinsic hw hargs hs => exact ⟨_, _, covers_between _ (by simp [hw]) (by simp [hs]) hsorted⟩
  | call hn hargs hs => exact ⟨_, _, covers_between _ (by simp [hn]) (by simp [hs]) hsorted⟩
  | @assign sign semicolon ls rs target value htarget hsign hvalue hs =>
      obtain ⟨f, _, htarget⟩ := htarget.covers (List.pairwise_append.mp hsorted).1
      exact ⟨f, _, covers_to (sign :: rs) (by simp [hs]) (by simp [hs]) htarget hsorted⟩
  | @compound sign semicolon op ls rs target value htarget hsign hvalue hs =>
      obtain ⟨f, _, htarget⟩ := htarget.covers (List.pairwise_append.mp hsorted).1
      exact ⟨f, _, covers_to (sign :: rs) (by simp [hs]) (by simp [hs]) htarget hsorted⟩

/-! ### Nodes

A `Node` is anything in a tree that has a span.  Arguments are the one kind where the
parentheses belong to the node, so `first?` and `last?` depend on the kind.
-/

/-- A node of a tree, or a name that is part of one. -/
inductive Node where
  | expr (e : Expr)
  | stmt (s : Stmt)
  | args (a : Arguments)
  | block (b : Block)
  | name (id : Ident)

namespace Node

def span : Node → Span
  | expr e => e.span
  | stmt s => s.span
  | args a => a.span
  | block b => b.span
  | name id => id.span

/-- The tokens that stand for a node. -/
inductive Form : List Token → Node → Prop where
  | expr {m : Nat} {ts : List Token} {e : Expr} (h : ExprForm m ts e) : Form ts (.expr e)
  | stmt {ts : List Token} {s : Stmt} {own : List Decl} (h : StmtForm ts (some s) own) :
      Form ts (.stmt s)
  | args {ts : List Token} {a : Arguments} (h : ArgumentsForm ts a) : Form ts (.args a)
  | block {ts : List Token} {b : Block} (h : BlockForm ts b) : Form ts (.block b)
  /-- A chained `if` is the only statement of a block of its own. -/
  | chained {ts : List Token} {s : Stmt} (h : IfForm ts s) : Form ts (.block ⟨[], [s], s.span⟩)
  | name {t : Token} (hk : t.kind = .identifier) : Form [t] (.name t.ident)

/-- The first token of a node, parentheses around an expression left out. -/
def first? : Node → List Token → Option Token
  | args _, ts => ts.head?
  | expr _, ts | stmt _, ts | block _, ts | name _, ts => firstToken? ts

/-- The last token of a node, parentheses around an expression left out. -/
def last? : Node → List Token → Option Token
  | args _, ts => ts.getLast?
  | expr _, ts | stmt _, ts | block _, ts | name _, ts => lastToken? ts

/-- **A node runs from its first token to its last one.** -/
theorem Form.runs {ts : List Token} {n : Node} (h : Form ts n)
    (hsorted : ts.Pairwise Token.Before) :
    ∃ f l, n.first? ts = some f ∧ n.last? ts = some l ∧ n.span.Runs f l := by
  cases h with
  | expr h =>
      obtain ⟨f, l, hcovers⟩ := h.covers hsorted
      exact ⟨f, l, hcovers.first, hcovers.last, hcovers.runs⟩
  | stmt h =>
      obtain ⟨f, l, hcovers⟩ := h.covers hsorted
      exact ⟨f, l, hcovers.first, hcovers.last, hcovers.runs⟩
  | args h =>
      cases h with
      | @none opening closing ho hc =>
          have hbefore : opening.Before closing := (List.pairwise_pair.mp hsorted)
          exact ⟨opening, closing, rfl, rfl, (Span.runs_self _).merge (Span.runs_self _) (.inl rfl)
            hbefore (.inl rfl)⟩
      | @some opening closing ts es ho hes hc =>
          have hbefore : opening.Before closing :=
            (List.pairwise_cons.mp hsorted).1 closing (by simp)
          refine ⟨opening, closing, rfl, ?_, (Span.runs_self _).merge (Span.runs_self _) (.inl rfl)
            hbefore (.inl rfl)⟩
          rw [last?, List.getLast?_cons, List.getLast?_concat]
          rfl
  | block h =>
      obtain ⟨f, l, hcovers⟩ := h.covers hsorted
      exact ⟨f, l, hcovers.first, hcovers.last, hcovers.runs⟩
  | chained h =>
      obtain ⟨f, l, hcovers⟩ := h.covers hsorted
      exact ⟨f, l, hcovers.first, hcovers.last, hcovers.runs⟩
  | @name t hk =>
      have hcovers : t.span.Covers [t] t t := .single (by simp [hk]) (by simp [hk])
      exact ⟨t, t, hcovers.first, hcovers.last, hcovers.runs⟩

/-- The first token of a node is one of its tokens. -/
theorem mem_of_first? {n : Node} {ts : List Token} {f : Token} (h : n.first? ts = some f) :
    f ∈ ts := by
  cases n with
  | args a => exact List.mem_of_mem_head? h
  | expr | stmt | block | name => exact List.mem_of_find?_eq_some h

end Node

/-! ### The nodes of a program

Every node is listed with the tokens that stand for it, as a piece of the tokens of the
whole.  The list is by the definition of the tree and not of the grammar, and
`StmtForm.placed` has one case for each rule.
-/

def Expr.nodes : Expr → List Node
  | .binary op l r span => .expr (.binary op l r span) :: (l.nodes ++ r.nodes)
  | .unary op e span => .expr (.unary op e span) :: e.nodes
  | e => [.expr e]

def exprsNodes : List Expr → List Node
  | [] => []
  | e :: rest => e.nodes ++ exprsNodes rest

def Arguments.nodes (a : Arguments) : List Node := .args a :: exprsNodes a.args

mutual

/-- The nodes of a statement; an `if` before an `else` has a span of its own. -/
def Stmt.nodes : Stmt → List Node
  | .assign target value span => .stmt (.assign target value span) :: (target.nodes ++ value.nodes)
  | .compound op target value span =>
    .stmt (.compound op target value span) :: (target.nodes ++ value.nodes)
  | .ifThen cond body span => .stmt (.ifThen cond body span) :: (cond.nodes ++ body.nodes)
  | .ifElse cond body ifSpan elseBody span =>
    .stmt (.ifElse cond body ifSpan elseBody span) :: .stmt (.ifThen cond body ifSpan) ::
      (cond.nodes ++ (body.nodes ++ elseBody.nodes))
  | .whileLoop cond body span => .stmt (.whileLoop cond body span) :: (cond.nodes ++ body.nodes)
  | .func name body span => .stmt (.func name body span) :: .name name :: body.nodes
  | .ret none span => [.stmt (.ret none span)]
  | .ret (some value) span => .stmt (.ret (some value) span) :: value.nodes
  | .intrinsic i args span => .stmt (.intrinsic i args span) :: args.nodes
  | .call name args span => .stmt (.call name args span) :: .name name :: args.nodes

def Block.nodes : Block → List Node
  | ⟨decls, body, span⟩ =>
    .block ⟨decls, body, span⟩ :: (decls.map (.name ·.name) ++ stmtsNodes body)

def stmtsNodes : List Stmt → List Node
  | [] => []
  | s :: rest => s.nodes ++ stmtsNodes rest

end

/-- What is in the block of a program: the nodes of its statements, and the names it declares. -/
def Program.nodes (p : Program) : List Node :=
  p.block.decls.map (.name ·.name) ++ stmtsNodes p.block.stmts

theorem Program.nodes_block (p : Program) : p.block.nodes = .block p.block :: p.nodes := by
  obtain ⟨⟨decls, body, span⟩, _⟩ := p
  rw [Block.nodes]
  rfl

theorem stmtsNodes_singleton (s : Stmt) : stmtsNodes [s] = s.nodes := by
  rw [stmtsNodes, stmtsNodes, List.append_nil]

private theorem stmtsNodes_append (a b : List Stmt) :
    stmtsNodes (a ++ b) = stmtsNodes a ++ stmtsNodes b := by
  induction a with
  | nil => rfl
  | cons s rest ih => rw [List.cons_append, stmtsNodes, stmtsNodes, ih, List.append_assoc]

/-- Each of the nodes stands for some of the tokens, in a row. -/
def Placed (ts : List Token) (ns : List Node) : Prop :=
  ∀ n ∈ ns, ∃ us, us <:+: ts ∧ Node.Form us n

namespace Placed

variable {ts ls rs : List Token} {ns as bs : List Node} {n : Node}

theorem nil : Placed ts [] := by simp [Placed]

theorem whole (h : Node.Form ts n) (hns : Placed ts ns) : Placed ts (n :: ns) :=
  List.forall_mem_cons.mpr ⟨⟨ts, List.infix_refl _, h⟩, hns⟩

theorem within (h : Placed ls ns) (hts : ls <:+: ts) : Placed ts ns := by
  intro n hn
  obtain ⟨us, hus, hform⟩ := h n hn
  exact ⟨us, hus.trans hts, hform⟩

private theorem join (ha : Placed ts as) (hb : Placed ts bs) : Placed ts (as ++ bs) :=
  List.forall_mem_append.mpr ⟨ha, hb⟩

theorem append (ha : Placed ls as) (hb : Placed rs bs) : Placed (ls ++ rs) (as ++ bs) :=
  (ha.within (List.prefix_append _ _).isInfix).join (hb.within (List.suffix_append _ _).isInfix)

theorem after (h : Placed ts ns) (t : Token) : Placed (t :: ts) ns :=
  h.within (List.suffix_cons _ _).isInfix

theorem before (h : Placed ts ns) (t : Token) : Placed (ts ++ [t]) ns :=
  h.within (List.prefix_append _ _).isInfix

theorem name {t : Token} (hk : t.kind = .identifier) : Placed [t] [.name t.ident] :=
  .whole (.name hk) .nil

end Placed

theorem ExprForm.placed {m : Nat} {ts : List Token} {e : Expr} (h : ExprForm m ts e) :
    Placed ts e.nodes := by
  induction h with
  | integer hk => exact .whole (.expr (m := 0) (.integer hk)) .nil
  | trueWord hk => exact .whole (.expr (m := 0) (.trueWord hk)) .nil
  | falseWord hk => exact .whole (.expr (m := 0) (.falseWord hk)) .nil
  | register hr => exact .whole (.expr (m := 0) (.register hr)) .nil
  | ident hk => exact .whole (.expr (m := 0) (.ident hk)) .nil
  | parens ho he hc ih => exact (ih.before _).after _
  | unary hop he ih => exact .whole (.expr (m := 0) (.unary hop he)) (ih.after _)
  | binary hop hm hl hr ihl ihr =>
      exact .whole (.expr (.binary hop hm hl hr)) (ihl.append (ihr.after _))

theorem ArgsForm.placed {ts : List Token} {es : List Expr} (h : ArgsForm ts es) :
    Placed ts (exprsNodes es) := by
  induction h with
  | last he =>
      rw [exprsNodes, exprsNodes, List.append_nil]
      exact he.placed
  | more he hc _ ih => exact he.placed.append (ih.after _)

theorem ArgumentsForm.placed {ts : List Token} {a : Arguments} (h : ArgumentsForm ts a) :
    Placed ts a.nodes := by
  refine .whole (.args h) ?_
  cases h with
  | none => exact .nil
  | some _ hes _ => exact (hes.placed.before _).after _

mutual

theorem IfForm.placed {ts : List Token} {s : Stmt} : IfForm ts s → Placed ts s.nodes
  | .ifThen hw hcond hbody => by
      rw [Stmt.nodes]
      exact .whole (.stmt (.conditional (.ifThen hw hcond hbody)))
        ((hcond.placed.append hbody.placed).after _)
  | @IfForm.ifElse _ other _ _ es _ _ _ hw hcond hbody he helse => by
      rw [Stmt.nodes]
      have hif := Placed.whole (.stmt (.conditional (.ifThen hw hcond hbody))) .nil
      exact .whole (.stmt (.conditional (.ifElse hw hcond hbody he helse)))
        (.join (hif.within ⟨[], other :: es, by simp⟩)
          ((hcond.placed.append (hbody.placed.append (helse.placed.after _))).after _))
  | @IfForm.elseIf _ other _ _ es _ _ _ hw hcond hbody he hchained => by
      rw [Stmt.nodes, Block.nodes, stmtsNodes_singleton]
      have hif := Placed.whole (.stmt (.conditional (.ifThen hw hcond hbody))) .nil
      have hblock := Placed.whole (.chained hchained) hchained.placed
      exact .whole (.stmt (.conditional (.elseIf hw hcond hbody he hchained)))
        (.join (hif.within ⟨[], other :: es, by simp⟩)
          ((hcond.placed.append (hbody.placed.append (hblock.after _))).after _))

/-- A statement stands for its tokens, and what it declares is named among them. -/
theorem StmtForm.placed {ts : List Token} {s : Option Stmt} {own : List Decl} :
    StmtForm ts s own → Placed ts (own.map (.name ·.name) ++ stmtsNodes s.toList)
  | .conditional h => by
      rw [Option.toList_some, stmtsNodes_singleton]
      exact h.placed
  | .whileLoop hw hcond hbody => by
      rw [Option.toList_some, stmtsNodes_singleton, Stmt.nodes]
      exact .whole (.stmt (.whileLoop hw hcond hbody)) ((hcond.placed.append hbody.placed).after _)
  | .func hw hn hbody => by
      rw [Option.toList_some, stmtsNodes_singleton, Stmt.nodes]
      have hname := Placed.name hn
      refine .join (hname.within ⟨[_], _, rfl⟩) (.whole (.stmt (.func hw hn hbody)) ?_)
      exact (hname.append hbody.placed).after _
  | .ret hw hs => by
      rw [Option.toList_some, stmtsNodes_singleton, Stmt.nodes]
      exact .whole (.stmt (.ret hw hs)) .nil
  | .retValue hw hvalue hs => by
      rw [Option.toList_some, stmtsNodes_singleton, Stmt.nodes]
      exact .whole (.stmt (.retValue hw hvalue hs)) ((hvalue.placed.before _).after _)
  | .var hw hn hs => (Placed.name hn).within ⟨[_], [_], rfl⟩
  | .varValue hw hn hsign hvalue hs => by
      rw [Option.toList_some, stmtsNodes_singleton, Stmt.nodes]
      have hname := Placed.name hn
      refine .join (hname.within ⟨[_], _, rfl⟩)
        (.whole (.stmt (.varValue hw hn hsign hvalue hs)) ?_)
      have htarget : Placed [_] (Expr.ident _).nodes := (ExprForm.ident (m := 0) hn).placed
      exact (htarget.append ((hvalue.placed.before _).after _)).after _
  | .registerAlias hw hn hsign hr hs => (Placed.name hn).within ⟨[_], [_, _, _], rfl⟩
  | .intrinsic hw hargs hs => by
      rw [Option.toList_some, stmtsNodes_singleton, Stmt.nodes]
      exact .whole (.stmt (.intrinsic hw hargs hs)) ((hargs.placed.before _).after _)
  | .call hn hargs hs => by
      rw [Option.toList_some, stmtsNodes_singleton, Stmt.nodes]
      exact .whole (.stmt (.call hn hargs hs)) ((Placed.name hn).append (hargs.placed.before _))
  | .assign htarget hsign hvalue hs => by
      rw [Option.toList_some, stmtsNodes_singleton, Stmt.nodes]
      exact .whole (.stmt (.assign htarget hsign hvalue hs))
        (htarget.placed.append ((hvalue.placed.before _).after _))
  | .compound htarget hsign hvalue hs => by
      rw [Option.toList_some, stmtsNodes_singleton, Stmt.nodes]
      exact .whole (.stmt (.compound htarget hsign hvalue hs))
        (htarget.placed.append ((hvalue.placed.before _).after _))

theorem StmtsForm.placed {ts : List Token} {body : List Stmt} {own : List Decl} :
    StmtsForm ts body own → Placed ts (own.map (.name ·.name) ++ stmtsNodes body)
  | .nil => .nil
  | @StmtsForm.cons us vs _ _ _ _ hs hrest => by
      have hfirst := List.forall_mem_append.mp
        (hs.placed.within (List.prefix_append us vs).isInfix)
      have hnext := List.forall_mem_append.mp
        (hrest.placed.within (List.suffix_append us vs).isInfix)
      rw [List.map_append, stmtsNodes_append]
      exact .join (.join hfirst.1 hnext.1) (.join hfirst.2 hnext.2)

theorem BlockForm.placed {ts : List Token} {b : Block} : BlockForm ts b → Placed ts b.nodes
  | .braces ho h hc => by
      rw [Block.nodes]
      exact .whole (.block (.braces ho h hc)) ((h.placed.before _).after _)

end

end StackCode
