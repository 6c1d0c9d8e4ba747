/-
Expressions are read back as they are printed.

An expression is printed as words with blanks between them (`Expr.words`, `Expr.text`).  The
operator table says where parentheses are needed: around an operator that binds less tightly
than the level of the place where it stands.  The levels are those of the grammar, so the
words form the expression they were printed from (`spelledBy_words`), and no words that form
it are fewer (`ExprForm.length_words_le`).

Spans are lost in printing, and trees are compared without them.  Some trees cannot be
written at all, such as one with a prefix operator between two operands.  They are just
those that no text is read as (`Expr.isWritable`).
-/
import StackCode.Proofs.Likeness.Layout
import StackCode.Proofs.Spelling

namespace StackCode

/-! ### Printing

`words m` is for a place of level `m`, as `ExprForm m` is.  A tree that needs parentheses at
one level and none at another has two words more there and is the same otherwise, and this
is all that the proof of minimality uses.
-/

namespace Expr

/-- The expression at no place in particular. -/
def unplaced : Expr → Expr
  | binary op l r _ => binary op l.unplaced r.unplaced default
  | unary op e _ => unary op e.unplaced default
  | integer value _ => integer value default
  | boolean value _ => boolean value default
  | register r _ => register r default
  | ident id => ident ⟨id.name, default⟩

/-- The words of an expression at a place of the level `m`. -/
def words (m : Nat) : Expr → List String
  | binary op l r _ =>
    let inner := l.words op.leftMin ++ op.text :: r.words op.nextMin
    if op.precedence < m then
      Operator.openParen.text :: (inner ++ [Operator.closeParen.text])
    else inner
  | unary op e _ => op.text :: e.words op.precedence
  | integer value _ => [value.toNat.repr]
  | boolean value _ => [(if value then Keyword.trueWord else Keyword.falseWord).text]
  | register r _ => [r.name]
  | ident id => [id.name]

/-- The expression with as few parentheses as it needs. -/
def text (e : Expr) : String := " ".intercalate (e.words Parser.lowest)

/-- A word that stands for nothing else can be a name. -/
def isName (word : String) : Bool :=
  word.toList.head?.any Lexeme.isWordStart && word.toList.all Lexeme.isWordChar &&
    TokenKind.ofWord word == .identifier

/-- Operators stand where they can, and names are names. -/
def isWritable : Expr → Bool
  | binary op l r _ => op.operatorClass == .binary && l.isWritable && r.isWritable
  | unary op e _ => op.operatorClass == .unary && e.isWritable
  | ident id => isName id.name
  | integer .. | boolean .. | register .. => true

/-- All of the text is read as the expression, wherever it has its places. -/
def ReadFrom (e : Expr) (source : String) (tabWidth : Nat) : Prop :=
  ∃ read p last, Parser.expression (.ofSource source tabWidth) = .ok read p ∧
    p.tokens = [last] ∧ last.kind = .eof ∧ read.unplaced = e.unplaced

private theorem words_unplaced (e : Expr) (m : Nat) : e.unplaced.words m = e.words m := by
  induction e generalizing m with
  | binary op l r _ ihl ihr => simp only [unplaced, words, ihl, ihr]
  | unary op e _ ih => simp only [unplaced, words, ih]
  | integer | boolean | register | ident => rfl

private theorem isWritable_unplaced (e : Expr) : e.unplaced.isWritable = e.isWritable := by
  induction e with
  | binary op l r _ ihl ihr => simp only [unplaced, isWritable, ihl, ihr]
  | unary op e _ ih => simp only [unplaced, isWritable, ih]
  | integer | boolean | register | ident => rfl

private theorem words_ne_nil (e : Expr) (m : Nat) : e.words m ≠ [] := by
  cases e with
  | binary op l r _ =>
      rw [words]
      split <;> simp
  | unary | integer | boolean | register | ident => exact List.cons_ne_nil _ _

/-- Parentheses are the only `words` that depend on the level. -/
theorem length_words_le (e : Expr) (m k : Nat) : (e.words m).length ≤ (e.words k).length + 2 := by
  cases e with
  | binary op l r _ =>
      simp only [words]
      split <;> split <;>
        simp only [List.length_cons, List.length_append, List.length_nil] <;> omega
  | unary | integer | boolean | register | ident => exact Nat.le_add_right ..

end Expr

/-- **No words that form an expression are fewer than those it is printed as.** -/
theorem ExprForm.length_words_le {m : Nat} {ts : List Token} {e : Expr} (h : ExprForm m ts e) :
    (e.words m).length ≤ ts.length := by
  induction h with
  | integer | trueWord | falseWord | register | ident => exact Nat.le_refl 1
  | @parens m opening closing ts e _ _ _ ih =>
      have hle := e.length_words_le m Parser.lowest
      simp only [List.length_cons, List.length_append, List.length_nil]
      omega
  | unary _ _ ih => exact Nat.succ_le_succ ih
  | @binary m t op ls rs l r _ hm _ _ ihl ihr =>
      rw [Expr.words, if_neg (Nat.not_lt.mpr hm)]
      simp only [List.length_cons, List.length_append]
      omega

/-! ### Words and their tokens

A printed word has to be read as a token of the right kind.  Operators, keywords and
registers are read off their tables; a number is read as its decimal digits, and a name is a
name if it is read as one.
-/

/-- The lexeme of the token is one of its kind. -/
def Token.IsProper (t : Token) : Prop := Lexeme.IsToken t.kind t.lexeme.toList

theorem Token.IsProper.kind_eq {t : Token} {kind : TokenKind} {word : String} (h : t.IsProper)
    (hword : t.lexeme = word) (hkind : Lexeme.IsToken kind word.toList) : t.kind = kind := by
  subst hword
  exact Lexeme.IsToken.kind_eq h hkind

/-- The `tokens` of a text before its end are proper. -/
theorem Cursor.isProper_of_tokens {c : Cursor} {ts rest : List Token} (h : c.tokens = ts ++ rest)
    (hrest : rest ≠ []) : ∀ t ∈ ts, t.IsProper := by
  intro t ht
  have hmem : t ∈ c.tokens := by
    rw [h]
    exact List.mem_append_left _ ht
  rcases c.read_of_mem_tokens t hmem with heof | ⟨cs, rest, hread⟩
  · obtain ⟨before, behind, rfl⟩ := List.append_of_mem ht
    rw [List.append_assoc, List.cons_append] at h
    exact absurd (List.append_eq_nil_iff.mp (c.tokens_eof h heof)).2 hrest
  · exact Lexeme.isToken_of_read hread

namespace Operator

/-- An operator is written as the mark that is read as it where such an operator can stand. -/
theorem exists_isToken (op : Operator) :
    ∃ kind : TokenKind, Lexeme.IsToken kind op.text.toList ∧
      (op.operatorClass = .binary → kind.binary? = some op) ∧
      (op.operatorClass = .unary → kind.unary? = some op) := by
  have hall : ∃ m ∈ Mark.all, m.spelling = op.text.toList := by
    cases op <;> decide
  obtain ⟨m, -, htext⟩ := hall
  refine ⟨.mark m, htext ▸ Lexeme.IsToken.mark m, ?_, ?_⟩
  · exact fun hclass => Mark.binary?_eq_some_iff.mpr ⟨hclass, htext⟩
  · exact fun hclass => Mark.unary?_eq_some_iff.mpr ⟨hclass, htext⟩

private theorem operatorClass_of_binary? {kind : TokenKind} {op : Operator}
    (h : kind.binary? = some op) :
    op.operatorClass = .binary := by
  cases kind with
  | mark m => exact (Mark.binary?_eq_some_iff.mp h).1
  | integer | identifier | register | keyword | intrinsic | eof => simp [TokenKind.binary?] at h

private theorem operatorClass_of_unary? {kind : TokenKind} {op : Operator}
    (h : kind.unary? = some op) :
    op.operatorClass = .unary := by
  cases kind with
  | mark m => exact (Mark.unary?_eq_some_iff.mp h).1
  | integer | identifier | register | keyword | intrinsic | eof => simp [TokenKind.unary?] at h

private theorem lowest_le_precedence {op : Operator} (h : op.operatorClass = .binary) :
    Parser.lowest ≤ op.precedence := by
  cases op <;> revert h <;> decide

end Operator

private theorem Register.read_name (r : Register) :
    Lexeme.read r.name.toList = .token .register r.name.toList [] := by
  cases r with
  | general n => revert n; decide +kernel
  | sp => decide

private theorem Keyword.read_text (k : Keyword) :
    Lexeme.read k.text.toList = .token (.keyword k) k.text.toList [] := by
  cases k <;> decide

/-- Names (`isName`) are the tokens that are identifiers. -/
theorem Expr.isName_iff {word : String} :
    isName word = true ↔ Lexeme.IsToken .identifier word.toList := by
  simp only [isName, Bool.and_eq_true, beq_iff_eq, List.all_eq_true]
  constructor
  · rintro ⟨⟨hstart, hword⟩, hkind⟩
    obtain ⟨c, cs, hcs⟩ : ∃ c cs, word.toList = c :: cs := by
      cases hcs : word.toList with
      | nil => simp [hcs] at hstart
      | cons c cs => exact ⟨c, cs, rfl⟩
    rw [hcs] at hstart hword
    have htoken := Lexeme.IsToken.word (by simpa using hstart)
      fun d hd => hword d (List.mem_cons_of_mem c hd)
    rwa [← hcs, String.ofList_toList, hkind] at htoken
  · intro h
    generalize hkind : TokenKind.identifier = kind, htext : word.toList = text at h
    cases h with
    | decimal | radix | mark => simp at hkind
    | @word c cs hc hcs =>
        refine ⟨⟨by simpa using hc, ?_⟩, ?_⟩
        · exact List.forall_mem_cons.mpr ⟨Lexeme.isWordChar_of_isWordStart hc, hcs⟩
        · rw [← htext, String.ofList_toList]

/-! ### Reading words back

`SpelledBy` is about any tokens with the given words, so it does not matter how the text is
laid out.  It is built up like the tree is, one lemma for each way of putting words
together.
-/

namespace Expr

/-- Every word that is printed is a token (`IsToken`). -/
theorem isToken_of_mem_words {e : Expr} (he : e.isWritable = true) :
    ∀ {m : Nat}, ∀ w ∈ e.words m, ∃ kind, Lexeme.IsToken kind w.toList := by
  induction e with
  | binary op l r _ ihl ihr =>
      intro m
      simp only [isWritable, Bool.and_eq_true, beq_iff_eq] at he
      obtain ⟨⟨-, hl⟩, hr⟩ := he
      obtain ⟨kind, hkind, -⟩ := op.exists_isToken
      have hinner : ∀ w ∈ l.words op.leftMin ++ op.text :: r.words op.nextMin,
          ∃ kind, Lexeme.IsToken kind w.toList :=
        List.forall_mem_append.mpr ⟨ihl hl, List.forall_mem_cons.mpr ⟨⟨kind, hkind⟩, ihr hr⟩⟩
      rw [words]
      split
      · refine List.forall_mem_cons.mpr ⟨⟨_, .mark .leftParen⟩, ?_⟩
        refine List.forall_mem_append.mpr ⟨hinner, ?_⟩
        exact List.forall_mem_singleton.mpr ⟨_, .mark .rightParen⟩
      · exact hinner
  | unary op e _ ih =>
      intro m
      simp only [isWritable, Bool.and_eq_true, beq_iff_eq] at he
      obtain ⟨kind, hkind, -⟩ := op.exists_isToken
      exact List.forall_mem_cons.mpr ⟨⟨kind, hkind⟩, ih he.2⟩
  | integer value _ => exact List.forall_mem_singleton.mpr ⟨_, Numeral.isToken_repr _⟩
  | boolean value _ =>
      exact List.forall_mem_singleton.mpr ⟨_, Lexeme.isToken_of_read (Keyword.read_text _)⟩
  | register r _ => exact List.forall_mem_singleton.mpr ⟨_, Lexeme.isToken_of_read r.read_name⟩
  | ident id => exact List.forall_mem_singleton.mpr ⟨_, isName_iff.mp he⟩

/-- Tokens with these words form the expression, wherever they stand. -/
def SpelledBy (e : Expr) (m : Nat) (words : List String) : Prop :=
  ∀ ts : List Token, (∀ t ∈ ts, t.IsProper) → ts.map (·.lexeme) = words →
    ∃ read, ExprForm m ts read ∧ read.unplaced = e.unplaced ∧ ∀ t ∈ ts, t.Fits

theorem SpelledBy.parens {e : Expr} {ws : List String} (h : e.SpelledBy Parser.lowest ws)
    (m : Nat) : e.SpelledBy m (Operator.openParen.text :: (ws ++ [Operator.closeParen.text])) := by
  intro ts hproper hwords
  obtain ⟨opening, us, rfl, ho, hus⟩ := List.map_eq_cons_iff.mp hwords
  obtain ⟨inner, vs, rfl, hinner, hvs⟩ := List.map_eq_append_iff.mp hus
  obtain ⟨closing, rfl, hc⟩ := List.map_eq_singleton_iff.mp hvs
  obtain ⟨hopening, hproper⟩ := List.forall_mem_cons.mp hproper
  obtain ⟨hproper, hclosing⟩ := List.forall_mem_append.mp hproper
  have hko := hopening.kind_eq ho (.mark .leftParen)
  have hkc := (hclosing closing List.mem_cons_self).kind_eq hc (.mark .rightParen)
  obtain ⟨read, hform, hread, hfits⟩ := h inner hproper hinner
  refine ⟨read, .parens hko hform hkc, hread, ?_⟩
  have hplain : opening.Fits ∧ closing.Fits :=
    ⟨Token.fits_of_isPlain (by rw [hko]; rfl), Token.fits_of_isPlain (by rw [hkc]; rfl)⟩
  exact List.forall_mem_cons.mpr ⟨hplain.1,
    List.forall_mem_append.mpr ⟨hfits, List.forall_mem_singleton.mpr hplain.2⟩⟩

theorem SpelledBy.unary {e : Expr} {op : Operator} {ws : List String}
    (hop : op.operatorClass = .unary) (h : e.SpelledBy op.precedence ws) (m : Nat) (span : Span) :
    (Expr.unary op e span).SpelledBy m (op.text :: ws) := by
  intro ts hproper hwords
  obtain ⟨kind, hkind, -, hunary⟩ := op.exists_isToken
  obtain ⟨t, ts, rfl, ht, hts⟩ := List.map_eq_cons_iff.mp hwords
  obtain ⟨hfirst, hproper⟩ := List.forall_mem_cons.mp hproper
  obtain rfl := hfirst.kind_eq ht hkind
  obtain ⟨read, hform, hread, hfits⟩ := h ts hproper hts
  refine ⟨_, .unary (hunary hop) hform, by simp only [unplaced, hread], ?_⟩
  have hplain := Token.fits_of_isPlain (TokenKind.isPlain_of_unary? (hunary hop))
  exact List.forall_mem_cons.mpr ⟨hplain, hfits⟩

theorem SpelledBy.binary {l r : Expr} {op : Operator} {ls rs : List String} {m : Nat}
    (hop : op.operatorClass = .binary) (hm : m ≤ op.precedence) (hl : l.SpelledBy op.leftMin ls)
    (hr : r.SpelledBy op.nextMin rs) (span : Span) :
    (Expr.binary op l r span).SpelledBy m (ls ++ op.text :: rs) := by
  intro ts hproper hwords
  obtain ⟨kind, hkind, hbinary, -⟩ := op.exists_isToken
  obtain ⟨us, vs, rfl, hus, hvs⟩ := List.map_eq_append_iff.mp hwords
  obtain ⟨t, vs, rfl, ht, hvs⟩ := List.map_eq_cons_iff.mp hvs
  obtain ⟨hleft, hproper⟩ := List.forall_mem_append.mp hproper
  obtain ⟨hsign, hright⟩ := List.forall_mem_cons.mp hproper
  obtain rfl := hsign.kind_eq ht hkind
  obtain ⟨left, hform, hread, hfits⟩ := hl us hleft hus
  obtain ⟨right, hform', hread', hfits'⟩ := hr vs hright hvs
  refine ⟨_, .binary (hbinary hop) hm hform hform', by simp only [unplaced, hread, hread'], ?_⟩
  have hplain := Token.fits_of_isPlain (TokenKind.isPlain_of_binary? (hbinary hop))
  exact List.forall_mem_append.mpr ⟨hfits, List.forall_mem_cons.mpr ⟨hplain, hfits'⟩⟩

/--
One token spells an expression that it forms, wherever it stands; this is the case of a
single word in `SpelledBy`.
-/
theorem spelledBy_singleton {e : Expr} {kind : TokenKind} {word : String} (m : Nat)
    (hkind : Lexeme.IsToken kind word.toList)
    (h : ∀ t : Token, t.kind = kind → t.lexeme = word →
      ∃ read, ExprForm m [t] read ∧ read.unplaced = e.unplaced ∧ t.Fits) :
    e.SpelledBy m [word] := by
  intro ts hproper hwords
  obtain ⟨t, rfl, ht⟩ := List.map_eq_singleton_iff.mp hwords
  obtain ⟨read, hform, hread, hfits⟩ := h t ((hproper t List.mem_cons_self).kind_eq ht hkind) ht
  exact ⟨read, hform, hread, List.forall_mem_singleton.mpr hfits⟩

/-- **The words that an expression is printed as spell it.** -/
theorem spelledBy_words {e : Expr} (he : e.isWritable = true) (m : Nat) :
    e.SpelledBy m (e.words m) := by
  induction e generalizing m with
  | binary op l r span ihl ihr =>
      simp only [isWritable, Bool.and_eq_true, beq_iff_eq] at he
      obtain ⟨⟨hop, hl⟩, hr⟩ := he
      rw [words]
      -- Parentheses are written where the operator binds less than the place calls for.
      split
      · have hlow := Operator.lowest_le_precedence hop
        exact (SpelledBy.binary hop hlow (ihl hl _) (ihr hr _) span).parens m
      · rename_i hm
        exact .binary hop (Nat.le_of_not_lt hm) (ihl hl _) (ihr hr _) span
  | unary op e span ih =>
      simp only [isWritable, Bool.and_eq_true, beq_iff_eq] at he
      exact .unary he.1 (ih he.2 _) m span
  | integer value span =>
      refine spelledBy_singleton m (Numeral.isToken_repr _) fun t hk ht => ?_
      have hvalue : t.magnitude = value.toNat := by
        rw [Token.magnitude, ht, Numeral.magnitude_repr]
      refine ⟨_, .integer hk, ?_, ?_⟩
      · rw [unplaced, unplaced, hvalue, UInt64.ofNat_toNat]
      · intro _
        rw [hvalue, ht, Lexeme.literal?_of_read (Numeral.isToken_repr _).read_eq,
          Numeral.magnitude_repr, if_pos value.toNat_lt]
  | boolean value span =>
      refine spelledBy_singleton m (Lexeme.isToken_of_read (Keyword.read_text _)) fun t hk _ => ?_
      have hfits := Token.fits_of_isPlain (t := t) (by rw [hk]; rfl)
      cases value with
      | true => exact ⟨_, .trueWord hk, rfl, hfits⟩
      | false => exact ⟨_, .falseWord hk, rfl, hfits⟩
  | register r span =>
      refine spelledBy_singleton m (Lexeme.isToken_of_read r.read_name) fun t hk ht => ?_
      have hr : t.register? = some r := by
        rw [Token.register?, hk, ht]
        exact r.ofName?_name
      exact ⟨_, .register hr, rfl, Token.fits_of_isPlain (by rw [hk]; rfl)⟩
  | ident id =>
      refine spelledBy_singleton m (isName_iff.mp he) fun t hk ht => ?_
      refine ⟨_, .ident hk, ?_, Token.fits_of_isPlain (by rw [hk]; rfl)⟩
      rw [unplaced, unplaced, Token.ident, ht]

end Expr

/-- What tokens form is an expression that can be written (`isWritable`). -/
theorem ExprForm.isWritable {m : Nat} {ts : List Token} {e : Expr} (h : ExprForm m ts e) :
    (∀ t ∈ ts, t.IsProper) → e.isWritable = true := by
  induction h with
  | integer | trueWord | falseWord | register => exact fun _ => rfl
  | @ident m t hk =>
      intro hproper
      have ht := hproper t List.mem_cons_self
      rw [Token.IsProper, hk] at ht
      exact Expr.isName_iff.mpr ht
  | parens _ _ _ ih => exact fun hproper => ih fun t ht => hproper t (by simp [ht])
  | unary hop _ ih =>
      intro hproper
      rw [Expr.isWritable, Operator.operatorClass_of_unary? hop,
        ih fun t ht => hproper t (List.mem_cons_of_mem _ ht)]
      rfl
  | binary hop _ _ _ ihl ihr =>
      intro hproper
      rw [Expr.isWritable, Operator.operatorClass_of_binary? hop,
        ihl fun t ht => hproper t (List.mem_append_left _ ht),
        ihr fun t ht => hproper t (List.mem_append_right _ (List.mem_cons_of_mem _ ht))]
      rfl

namespace Parser

/-- **Climbing takes an expression of its level, and all that can go on with it.** -/
theorem exprAbove_iff {p : Parser} {m : Nat} {e : Expr} {rest : List Token} :
    (∃ q, exprAbove m p = .ok e q ∧ q.tokens = rest) ↔
      ∃ ts, p.tokens = ts ++ rest ∧ (∀ t ∈ ts, t.Fits) ∧ ExprForm m ts e ∧ Stops m rest := by
  have hread := exprAt_recognises (p.lexer.bound + 1) m
  constructor
  · rintro ⟨q, h, rfl⟩
    obtain ⟨ts, own, htakes, hform, -⟩ := hread.sound h
    exact ⟨ts, htakes.tokens, htakes.fits, hform, hread.stops h⟩
  · rintro ⟨ts, htokens, hfits, hform, hstop⟩
    have hroom : ts.length < p.lexer.bound + 1 := by
      have hle := p.length_tokens_le_fuel
      obtain ⟨t, more, rfl, -⟩ := hstop
      rw [htokens, List.length_append, List.length_cons] at hle
      omega
    obtain ⟨q, h, htakes⟩ := hread.complete ⟨hform, rfl⟩ htokens hfits hstop hroom
    exact ⟨q, h, htakes.rest htokens⟩

end Parser

namespace Expr

variable {e : Expr} {source : String} {tabWidth : Nat}

/-- A text with the `words` of an expression is read as it. -/
theorem readFrom_of_readsAs (he : e.isWritable = true)
    (h : (Cursor.ofText source.toList tabWidth).ReadsAs (e.words Parser.lowest)) :
    e.ReadFrom source tabWidth := by
  obtain ⟨ts, last, htokens, hlast, hwords⟩ := h
  have hproper := Cursor.isProper_of_tokens htokens (List.cons_ne_nil _ _)
  obtain ⟨read, hform, hread, hfits⟩ := spelledBy_words he Parser.lowest ts hproper hwords
  have hstop : Parser.Stops Parser.lowest [last] := Parser.stops_of_binary? (by rw [hlast]; rfl) _ _
  obtain ⟨p, h, hp⟩ := Parser.exprAbove_iff.mpr
    ⟨ts, (Parser.tokens_ofSource source tabWidth).trans htokens, hfits, hform, hstop⟩
  exact ⟨read, p, last, h, hp, hlast, hread⟩

/-- The printed `text` has the printed `words`. -/
theorem readsAs_text (he : e.isWritable = true) (tabWidth : Nat) :
    (Cursor.ofText e.text.toList tabWidth).ReadsAs (e.words Parser.lowest) := by
  have hwords := isToken_of_mem_words he (m := Parser.lowest)
  obtain ⟨w, words, hw⟩ := List.exists_cons_of_ne_nil (e.words_ne_nil Parser.lowest)
  rw [text, hw]
  rw [hw] at hwords
  exact Cursor.readsAs_intercalate hwords tabWidth

/-- An expression that is read from a text can be written. -/
theorem isWritable_of_readFrom (h : e.ReadFrom source tabWidth) : e.isWritable = true := by
  obtain ⟨read, p, last, h, hp, -, hread⟩ := h
  obtain ⟨ts, htokens, -, hform, -⟩ := Parser.exprAbove_iff.mp ⟨p, h, hp⟩
  have hproper := Cursor.isProper_of_tokens htokens (List.cons_ne_nil _ _)
  rw [← isWritable_unplaced, ← hread, isWritable_unplaced]
  exact hform.isWritable hproper

end Expr

namespace Parser

/--
**Precedence climbing follows the levels of the grammar, and reads printed expressions back.**
At any level it answers with a tree just when tokens that form it at this level are next and
no operator of the level follows.  The trees that texts are read as are those that can be
written, each of these is read from its own text and from any other with the same words, and
no tokens that form it are fewer.
-/
theorem exprAbove_iff_form_and_reads_printed :
    (∀ (p : Parser) (m : Nat) (e : Expr) (rest : List Token),
      (∃ q, exprAbove m p = .ok e q ∧ q.tokens = rest) ↔
        ∃ ts, p.tokens = ts ++ rest ∧ (∀ t ∈ ts, t.Fits) ∧ ExprForm m ts e ∧ Stops m rest) ∧
    ∀ e : Expr, (e.isWritable = true ↔ ∃ source tabWidth, e.ReadFrom source tabWidth) ∧
      (e.isWritable = true →
        (∀ tabWidth, e.ReadFrom e.text tabWidth) ∧
        (∀ source tabWidth ts l, (Lexer.ofString source tabWidth).drain = (ts, none, l) →
          ts.map (·.lexeme) = e.words lowest → e.ReadFrom source tabWidth) ∧
        ∀ ts read, ExprForm lowest ts read → read.unplaced = e.unplaced →
          (e.words lowest).length ≤ ts.length) := by
  refine ⟨fun _ _ _ _ => exprAbove_iff, fun e => ?_⟩
  have hprinted : e.isWritable = true → ∀ tabWidth, e.ReadFrom e.text tabWidth :=
    fun he tabWidth => Expr.readFrom_of_readsAs he (Expr.readsAs_text he tabWidth)
  refine ⟨⟨fun he => ⟨_, 1, hprinted he 1⟩, ?_⟩, fun he => ⟨hprinted he, ?_, ?_⟩⟩
  · rintro ⟨source, tabWidth, h⟩
    exact Expr.isWritable_of_readFrom h
  · intro source tabWidth ts l hdrain hwords
    obtain ⟨last, htokens, hlast, -⟩ := Lexer.tokens_of_drain hdrain
    exact Expr.readFrom_of_readsAs he ⟨ts, last, htokens, hlast, hwords⟩
  · intro ts read hform hread
    rw [← Expr.words_unplaced, ← hread, Expr.words_unplaced]
    exact hform.length_words_le

/-- Operators that need parentheses on either side, or none, among each other. -/
def nested : Expr :=
  let name (word : String) : Expr := .ident ⟨word, default⟩
  let power : Expr := .binary .pow (name "a") (.integer (.ofNat 2) default) default
  let rest : Expr := .binary .sub (name "c") (.integer (.ofNat 70) default) default
  let difference : Expr := .binary .sub (name "b") rest default
  let left : Expr := .binary .pow power (.unary .negate difference default) default
  let right : Expr := .unary .not (.boolean true default) default
  let last : Expr := .register (.general ⟨15, by decide⟩) default
  .binary .equal (.binary .mul left right default) last default

/-- The nested operators are printed with three pairs of parentheses, and read back. -/
theorem nested_reads_printed :
    nested.isWritable = true ∧
      nested.text = "( a ^ 2 ) ^ - ( b - ( c - 70 ) ) * ~ true == r15" ∧
      nested.ReadFrom "( a ^ 2 ) ^ - ( b - ( c - 70 ) ) * ~ true == r15" 4 ∧
      nested.ReadFrom "(a^2)^-(b-(c-70))*~true==r15" 8 ∧
      ∀ ts read, ExprForm lowest ts read → read.unplaced = nested.unplaced → 21 ≤ ts.length := by
  have hwritable : nested.isWritable = true := by decide +kernel
  have htext : nested.text = "( a ^ 2 ) ^ - ( b - ( c - 70 ) ) * ~ true == r15" := by decide +kernel
  have hdrain : (Lexer.ofString "(a^2)^-(b-(c-70))*~true==r15" 8).drain.2.1 = none := by
    decide +kernel
  have hwords : (Lexer.ofString "(a^2)^-(b-(c-70))*~true==r15" 8).drain.1.map (·.lexeme) =
      nested.words lowest := by decide +kernel
  have hlength : (nested.words lowest).length = 21 := by decide +kernel
  obtain ⟨hprinted, hother, hleast⟩ :=
    (exprAbove_iff_form_and_reads_printed.2 nested).2 hwritable
  rw [hlength] at hleast
  exact ⟨hwritable, htext, htext ▸ hprinted 4,
    hother _ 8 _ _ (Prod.ext rfl (Prod.ext hdrain rfl)) hwords, hleast⟩

end Parser

end StackCode
