/-
The grammar of the language.

    program := stmt* EOF
    block   := '{' stmt* '}'
    stmt    := if | 'while' expr block | 'func' IDENT block | 'return' expr? ';'
             | 'var' IDENT ('=' expr)? ';' | 'alias' IDENT '=' REGISTER ';'
             | INTRINSIC '(' args? ')' ';' | IDENT '(' args? ')' ';'
             | expr ASSIGN expr ';'
    if      := 'if' expr block ('else' (block | if))?
    args    := expr (',' expr)*

Expressions are stratified by level.  An operator may stand in an expression of some
level if it binds at least as tightly; its operands are expressions of the levels
that its precedence and its grouping ask for, a prefix operator takes an operand of
its own level, and parentheses start again from the lowest one.

Every rule says which tree its tokens stand for, down to the spans.  The rules say
nothing about how a text is read: they take no order among the alternatives, look at
no token ahead, and know of no limit on the size of a literal.
-/
import StackCode.Parser.Expr
import StackCode.Proofs.Literals

namespace StackCode

/-- The name that an identifier token spells, where it stands. -/
def Token.ident (t : Token) : Ident := ⟨t.lexeme, t.span⟩

theorem Token.kind_of_register? {t : Token} {r : Register} (h : t.register? = some r) :
    t.kind = .register := by
  unfold Token.register? at h
  split at h
  · assumption
  · simp at h

/-- The number that an integer token spells. -/
def Token.magnitude (t : Token) : Nat := Numeral.magnitude t.lexeme.toList

namespace Operator

/-- The least level of the left operand of an operator. -/
def leftMin (op : Operator) : Nat :=
  if op.isLeftAssociative then op.precedence else op.precedence + 1

/-- The level of prefix operators, above that of every operator between operands. -/
def tightest : Nat := 100

end Operator

/-! ### Expressions

`ExprForm m` is an expression that may stand where an operand of level `m` is asked for.
The level is a lower bound, and what has no operator on the outside is an expression of
every level.  So a sequence of operators has one tree only, although the rules are not
written for reading from left to right.
-/

/-- The tokens that stand for an expression of some level. -/
inductive ExprForm : Nat → List Token → Expr → Prop where
  | integer {m : Nat} {t : Token} (hk : t.kind = .integer) :
      ExprForm m [t] (.integer (.ofNat t.magnitude) t.span)
  | trueWord {m : Nat} {t : Token} (hk : t.kind = .keyword .trueWord) :
      ExprForm m [t] (.boolean true t.span)
  | falseWord {m : Nat} {t : Token} (hk : t.kind = .keyword .falseWord) :
      ExprForm m [t] (.boolean false t.span)
  | register {m : Nat} {t : Token} {r : Register} (hr : t.register? = some r) :
      ExprForm m [t] (.register r t.span)
  | ident {m : Nat} {t : Token} (hk : t.kind = .identifier) : ExprForm m [t] (.ident t.ident)
  | parens {m : Nat} {opening closing : Token} {ts : List Token} {e : Expr}
      (ho : opening.kind = .mark .leftParen) (he : ExprForm Parser.lowest ts e)
      (hc : closing.kind = .mark .rightParen) : ExprForm m (opening :: (ts ++ [closing])) e
  | unary {m : Nat} {t : Token} {op : Operator} {ts : List Token} {e : Expr}
      (hop : t.kind.unary? = some op) (he : ExprForm op.precedence ts e) :
      ExprForm m (t :: ts) (.unary op e (t.span.merge e.span))
  | binary {m : Nat} {t : Token} {op : Operator} {ls rs : List Token} {l r : Expr}
      (hop : t.kind.binary? = some op) (hm : m ≤ op.precedence)
      (hl : ExprForm op.leftMin ls l) (hr : ExprForm op.nextMin rs r) :
      ExprForm m (ls ++ t :: rs) (.binary op l r (l.span.merge r.span))

/-- The tokens that stand for one or more arguments. -/
inductive ArgsForm : List Token → List Expr → Prop where
  | last {ts : List Token} {e : Expr} (he : ExprForm Parser.lowest ts e) : ArgsForm ts [e]
  | more {ts ts' : List Token} {comma : Token} {e : Expr} {es : List Expr}
      (he : ExprForm Parser.lowest ts e) (hc : comma.kind = .mark .comma) (hes : ArgsForm ts' es) :
      ArgsForm (ts ++ comma :: ts') (e :: es)

/-- The tokens that stand for arguments in parentheses. -/
inductive ArgumentsForm : List Token → Arguments → Prop where
  | none {opening closing : Token} (ho : opening.kind = .mark .leftParen)
      (hc : closing.kind = .mark .rightParen) :
      ArgumentsForm [opening, closing] ⟨[], opening.span.merge closing.span⟩
  | some {opening closing : Token} {ts : List Token} {es : List Expr}
      (ho : opening.kind = .mark .leftParen) (hes : ArgsForm ts es)
      (hc : closing.kind = .mark .rightParen) :
      ArgumentsForm (opening :: (ts ++ [closing])) ⟨es, opening.span.merge closing.span⟩

/-! ### Statements

A statement stands for a tree and for what it declares in the block around it.  A
declaration without an initial value stands for no tree.
-/

mutual

/-- The tokens that stand for an `if`. -/
inductive IfForm : List Token → Stmt → Prop where
  | ifThen {word : Token} {cs bs : List Token} {cond : Expr} {body : Block}
      (hw : word.kind = .keyword .ifWord) (hcond : ExprForm Parser.lowest cs cond)
      (hbody : BlockForm bs body) :
      IfForm (word :: (cs ++ bs)) (.ifThen cond body (word.span.merge body.span))
  | ifElse {word elseWord : Token} {cs bs es : List Token} {cond : Expr} {body elseBody : Block}
      (hw : word.kind = .keyword .ifWord) (hcond : ExprForm Parser.lowest cs cond)
      (hbody : BlockForm bs body) (he : elseWord.kind = .keyword .elseWord)
      (helse : BlockForm es elseBody) :
      IfForm (word :: (cs ++ (bs ++ elseWord :: es)))
        (.ifElse cond body (word.span.merge body.span) elseBody
          ((word.span.merge body.span).merge elseBody.span))
  | elseIf {word elseWord : Token} {cs bs es : List Token} {cond : Expr} {body : Block}
      {chained : Stmt} (hw : word.kind = .keyword .ifWord)
      (hcond : ExprForm Parser.lowest cs cond) (hbody : BlockForm bs body)
      (he : elseWord.kind = .keyword .elseWord) (hchained : IfForm es chained) :
      IfForm (word :: (cs ++ (bs ++ elseWord :: es)))
        (.ifElse cond body (word.span.merge body.span) ⟨[], [chained], chained.span⟩
          ((word.span.merge body.span).merge chained.span))

/-- The tokens that stand for a statement with what it declares, or only for a declaration. -/
inductive StmtForm : List Token → Option Stmt → List Decl → Prop where
  | conditional {ts : List Token} {s : Stmt} (h : IfForm ts s) : StmtForm ts (some s) []
  | whileLoop {word : Token} {cs bs : List Token} {cond : Expr} {body : Block}
      (hw : word.kind = .keyword .whileWord) (hcond : ExprForm Parser.lowest cs cond)
      (hbody : BlockForm bs body) :
      StmtForm (word :: (cs ++ bs)) (some (.whileLoop cond body (word.span.merge body.span))) []
  | func {word name : Token} {bs : List Token} {body : Block}
      (hw : word.kind = .keyword .funcWord) (hn : name.kind = .identifier)
      (hbody : BlockForm bs body) :
      StmtForm (word :: name :: bs) (some (.func name.ident body (word.span.merge body.span)))
        [⟨.func, name.ident⟩]
  | ret {word semicolon : Token} (hw : word.kind = .keyword .returnWord)
      (hs : semicolon.kind = .mark .semicolon) :
      StmtForm [word, semicolon] (some (.ret none (word.span.merge semicolon.span))) []
  | retValue {word semicolon : Token} {ts : List Token} {value : Expr}
      (hw : word.kind = .keyword .returnWord) (hvalue : ExprForm Parser.lowest ts value)
      (hs : semicolon.kind = .mark .semicolon) :
      StmtForm (word :: (ts ++ [semicolon]))
        (some (.ret (some value) (word.span.merge semicolon.span))) []
  | var {word name semicolon : Token} (hw : word.kind = .keyword .varWord)
      (hn : name.kind = .identifier) (hs : semicolon.kind = .mark .semicolon) :
      StmtForm [word, name, semicolon] none [⟨.var, name.ident⟩]
  | varValue {word name sign semicolon : Token} {ts : List Token} {value : Expr}
      (hw : word.kind = .keyword .varWord) (hn : name.kind = .identifier)
      (hsign : sign.kind = .mark .equal) (hvalue : ExprForm Parser.lowest ts value)
      (hs : semicolon.kind = .mark .semicolon) :
      StmtForm (word :: name :: sign :: (ts ++ [semicolon]))
        (some (.assign (.ident name.ident) value (word.span.merge semicolon.span)))
        [⟨.var, name.ident⟩]
  | registerAlias {word name sign reg semicolon : Token} {r : Register}
      (hw : word.kind = .keyword .aliasWord) (hn : name.kind = .identifier)
      (hsign : sign.kind = .mark .equal) (hr : reg.register? = some r)
      (hs : semicolon.kind = .mark .semicolon) :
      StmtForm [word, name, sign, reg, semicolon] none [⟨.registerAlias r, name.ident⟩]
  | intrinsic {word semicolon : Token} {i : Intrinsic} {ts : List Token} {args : Arguments}
      (hw : word.kind = .intrinsic i) (hargs : ArgumentsForm ts args)
      (hs : semicolon.kind = .mark .semicolon) :
      StmtForm (word :: (ts ++ [semicolon]))
        (some (.intrinsic i args (word.span.merge semicolon.span))) []
  | call {name semicolon : Token} {ts : List Token} {args : Arguments}
      (hn : name.kind = .identifier) (hargs : ArgumentsForm ts args)
      (hs : semicolon.kind = .mark .semicolon) :
      StmtForm (name :: (ts ++ [semicolon]))
        (some (.call name.ident args (name.span.merge semicolon.span))) []
  | assign {sign semicolon : Token} {ls rs : List Token} {target value : Expr}
      (htarget : ExprForm Parser.lowest ls target) (hsign : sign.kind = .mark .equal)
      (hvalue : ExprForm Parser.lowest rs value) (hs : semicolon.kind = .mark .semicolon) :
      StmtForm (ls ++ sign :: (rs ++ [semicolon]))
        (some (.assign target value (target.span.merge semicolon.span))) []
  | compound {sign semicolon : Token} {op : Operator} {ls rs : List Token} {target value : Expr}
      (htarget : ExprForm Parser.lowest ls target) (hsign : sign.kind.compound? = some op)
      (hvalue : ExprForm Parser.lowest rs value) (hs : semicolon.kind = .mark .semicolon) :
      StmtForm (ls ++ sign :: (rs ++ [semicolon]))
        (some (.compound op target value (target.span.merge semicolon.span))) []

/-- The tokens that stand for statements in order, with all that they declare. -/
inductive StmtsForm : List Token → List Stmt → List Decl → Prop where
  | nil : StmtsForm [] [] []
  | cons {ts ts' : List Token} {s : Option Stmt} {own own' : List Decl} {stmts : List Stmt}
      (hs : StmtForm ts s own) (hrest : StmtsForm ts' stmts own') :
      StmtsForm (ts ++ ts') (s.toList ++ stmts) (own ++ own')

/-- The tokens that stand for a block in braces. -/
inductive BlockForm : List Token → Block → Prop where
  | braces {opening closing : Token} {ts : List Token} {stmts : List Stmt} {decls : List Decl}
      (ho : opening.kind = .mark .leftBrace) (h : StmtsForm ts stmts decls)
      (hc : closing.kind = .mark .rightBrace) :
      BlockForm (opening :: (ts ++ [closing])) ⟨decls, stmts, opening.span.merge closing.span⟩

end

/-- The tokens that stand for a program, the end of the text included. -/
inductive ProgramForm : List Token → Program → Prop where
  | toEnd {first last : Token} {ts : List Token} {stmts : List Stmt} {decls : List Decl}
      (h : StmtsForm ts stmts decls) (hlast : last.kind = .eof)
      (hfirst : (ts ++ [last]).head? = some first) :
      ProgramForm (ts ++ [last])
        ⟨⟨decls, stmts, first.span.merge last.span⟩, first.span.merge last.span⟩

/-! ### The marks of operators

The rules take from `TokenKind.binary?`, `TokenKind.unary?` and `TokenKind.compound?` which mark
stands for which operator, as the parser does.  That these tables are right does not rest on
the parser.  A mark stands for the operator that is written like it (`Operator.text`,
`Mark.spelling`), and for a compound assignment of the operator that is written like it up to
an equals sign.
-/

namespace Mark

theorem binary?_eq_some_iff {m : Mark} {op : Operator} :
    m.binary? = some op ↔ op.operatorClass = .binary ∧ m.spelling = op.text.toList := by
  constructor
  · intro h
    cases m <;> cases h <;> exact ⟨rfl, rfl⟩
  · rintro ⟨hclass, hspelling⟩
    have hall : op.operatorClass = .binary → ∀ m' ∈ all, m'.spelling = op.text.toList →
        m'.binary? = some op := by
      cases op <;> decide +kernel
    exact hall hclass m m.mem_all hspelling

theorem unary?_eq_some_iff {m : Mark} {op : Operator} :
    m.unary? = some op ↔ op.operatorClass = .unary ∧ m.spelling = op.text.toList := by
  constructor
  · intro h
    cases m <;> cases h <;> exact ⟨rfl, rfl⟩
  · rintro ⟨hclass, hspelling⟩
    have hall : op.operatorClass = .unary → ∀ m' ∈ all, m'.spelling = op.text.toList →
        m'.unary? = some op := by
      cases op <;> decide +kernel
    exact hall hclass m m.mem_all hspelling

/-- The exception is `<=` and `>=`, which compare. -/
theorem compound?_eq_some_iff {m : Mark} {op : Operator} :
    m.compound? = some op ↔ op.operatorClass = .binary ∧
      m.spelling = op.text.toList ++ ['='] ∧ m.binary? = none := by
  constructor
  · intro h
    cases m <;> cases h <;> exact ⟨rfl, rfl, rfl⟩
  · rintro ⟨hclass, hspelling, hbinary⟩
    have hall : op.operatorClass = .binary → ∀ m' ∈ all,
        m'.spelling = op.text.toList ++ ['='] → m'.binary? = none → m'.compound? = some op := by
      cases op <;> decide +kernel
    exact hall hclass m m.mem_all hspelling hbinary

end Mark

/-! ### The levels of operators

Precedence and grouping are numbers in the tables of `Operator`.  What is needed of them is
said once: all operators of one level group the same way, and prefix operators are above all
others.  From this it follows that of two operators in a row exactly one can have what is
between them (`leftMin_le_iff`).
-/

namespace Operator

/--
Of the operators between operands only exponentiation groups to the right, and it is
the tightest of them.
-/
theorem precedence_of_binary? {kind : TokenKind} {op : Operator} (h : kind.binary? = some op) :
    op.isLeftAssociative = true ∧ op.precedence < 90 ∨
      op.isLeftAssociative = false ∧ op.precedence = 90 := by
  cases kind with
  | mark m =>
      cases m <;> simp only [TokenKind.binary?, Mark.binary?, Option.some.injEq, reduceCtorEq] at h
        <;> subst h <;> decide
  | integer | identifier | register | keyword | intrinsic | eof => simp [TokenKind.binary?] at h

theorem precedence_lt_tightest {kind : TokenKind} {op : Operator} (h : kind.binary? = some op) :
    op.precedence < tightest := by
  unfold tightest
  rcases precedence_of_binary? h with ⟨-, h⟩ | ⟨-, h⟩ <;> omega

/--
Of two operators in a row the first one takes what stands between them just when its
result can be the left operand of the second.
-/
theorem leftMin_le_iff {kind kind' : TokenKind} {op op' : Operator} (h : kind.binary? = some op)
    (h' : kind'.binary? = some op') :
    op'.leftMin ≤ op.precedence ↔ op'.precedence < op.nextMin := by
  rcases precedence_of_binary? h with ⟨ha, hp⟩ | ⟨ha, hp⟩ <;>
    rcases precedence_of_binary? h' with ⟨ha', hp'⟩ | ⟨ha', hp'⟩ <;>
    simp only [leftMin, nextMin, ha, ha', if_true, Bool.false_eq_true, if_false] <;> omega

theorem precedence_le_leftMin (op : Operator) : op.precedence ≤ op.leftMin := by
  unfold leftMin
  split <;> omega

theorem precedence_le_nextMin (op : Operator) : op.precedence ≤ op.nextMin := by
  unfold nextMin
  split <;> omega

theorem precedence_of_unary? {kind : TokenKind} {op : Operator} (h : kind.unary? = some op) :
    op.precedence = tightest := by
  cases kind with
  | mark m =>
      cases m <;> simp only [TokenKind.unary?, Mark.unary?, Option.some.injEq, reduceCtorEq] at h
        <;> subst h <;> rfl
  | integer | identifier | register | keyword | intrinsic | eof => simp [TokenKind.unary?] at h

end Operator

/-! ### How forms start

A parser decides by the next token, so it matters with which tokens a form can start.
`startsExpr` and `startsStmt` list them.  For statements the second token matters once: a
name may start a call or an assignment, and `ExprForm.second` says that in an expression no
parenthesis follows a name.
-/

/-- Can an expression start with a token of this kind? -/
def TokenKind.startsExpr : TokenKind → Bool
  | integer | identifier | register => true
  | keyword .trueWord | keyword .falseWord => true
  | mark .leftParen | mark .minus | mark .tilde => true
  | _ => false

private theorem TokenKind.startsExpr_of_unary? {kind : TokenKind} {op : Operator}
    (h : kind.unary? = some op) : kind.startsExpr = true := by
  cases kind with
  | mark m => cases m <;> simp_all [unary?, Mark.unary?, startsExpr]
  | integer | identifier | register | keyword | intrinsic | eof => simp [unary?] at h

theorem ExprForm.head {m : Nat} {ts : List Token} {e : Expr} (h : ExprForm m ts e) :
    ∃ t rest, ts = t :: rest ∧ t.kind.startsExpr = true := by
  induction h with
  | integer hk => exact ⟨_, [], rfl, by rw [hk]; rfl⟩
  | trueWord hk => exact ⟨_, [], rfl, by rw [hk]; rfl⟩
  | falseWord hk => exact ⟨_, [], rfl, by rw [hk]; rfl⟩
  | register hr => exact ⟨_, [], rfl, by rw [Token.kind_of_register? hr]; rfl⟩
  | ident hk => exact ⟨_, [], rfl, by rw [hk]; rfl⟩
  | parens ho _ _ _ => exact ⟨_, _, rfl, by rw [ho]; rfl⟩
  | unary hop _ _ => exact ⟨_, _, rfl, TokenKind.startsExpr_of_unary? hop⟩
  | binary _ _ _ _ ihl _ =>
      obtain ⟨t, rest, rfl, hk⟩ := ihl
      exact ⟨t, _, rfl, hk⟩

theorem ArgsForm.head {ts : List Token} {es : List Expr} (h : ArgsForm ts es) :
    ∃ t rest, ts = t :: rest ∧ t.kind.startsExpr = true := by
  cases h with
  | last he => exact he.head
  | more he _ _ =>
      obtain ⟨t, rest, rfl, hk⟩ := he.head
      exact ⟨t, _, rfl, hk⟩

/-- Can a statement start with a token of this kind? -/
def TokenKind.startsStmt : TokenKind → Bool
  | keyword .ifWord | keyword .whileWord | keyword .funcWord | keyword .returnWord => true
  | keyword .varWord | keyword .aliasWord | intrinsic _ => true
  | kind => kind.startsExpr

private theorem TokenKind.startsStmt_of_startsExpr {kind : TokenKind} (h : kind.startsExpr = true) :
    kind.startsStmt = true := by
  unfold startsStmt
  split <;> first | rfl | exact h

theorem IfForm.head {ts : List Token} {s : Stmt} (h : IfForm ts s) :
    ∃ t rest, ts = t :: rest ∧ t.kind = .keyword .ifWord := by
  cases h with
  | ifThen hw _ _ => exact ⟨_, _, rfl, hw⟩
  | ifElse hw _ _ _ _ => exact ⟨_, _, rfl, hw⟩
  | elseIf hw _ _ _ _ => exact ⟨_, _, rfl, hw⟩

theorem StmtForm.head {ts : List Token} {s : Option Stmt} {own : List Decl}
    (h : StmtForm ts s own) : ∃ t rest, ts = t :: rest ∧ t.kind.startsStmt = true := by
  cases h with
  | conditional h =>
      obtain ⟨t, rest, rfl, hk⟩ := h.head
      exact ⟨t, rest, rfl, by rw [hk]; rfl⟩
  | whileLoop hw _ _ => exact ⟨_, _, rfl, by rw [hw]; rfl⟩
  | func hw _ _ => exact ⟨_, _, rfl, by rw [hw]; rfl⟩
  | ret hw _ => exact ⟨_, _, rfl, by rw [hw]; rfl⟩
  | retValue hw _ _ => exact ⟨_, _, rfl, by rw [hw]; rfl⟩
  | var hw _ _ => exact ⟨_, _, rfl, by rw [hw]; rfl⟩
  | varValue hw _ _ _ _ => exact ⟨_, _, rfl, by rw [hw]; rfl⟩
  | registerAlias hw _ _ _ _ => exact ⟨_, _, rfl, by rw [hw]; rfl⟩
  | intrinsic hw _ _ => exact ⟨_, _, rfl, by rw [hw]; rfl⟩
  | call hn _ _ => exact ⟨_, _, rfl, by rw [hn]; rfl⟩
  | assign htarget _ _ _ =>
      obtain ⟨t, rest, rfl, hk⟩ := htarget.head
      exact ⟨t, _, rfl, TokenKind.startsStmt_of_startsExpr hk⟩
  | compound htarget _ _ _ =>
      obtain ⟨t, rest, rfl, hk⟩ := htarget.head
      exact ⟨t, _, rfl, TokenKind.startsStmt_of_startsExpr hk⟩

theorem BlockForm.head {ts : List Token} {b : Block} (h : BlockForm ts b) :
    ∃ t rest, ts = t :: rest ∧ t.kind = .mark .leftBrace := by
  cases h with
  | braces ho _ _ => exact ⟨_, _, rfl, ho⟩

theorem ArgumentsForm.head {ts : List Token} {a : Arguments} (h : ArgumentsForm ts a) :
    ∃ t rest, ts = t :: rest ∧ t.kind = .mark .leftParen := by
  cases h with
  | none ho _ => exact ⟨_, _, rfl, ho⟩
  | some ho _ _ => exact ⟨_, _, rfl, ho⟩

/-- In an expression a name is followed by an operator or by nothing. -/
theorem ExprForm.second {m : Nat} {ts : List Token} {e : Expr} (h : ExprForm m ts e) :
    ∀ {t u : Token} {rest : List Token}, ts = t :: u :: rest → t.kind = .identifier →
      ∃ op, u.kind.binary? = some op := by
  induction h with
  | integer | trueWord | falseWord | register | ident => intro t u rest h; simp at h
  | parens ho _ _ _ =>
      intro t u rest h hk
      obtain ⟨rfl, -⟩ := List.cons.inj h
      simp [ho] at hk
  | unary hop _ _ =>
      intro t u rest h hk
      obtain ⟨rfl, -⟩ := List.cons.inj h
      simp [hk, TokenKind.unary?] at hop
  | @binary _ sign op ls rs l r hop _ hl _ ihl _ =>
      intro t u rest h hk
      obtain ⟨first, ls', rfl, -⟩ := hl.head
      cases ls' with
      | nil =>
          obtain ⟨rfl, rfl, -⟩ : first = t ∧ sign = u ∧ rs = rest := by simpa using h
          exact ⟨op, hop⟩
      | cons second ls' =>
          obtain ⟨rfl, rfl, -⟩ : first = t ∧ second = u ∧ _ = rest := by simpa using h
          exact ihl rfl hk

end StackCode
