/-
Programs that differ in their layout only.

Two texts with the same tokens in different places are read as two trees of the same shape
whose spans differ.  What has to be known about the spans is little.  Names are recorded
under their spans, so the spans of names must be told apart in one text just when they are
in the other (`Matching.span_eq_iff`).  The lines of statements go into line tables, so they
are the same if such tables are to be compared (`Matching.lines`).  All other spans only
serve messages.

`Matching` is what relates the places in two texts, and the relations after it carry it over
to tokens (`TokenAlike`) and trees (`ExprAlike`, `StmtAlike`, `BlockAlike`).  An error is
compared without its places, by `unplaced`.
-/
import Mathlib.Data.List.Forall2
import StackCode.Compiler

namespace StackCode

/-- How the places in one text correspond to those in another. -/
structure Matching where
  /-- Are lines kept? -/
  lines : Prop
  /-- The same name, as it is written in the one text and in the other. -/
  Name : Ident → Ident → Prop
  name_eq : ∀ {a b : Ident}, Name a b → a.name = b.name
  line_eq : ∀ {a b : Ident}, Name a b → lines → a.span.line = b.span.line
  /-- Names at one place in the one text are at one place in the other. -/
  span_eq_iff : ∀ {a a' b b' : Ident}, Name a a' → Name b b' →
    (a.span = b.span ↔ a'.span = b'.span)

/-! ### Tokens and trees

The relations have one case for each constructor, with all that is no span the same on both
sides.  A span is kept alike only as far as its line goes, so that the span of an `if`
before an `else` needs no condition at all: nothing but an error could show it.
-/

section Trees

variable (M : Matching)

/-- Spans that may correspond to each other. -/
def SpanAlike (s s' : Span) : Prop := M.lines → s.line = s'.line

/-- The same token in two texts. -/
structure TokenAlike (t t' : Token) : Prop where
  kind : t.kind = t'.kind
  lexeme : t.lexeme = t'.lexeme
  span : SpanAlike M t.span t'.span
  name : t.kind = .identifier → M.Name ⟨t.lexeme, t.span⟩ ⟨t'.lexeme, t'.span⟩

/-- The same declaration in two texts. -/
structure DeclAlike (d d' : Decl) : Prop where
  kind : d.kind = d'.kind
  name : M.Name d.name d'.name

/-- The same expression in two texts. -/
inductive ExprAlike : Expr → Expr → Prop where
  | binary {op : Operator} {l l' r r' : Expr} {s s' : Span} (hl : ExprAlike l l')
      (hr : ExprAlike r r') (hs : SpanAlike M s s') :
      ExprAlike (.binary op l r s) (.binary op l' r' s')
  | unary {op : Operator} {e e' : Expr} {s s' : Span} (he : ExprAlike e e')
      (hs : SpanAlike M s s') : ExprAlike (.unary op e s) (.unary op e' s')
  | integer {n : UInt64} {s s' : Span} (hs : SpanAlike M s s') :
      ExprAlike (.integer n s) (.integer n s')
  | boolean {b : Bool} {s s' : Span} (hs : SpanAlike M s s') :
      ExprAlike (.boolean b s) (.boolean b s')
  | register {r : Register} {s s' : Span} (hs : SpanAlike M s s') :
      ExprAlike (.register r s) (.register r s')
  | ident {id id' : Ident} (h : M.Name id id') : ExprAlike (.ident id) (.ident id')

mutual

/-- The same statement in two texts. -/
inductive StmtAlike : Stmt → Stmt → Prop where
  | assign {t t' v v' : Expr} {s s' : Span} (ht : ExprAlike M t t') (hv : ExprAlike M v v')
      (hs : SpanAlike M s s') : StmtAlike (.assign t v s) (.assign t' v' s')
  | compound {op : Operator} {t t' v v' : Expr} {s s' : Span} (ht : ExprAlike M t t')
      (hv : ExprAlike M v v') (hs : SpanAlike M s s') :
      StmtAlike (.compound op t v s) (.compound op t' v' s')
  | ifThen {c c' : Expr} {b b' : Block} {s s' : Span} (hc : ExprAlike M c c')
      (hb : BlockAlike b b') (hs : SpanAlike M s s') : StmtAlike (.ifThen c b s) (.ifThen c' b' s')
  | ifElse {c c' : Expr} {b b' e e' : Block} {i i' s s' : Span} (hc : ExprAlike M c c')
      (hb : BlockAlike b b') (he : BlockAlike e e') (hs : SpanAlike M s s') :
      StmtAlike (.ifElse c b i e s) (.ifElse c' b' i' e' s')
  | whileLoop {c c' : Expr} {b b' : Block} {s s' : Span} (hc : ExprAlike M c c')
      (hb : BlockAlike b b') (hs : SpanAlike M s s') :
      StmtAlike (.whileLoop c b s) (.whileLoop c' b' s')
  | func {n n' : Ident} {b b' : Block} {s s' : Span} (hn : M.Name n n') (hb : BlockAlike b b')
      (hs : SpanAlike M s s') : StmtAlike (.func n b s) (.func n' b' s')
  | ret {v v' : Option Expr} {s s' : Span} (hv : Option.Rel (ExprAlike M) v v')
      (hs : SpanAlike M s s') : StmtAlike (.ret v s) (.ret v' s')
  | intrinsic {i : Intrinsic} {a a' : Arguments} {s s' : Span}
      (ha : List.Forall₂ (ExprAlike M) a.args a'.args) (hs : SpanAlike M s s') :
      StmtAlike (.intrinsic i a s) (.intrinsic i a' s')
  | call {n n' : Ident} {a a' : Arguments} {s s' : Span} (hn : M.Name n n')
      (ha : List.Forall₂ (ExprAlike M) a.args a'.args) (hs : SpanAlike M s s') :
      StmtAlike (.call n a s) (.call n' a' s')

/-- The same block in two texts. -/
inductive BlockAlike : Block → Block → Prop where
  | mk {d d' : List Decl} {b b' : List Stmt} {s s' : Span}
      (hd : List.Forall₂ (DeclAlike M) d d') (hb : StmtsAlike b b') (hs : SpanAlike M s s') :
      BlockAlike ⟨d, b, s⟩ ⟨d', b', s'⟩

/-- The same statements in two texts. -/
inductive StmtsAlike : List Stmt → List Stmt → Prop where
  | nil : StmtsAlike [] []
  | cons {a a' : Stmt} {b b' : List Stmt} (ha : StmtAlike a a') (hb : StmtsAlike b b') :
      StmtsAlike (a :: b) (a' :: b')

end

end Trees

section Spans

variable {M : Matching}

/-- A construct stands on the line of its first part. -/
theorem SpanAlike.merge {s s' : Span} (h : SpanAlike M s s') (t t' : Span) :
    SpanAlike M (s.merge t) (s'.merge t') := by
  have hline : ∀ a b : Span, (a.merge b).line = a.line := by
    intro a b
    unfold Span.merge
    split <;> rfl
  intro hlines
  rw [hline, hline]
  exact h hlines

theorem TokenAlike.describe {t t' : Token} (h : TokenAlike M t t') : t.describe = t'.describe := by
  unfold Token.describe
  rw [h.kind, h.lexeme]

theorem TokenAlike.register? {t t' : Token} (h : TokenAlike M t t') :
    t.register? = t'.register? := by
  unfold Token.register?
  rw [h.kind, h.lexeme]

theorem ExprAlike.span {e e' : Expr} (h : ExprAlike M e e') : SpanAlike M e.span e'.span := by
  cases h with
  | binary _ _ hs => exact hs
  | unary _ hs => exact hs
  | integer hs => exact hs
  | boolean hs => exact hs
  | register hs => exact hs
  | ident h => exact M.line_eq h

theorem StmtAlike.span {s s' : Stmt} (h : StmtAlike M s s') : SpanAlike M s.span s'.span := by
  cases h with
  | assign _ _ hs => exact hs
  | compound _ _ hs => exact hs
  | ifThen _ _ hs => exact hs
  | ifElse _ _ _ hs => exact hs
  | whileLoop _ _ hs => exact hs
  | func _ _ hs => exact hs
  | ret _ hs => exact hs
  | intrinsic _ hs => exact hs
  | call _ _ hs => exact hs

theorem BlockAlike.span {b b' : Block} (h : BlockAlike M b b') : SpanAlike M b.span b'.span := by
  cases h with
  | mk _ _ hs => exact hs

theorem StmtsAlike.append {a a' b b' : List Stmt} (ha : StmtsAlike M a a')
    (hb : StmtsAlike M b b') : StmtsAlike M (a ++ b) (a' ++ b') := by
  induction a generalizing a' with
  | nil =>
      cases ha with
      | nil => exact hb
  | cons s a ih =>
      cases ha with
      | cons hs ha => exact .cons hs (ih ha)

theorem StmtsAlike.reverse {a a' : List Stmt} (h : StmtsAlike M a a') :
    StmtsAlike M a.reverse a'.reverse := by
  induction a generalizing a' with
  | nil =>
      cases h with
      | nil => exact .nil
  | cons s a ih =>
      cases h with
      | cons hs h =>
          rw [List.reverse_cons, List.reverse_cons]
          exact (ih h).append (.cons hs .nil)

end Spans

/-! ### Errors without their places

Every type of error has a place in each constructor.  `unplaced` puts `default` there and
keeps the rest, so to say that two errors differ in their places only is an equation.
-/

namespace LexError

/-- The error at no place in particular. -/
def unplaced : LexError → LexError
  | unexpectedCharacter _ ch => unexpectedCharacter default ch
  | expectedCharacter _ expected => expectedCharacter default expected

end LexError

namespace ParseError

@[inherit_doc LexError.unplaced]
def unplaced : ParseError → ParseError
  | expected _ what => expected default what
  | expectedToken _ what found => expectedToken default what found
  | unexpected _ found => unexpected default found
  | unexpectedToken _ token => unexpectedToken default token

end ParseError

namespace SemanticError

@[inherit_doc LexError.unplaced]
def unplaced : SemanticError → SemanticError
  | alreadyDefined _ identifier _ => alreadyDefined default identifier default
  | identifierNotFound _ identifier => identifierNotFound default identifier
  | expectedLValue _ => expectedLValue default
  | wrongType _ message => wrongType default message
  | wrongNumberOfArguments _ name expected found =>
    wrongNumberOfArguments default name expected found

end SemanticError

namespace CodegenError

@[inherit_doc LexError.unplaced]
def unplaced : CodegenError → CodegenError
  | limitExceeded _ what limit => limitExceeded default what limit
  | internal _ message => internal default message

end CodegenError

@[inherit_doc LexError.unplaced]
def SourceError.unplaced : SourceError → SourceError
  | lex e => lex e.unplaced
  | parse e => parse e.unplaced

@[inherit_doc LexError.unplaced]
def Error.unplaced : Error → Error
  | lex e => lex e.unplaced
  | parse e => parse e.unplaced
  | semantic e => semantic e.unplaced
  | codegen e => codegen e.unplaced
  | format e => format e

end StackCode
