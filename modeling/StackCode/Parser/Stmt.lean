/-
Reading statements, blocks and programs.

A statement is known by its first token, except that a name starts a call if a
parenthesis follows it and an assignment otherwise.  Names are recorded on the
block around them as soon as they are read, so a declaration stands even if the
rest of its statement does not.
-/
import StackCode.Parser.Expr

namespace StackCode

namespace Parser

/-! ### Blocks -/

/-- Read statements after those in `done` up to `closing`, which is left standing. -/
def statementsUntil (statement : Parsing (Option Stmt)) (closing : TokenKind) (done : List Stmt) :
    Nat → Parsing (List Stmt)
  | 0 => outOfFuel
  | n + 1 => do
    if ← check closing then
      return done.reverse
    else
      if ← isEof then
        let _ ← expect closing
      match ← statement with
      | some s => statementsUntil statement closing (s :: done) n
      | none => statementsUntil statement closing done n

/-- Read a block in braces. -/
def blockOf (statement : Parsing (Option Stmt)) (n : Nat) : Parsing Block := do
  let opening ← expectMark .leftBrace
  let (stmts, decls) ← inBlock (statementsUntil statement (.mark .rightBrace) [] n)
  let closing ← advance
  return ⟨decls, stmts, opening.span.merge closing.span⟩

/-! ### Statements with blocks -/

/-- Read an `if` and what follows an `else`, if there is one. -/
def ifStatement (expr : Parsing Expr) (block : Parsing Block) : Nat → Parsing Stmt
  | 0 => outOfFuel
  | n + 1 => do
    let word ← expect (.keyword .ifWord)
    let cond ← expr
    let body ← block
    let span := word.span.merge body.span
    match ← eat (.keyword .elseWord) with
    | none => return .ifThen cond body span
    | some _ =>
      if ← check (.keyword .ifWord) then
        -- A chained `if` is the only statement of a block of its own.
        let chained ← ifStatement expr block n
        return .ifElse cond body span ⟨[], [chained], chained.span⟩ (span.merge chained.span)
      else
        let elseBody ← block
        return .ifElse cond body span elseBody (span.merge elseBody.span)

/-- Read a `while`. -/
def whileStatement (expr : Parsing Expr) (block : Parsing Block) : Parsing Stmt := do
  let word ← expect (.keyword .whileWord)
  let cond ← expr
  let body ← block
  return .whileLoop cond body (word.span.merge body.span)

/-- Read a function and declare its name. -/
def funcStatement (block : Parsing Block) : Parsing Stmt := do
  let word ← expect (.keyword .funcWord)
  let name ← ident
  declare ⟨.func, name⟩
  let body ← block
  return .func name body (word.span.merge body.span)

/-! ### Simple statements -/

/-- Read a `return`, with or without a value. -/
def returnStatement (expr : Parsing Expr) : Parsing Stmt := do
  let word ← expect (.keyword .returnWord)
  let value ← if ← check (.mark .semicolon) then pure none else some <$> expr
  let semicolon ← expectMark .semicolon
  return .ret value (word.span.merge semicolon.span)

/-- Read a variable declaration.  An initial value is assigned like any other. -/
def varStatement (expr : Parsing Expr) : Parsing (Option Stmt) := do
  let word ← expect (.keyword .varWord)
  let name ← ident
  declare ⟨.var, name⟩
  match ← eat (.mark .equal) with
  | none =>
    let _ ← expectMark .semicolon
    return none
  | some _ =>
    let value ← expr
    let semicolon ← expectMark .semicolon
    return some (.assign (.ident name) value (word.span.merge semicolon.span))

/-- Read a name for a register, declared once the statement is complete. -/
def aliasStatement : Parsing Unit := do
  let _ ← expect (.keyword .aliasWord)
  let name ← ident
  let _ ← expectMark .equal
  let t ← peek
  match t.register? with
  | none => expected t "register"
  | some r =>
    let _ ← advance
    let _ ← expectMark .semicolon
    declare ⟨.registerAlias r, name⟩

/-- Read the use of an intrinsic. -/
def intrinsicStatement (args : Parsing Arguments) : Parsing Stmt := do
  let word ← advance
  match word.kind.intrinsic? with
  | none => unexpected word
  | some i =>
    let args ← args
    let semicolon ← expectMark .semicolon
    return .intrinsic i args (word.span.merge semicolon.span)

/-- Read a call. -/
def callStatement (args : Parsing Arguments) : Parsing Stmt := do
  let name ← ident
  let args ← args
  let semicolon ← expectMark .semicolon
  return .call name args (name.span.merge semicolon.span)

/-- Read an assignment.  Any expression can stand to the left; what may, is not decided here. -/
def assignStatement (expr : Parsing Expr) : Parsing Stmt := do
  let target ← expr
  let sign ← peek
  if sign.kind.isAssignment then
    let _ ← advance
    let value ← expr
    let semicolon ← expectMark .semicolon
    let span := target.span.merge semicolon.span
    match sign.kind.compound? with
    | none => return .assign target value span
    | some op => return .compound op target value span
  else
    expected sign "assignment operator"

/-! ### Statements and programs -/

/--
Read one statement with the given readers for its parts.  A declaration without an
initial value is no statement.
-/
def statementOf (expr : Parsing Expr) (args : Parsing Arguments) (block : Parsing Block) (n : Nat) :
    Parsing (Option Stmt) := do
  let t ← peek
  match t.kind with
  | .keyword .ifWord => some <$> ifStatement expr block n
  | .keyword .whileWord => some <$> whileStatement expr block
  | .keyword .funcWord => some <$> funcStatement block
  | .keyword .returnWord => some <$> returnStatement expr
  | .keyword .varWord => varStatement expr
  | .keyword .aliasWord =>
    aliasStatement
    return none
  | .intrinsic _ => some <$> intrinsicStatement args
  | .identifier =>
    -- The name is put back only once the token after it could be read.
    let name ← advance
    let isCall ← check (.mark .leftParen)
    pushBack name
    if isCall then some <$> callStatement args else some <$> assignStatement expr
  | .keyword .elseWord =>
    let _ ← advance
    unexpectedToken t
  | _ => some <$> assignStatement expr

/-- Read one statement, with blocks nested at most `n` deep. -/
def statementAt : Nat → Parsing (Option Stmt)
  | 0 => outOfFuel
  | n + 1 =>
    statementOf (exprAt (n + 1) lowest) (argumentList (exprAt (n + 1) lowest) (n + 1))
      (blockOf (statementAt n) n) (n + 1)

/-- Read one statement. -/
def statement : Parsing (Option Stmt) := do statementAt (← fuel)

/-- Read a block in braces. -/
def block : Parsing Block := do
  let n ← fuel
  blockOf (statementAt n) n

/-- Read statements after those in `done` up to the end of the text. -/
def statementsToEnd (statement : Parsing (Option Stmt)) (done : List Stmt) :
    Nat → Parsing (List Stmt)
  | 0 => outOfFuel
  | n + 1 => do
    if ← isEof then
      return done.reverse
    else
      if ← check (.mark .rightBrace) then
        let t ← advance
        unexpectedToken t
      match ← statement with
      | some s => statementsToEnd statement (s :: done) n
      | none => statementsToEnd statement done n

/-- Read a program up to the end of the text. -/
def program : Parsing Program := do
  let first ← peek
  let n ← fuel
  let (stmts, decls) ← inBlock (statementsToEnd (statementAt n) [] n)
  let last ← peek
  let span := first.span.merge last.span
  return ⟨⟨decls, stmts, span⟩, span⟩

end Parser

/-- The program that a source text spells. -/
def Program.parse (source : String) (tabWidth : Nat) : Except SourceError Program :=
  match Parser.program (.ofSource source tabWidth) with
  | .ok p _ => .ok p
  | .error e _ => .error e

end StackCode
