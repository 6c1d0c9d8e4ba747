/-
Code for a resolved program.

The statements at the top of a program become the section `main`, which ends by
halting; every function becomes a section of its own, which ends by returning.
Sections are numbered before any code is written, so a call may stand before the
function it calls.

Code is written in one pass.  Operands are pushed from left to right, then the
operator combines them; a condition is popped by the jump that tests it.  Every
instruction belongs to the line of the statement it was written for.
-/
import StackCode.Emitter
import StackCode.Error
import StackCode.Image
import StackCode.Symbol

namespace StackCode

/-- What can be chosen about a compilation. -/
structure CompileOptions where
  /-- The distance of tab stops, for the columns in diagnostics. -/
  tabWidth : Nat
  /-- Should the image carry line tables? -/
  debugLines : Bool
  /-- The greatest number of sections in the image. -/
  maxSections : UInt16
deriving DecidableEq, Repr

namespace CompileOptions

def default : CompileOptions := ⟨4, false, 65535⟩

/-- The options with another tab width, which is at least one. -/
def withTabWidth (o : CompileOptions) (tabWidth : Nat) : CompileOptions :=
  { o with tabWidth := max tabWidth 1 }

end CompileOptions

/-- A step of writing code. -/
abbrev Generating := EStateM CodegenError Emitter

/-- What the code of a section depends on. -/
structure CodeContext where
  resolutions : Resolutions
  /-- The code section of every function, by the number of its symbol. -/
  sections : Std.TreeMap Nat UInt16
  /-- The instruction that leaves the section. -/
  exit : Opcode

/-- Where a value is kept. -/
inductive Storage where
  | register (r : Register)
  | slot (n : UInt16)
deriving DecidableEq, Repr

namespace CodeContext

/-- The error for a name that analysis has not resolved. -/
def unresolved (id : Ident) : CodegenError :=
  .internal id.span ("identifier '" ++ id.name ++ "' was not resolved")

/-- How many variables there can be. -/
def maxVariables : Nat := 65536

/-- Where the value of a name is kept. -/
def identStorage (g : CodeContext) (id : Ident) : Except CodegenError Storage :=
  match g.resolutions.resolveSymbol? id with
  | none => .error (unresolved id)
  | some s =>
    match s.kind, s.slot? with
    | .registerAlias r, _ => .ok (.register r)
    | .var, some slot =>
      if slot < maxVariables then .ok (.slot (UInt16.ofNat slot))
      else .error (.limitExceeded id.span "variables" maxVariables)
    | _, _ => .error (.internal id.span ("'" ++ id.name ++ "' is not a storage location"))

/-- Where the value of an expression is kept, if it is kept anywhere. -/
def storage (g : CodeContext) : Expr → Except CodegenError Storage
  | .register r _ => .ok (.register r)
  | .ident id => g.identStorage id
  | e@(.binary ..) | e@(.unary ..) | e@(.integer ..) | e@(.boolean ..) =>
    .error (.internal e.span "expression is not a storage location")

/-- The register that an argument names. -/
def registerOperand (g : CodeContext) (e : Expr) : Except CodegenError Register :=
  match g.storage e with
  | .error err => .error err
  | .ok (.register r) => .ok r
  | .ok (.slot _) => .error (.internal e.span "expected a register operand")

/-- The code section of the function that a name calls. -/
def sectionOf (g : CodeContext) (id : Ident) : Except CodegenError UInt16 :=
  match (g.resolutions.resolve? id).bind fun decl => g.sections[decl]? with
  | some index => .ok index
  | none => .error (unresolved id)

end CodeContext

namespace Codegen

/-! ### Steps -/

/-- Write instructions that cannot fail. -/
def emit (f : Emitter → Emitter) : Generating Unit := modify f

/-- Take an answer, or stop with its error. -/
def ofExcept {α : Type} (x : Except CodegenError α) : Generating α :=
  match x with
  | .ok a => pure a
  | .error e => throw e

/-- The instruction for an operator, or the error that it has none. -/
def opcodeOr (op? : Option Opcode) (span : Span) (message : String) : Generating Opcode :=
  match op? with
  | some op => pure op
  | none => throw (.internal span message)

/-- The error for a jump that is too long. -/
def jumpTooLong (span : Span) : CodegenError :=
  .limitExceeded span "bytes in a jump" Chunk.maxDistance

/-- Take a step, and let a jump that is too long be an error at a span. -/
def within (span : Span) (step : Emitter.Jumping Unit) : Generating Unit := fun e =>
  match step e with
  | .ok _ e => .ok () e
  | .error _ e => .error (jumpTooLong span) e

/-- Write a forward jump; the answer is the offset of its operand. -/
def jump (op : Opcode) : Generating Nat := fun e =>
  let (e, offset) := e.jump op
  .ok offset e

/-- Let a jump land here. -/
def patch (offset : Nat) (span : Span) : Generating Unit := within span (Emitter.patch offset)

/-- Write a jump back to `start`. -/
def loop (start : Nat) (span : Span) : Generating Unit := within span (Emitter.loop start)

/-- Push a stored value. -/
def load : Storage → Generating Unit
  | .register r => emit (·.loadReg r)
  | .slot n => emit (·.loadVar n)

/-- Pop into storage. -/
def store : Storage → Generating Unit
  | .register r => emit (·.storeReg r)
  | .slot n => emit (·.storeVar n)

/-! ### Expressions -/

/-- Push the value of an expression. -/
def expr (g : CodeContext) : Expr → Generating Unit
  | .integer n _ => emit (·.int n)
  | .boolean b _ => emit (·.bool b)
  | .register r _ => emit (·.loadReg r)
  | .ident id => do
    let place ← ofExcept (g.identStorage id)
    load place
  | .unary op operand span => do
    expr g operand
    let opcode ← opcodeOr op.unaryOpcode? span "not a unary operator"
    emit (·.op opcode)
  | .binary op left right span => do
    expr g left
    expr g right
    let opcode ← opcodeOr op.binaryOpcode? span "not a binary operator"
    emit (·.op opcode)

/-! ### Simple statements -/

/-- Write a value to a target. -/
def assign (g : CodeContext) (target value : Expr) : Generating Unit := do
  let place ← ofExcept (g.storage target)
  expr g value
  store place

/-- Combine a target with a value; the target is looked up once. -/
def compound (g : CodeContext) (op : Operator) (target value : Expr) (span : Span) :
    Generating Unit := do
  let place ← ofExcept (g.storage target)
  let opcode ← opcodeOr op.binaryOpcode? span "not a binary operator"
  load place
  expr g value
  emit (·.op opcode)
  store place

/-- Leave the section, with a value in the first register if there is one. -/
def ret (g : CodeContext) : Option Expr → Generating Unit
  | none => emit (·.op g.exit)
  | some value => do
    expr g value
    emit (·.storeReg .r0)
    emit (·.op g.exit)

/-- The error for an intrinsic without enough arguments. -/
def missingArguments (i : Intrinsic) (span : Span) : CodegenError :=
  .internal span ("'" ++ i.name ++ "' needs " ++ toString i.arity ++ " arguments")

/-- Use an intrinsic.  Registers are named in the instruction, values are pushed before it. -/
def intrinsic (g : CodeContext) (i : Intrinsic) (args : List Expr) (span : Span) :
    Generating Unit :=
  match i, args with
  | .cas, target :: expected :: new :: _ => do
    let r ← ofExcept (g.registerOperand target)
    expr g expected
    expr g new
    emit (·.cas r)
  | .cpy, dst :: src :: len :: _ => do
    expr g dst
    expr g src
    expr g len
    emit (·.op .cpy)
  | .dbg, value :: _ => do
    expr g value
    emit (·.op .dbg)
  | .int, value :: _ => do
    expr g value
    emit (·.op .int)
  | .xchg, left :: right :: _ => do
    let a ← ofExcept (g.registerOperand left)
    let b ← ofExcept (g.registerOperand right)
    emit (·.xchg a b)
  | i, _ => throw (missingArguments i span)

/-- Call a function. -/
def call (g : CodeContext) (name : Ident) : Generating Unit := do
  let index ← ofExcept (g.sectionOf name)
  emit (·.call index)

/-! ### Statements -/

/-- Write a step that is jumped over if a condition does not hold. -/
def ifThen (cond body : Generating Unit) (span : Span) : Generating Unit := do
  cond
  let toEnd ← jump .jumpIfFalse
  body
  patch toEnd span

/-- Write two steps of which one is jumped over.  The jump over the other is on its line. -/
def ifElse (cond body otherwise : Generating Unit) (otherLine : Nat) (span : Span) :
    Generating Unit := do
  cond
  let toElse ← jump .jumpIfFalse
  body
  emit (·.setLine otherLine)
  let toEnd ← jump .jump
  patch toElse span
  otherwise
  patch toEnd span

/-- Write a step that is repeated as long as a condition holds. -/
def whileLoop (cond body : Generating Unit) (span : Span) : Generating Unit := do
  let start := (← get).size
  cond
  let toEnd ← jump .jumpIfFalse
  body
  emit (·.setLine span.line)
  loop start span
  patch toEnd span

mutual

/-- Write a statement on its line.  A function inside it gets no code here. -/
def stmt (g : CodeContext) (s : Stmt) : Generating Unit := do
  emit (·.setLine s.span.line)
  match s with
  | .assign target value _ => assign g target value
  | .compound op target value span => compound g op target value span
  | .ifThen cond body span => ifThen (expr g cond) (block g body) span
  | .ifElse cond body _ elseBody span =>
    ifElse (expr g cond) (block g body) (block g elseBody) elseBody.span.line span
  | .whileLoop cond body span => whileLoop (expr g cond) (block g body) span
  | .func .. => pure ()
  | .ret value _ => ret g value
  | .intrinsic i args span => intrinsic g i args.args span
  | .call name _ _ => call g name

/-- Write the statements of a block. -/
def block (g : CodeContext) : Block → Generating Unit
  | ⟨_, body, _⟩ => stmts g body

/-- Write statements in order. -/
def stmts (g : CodeContext) : List Stmt → Generating Unit
  | [] => pure ()
  | s :: rest => do
    stmt g s
    stmts g rest

end

/-- The code of a section: a block, and the way out after it. -/
def sectionCode (g : CodeContext) (body : Block) : Except CodegenError Chunk :=
  let written : Generating Unit := do
    block g body
    emit (·.op g.exit)
  match written .start with
  | .ok _ e => .ok e.chunk
  | .error e _ => .error e

end Codegen

/-! ### Sections -/

/-- The code of one section under its name. -/
structure CodeSection where
  name : String
  chunk : Chunk
deriving DecidableEq, Repr

namespace Codegen

/--
Names for the sections of functions, after those in `done`, the last one first.
A name that was used `n` times already is told apart by the next number.
-/
def sectionNamesFrom (done : List String) (used : Std.TreeMap String Nat) :
    List String → List String
  | [] => done.reverse
  | name :: rest =>
    let count := (used[name]?).getD 0 + 1
    let unique := if count = 1 then name else name ++ "#" ++ toString count
    sectionNamesFrom (unique :: done) (used.insert name count) rest

/-- Names for the sections of functions, all different and none of them `main`. -/
def sectionNames (functions : List Func) : List String :=
  sectionNamesFrom [] ((∅ : Std.TreeMap String Nat).insert Section.entryName 1)
    (functions.map (·.name.name))

/-- The longest name of a code section in bytes; a line table adds to the name. -/
def maxNameBytes (o : CompileOptions) : Nat :=
  if o.debugLines then 65535 - (Section.linesName "").utf8ByteSize else 65535

/-- The number of sections that a program takes. -/
def sectionCount (o : CompileOptions) (functions slots : Nat) : Nat :=
  let code := functions + 1
  let data := if slots = 0 then 0 else 1
  let debug := if o.debugLines then code else 0
  code + data + debug

/-- What makes a program too large before any code is written. -/
def limit? (o : CompileOptions) (r : Resolutions) (p : Program) (functions : Nat) :
    Option CodegenError :=
  if CodeContext.maxVariables < r.variableCount then
    let first := r.symbols.find? fun s => s.slot? == some CodeContext.maxVariables
    let span := (first.map (·.span)).getD p.span
    some (.limitExceeded span "variables" CodeContext.maxVariables)
  else if o.maxSections.toNat < sectionCount o functions r.variableCount then
    some (.limitExceeded p.span "sections" o.maxSections.toNat)
  else none

/-- Number the sections of functions from `index` on. -/
def numberSections (o : CompileOptions) (r : Resolutions) (sections : Std.TreeMap Nat UInt16) :
    Nat → List (Func × String) → Except CodegenError (Std.TreeMap Nat UInt16)
  | _, [] => .ok sections
  | index, (f, name) :: rest =>
    if maxNameBytes o < name.utf8ByteSize then
      .error (.limitExceeded f.name.span "section name bytes" (maxNameBytes o))
    else
      match r.declaration? f.name with
      | none => .error (CodeContext.unresolved f.name)
      | some decl =>
        numberSections o r (sections.insert decl (UInt16.ofNat index)) (index + 1) rest

/-- The code of a function's section. -/
def functionSection (r : Resolutions) (sections : Std.TreeMap Nat UInt16) (f : Func)
    (name : String) : Except CodegenError CodeSection := do
  let chunk ← sectionCode ⟨r, sections, .ret⟩ f.body
  return ⟨name, chunk⟩

/-- The code of `main` and of every function. -/
def codeSections (o : CompileOptions) (r : Resolutions) (p : Program) :
    Except CodegenError (List CodeSection) :=
  let functions := p.functions
  match limit? o r p functions.length with
  | some e => .error e
  | none => do
    let named := functions.zip (sectionNames functions)
    let sections ← numberSections o r ∅ 1 named
    let main ← sectionCode ⟨r, sections, .halt⟩ p.block
    let rest ← named.mapM fun (f, name) => functionSection r sections f name
    return ⟨Section.entryName, main⟩ :: rest

/-- The image of code sections: the code, the variables, and the line tables if asked for. -/
def package (o : CompileOptions) (slots : Nat) (code : List CodeSection) : Image :=
  let data := if slots = 0 then [] else [Section.storage slots]
  let debug :=
    if o.debugLines then code.map fun s => Section.lines s.name s.chunk.lineTable else []
  Image.ofSections (if o.debugLines then Header.debugLinesFlag else 0)
    (code.map (fun s => Section.code s.name s.chunk.code.toList) ++ data ++ debug)

/-- The image of a resolved program. -/
def generate (o : CompileOptions) (r : Resolutions) (p : Program) : Except CodegenError Image := do
  let code ← codeSections o r p
  return package o r.variableCount code

end Codegen

end StackCode
