/-
Symbols: what the names of a program stand for.

Every declared name is a symbol, numbered in the order of declaration.  Variables
have a storage slot and, once it is known, a type; an alias is a register under
another name.  Where a name is used or declared is recorded by the span of the
name alone.

`addSymbol` fills in all that is known of a symbol when it is declared.  After that only
its type changes, by `setType`, which writes whatever was there before.
-/
import StackCode.Operator.Typing
import StackCode.Program
import Std.Data.TreeMap

namespace StackCode

/-- What a symbol is. -/
inductive SymbolKind where
  | var
  | func
  | registerAlias (r : Register)
deriving DecidableEq, Repr

/-- The kind in words. -/
def SymbolKind.describe : SymbolKind → String
  | var => "variable"
  | func => "function"
  | registerAlias _ => "register alias"

/-- What a declaration makes of its name. -/
def DeclKind.symbolKind : DeclKind → SymbolKind
  | var => .var
  | func => .func
  | registerAlias r => .registerAlias r

/-- A declared name. -/
structure Symbol where
  name : String
  kind : SymbolKind
  /-- Where the name was declared. -/
  span : Span
  /-- The type of the value, as far as it is known. -/
  type? : Option ValueType
  /-- The storage slot, for variables. -/
  slot? : Option Nat
  /-- Was the symbol introduced by an assignment? -/
  isImplicit : Bool
deriving DecidableEq, Repr

namespace Symbol

instance : Inhabited Symbol := ⟨⟨"", .func, ⟨0, 0, 0⟩, none, none, false⟩⟩

/-- The register that an alias names. -/
def register? (s : Symbol) : Option Register :=
  match s.kind with
  | .registerAlias r => some r
  | .var | .func => none

/-- The symbol with a type, whatever it had before. -/
def setType (type : ValueType) (s : Symbol) : Symbol := { s with type? := some type }

end Symbol

/-- What the names of a program stand for. -/
structure Resolutions where
  symbols : Array Symbol
  /-- The symbol that the name at a span uses. -/
  references : Std.TreeMap Span Nat
  /-- The symbol that the name at a span declares. -/
  declarations : Std.TreeMap Span Nat
  /-- How many slots the variables take. -/
  variableCount : Nat

namespace Resolutions

def empty : Resolutions := ⟨#[], ∅, ∅, 0⟩

/-- The symbol that a name uses. -/
def resolve? (r : Resolutions) (id : Ident) : Option Nat := r.references[id.span]?

/-- The symbol that a name declares. -/
def declaration? (r : Resolutions) (id : Ident) : Option Nat := r.declarations[id.span]?

/-- The symbol that a name uses, with all that is known of it. -/
def resolveSymbol? (r : Resolutions) (id : Ident) : Option Symbol :=
  (r.resolve? id).bind fun i => r.symbols[i]?

/-- The symbol with a number that was given out. -/
def symbol (r : Resolutions) (decl : Nat) : Symbol := r.symbols[decl]!

/-- Add a symbol.  A variable gets the next slot, and an alias is an integer. -/
def addSymbol (r : Resolutions) (id : Ident) (kind : DeclKind) (implicit : Bool) : Resolutions :=
  match kind with
  | .var =>
    { r with
      symbols := r.symbols.push
        ⟨id.name, kind.symbolKind, id.span, none, some r.variableCount, implicit⟩
      variableCount := r.variableCount + 1 }
  | .func =>
    { r with symbols := r.symbols.push ⟨id.name, kind.symbolKind, id.span, none, none, implicit⟩ }
  | .registerAlias _ =>
    { r with
      symbols := r.symbols.push
        ⟨id.name, kind.symbolKind, id.span, some .integer, none, implicit⟩ }

/-- Record that the name at a span uses a symbol. -/
def bindReference (r : Resolutions) (span : Span) (decl : Nat) : Resolutions :=
  { r with references := r.references.insert span decl }

/-- Record that the name at a span declares a symbol. -/
def bindDeclaration (r : Resolutions) (span : Span) (decl : Nat) : Resolutions :=
  { r with declarations := r.declarations.insert span decl }

/-- Write the type of a symbol. -/
def setType (r : Resolutions) (decl : Nat) (type : ValueType) : Resolutions :=
  { r with symbols := r.symbols.modify decl (Symbol.setType type) }

end Resolutions

end StackCode
