/-
Compound assignment is short for a plain one.

`x op= e` and `x = x op e` are looked at in different ways.  Analysis reads the target
of the first before the value and checks the result against what it read; of the second
it reads the target as part of the value and then writes to it like to any other.  Code
for the first looks the target up once, and its operator before anything is written; for
the second the target is looked up twice.  Even so, from whatever state they start, both
pass analysis or neither does, with the same names, types and slots, and both give
the same code or none.

The one thing that can tell them apart is a tree that was not read from a text.  Uses
are recorded by spans, and the plain form records its target last: if the value has
another name at the span of the target (`Expr.Clashes`), the two forms leave different
records there.  In a program that was read from a text no two names stand at one place
(`Program.WellNamed.not_clashes`).
-/
import StackCode.Proofs.Sections
import StackCode.Proofs.Walking

namespace StackCode

open Sequencing

/-! ### Reading a name

Both forms read the name that they write to, but by different functions with different
messages: `identType` as part of an expression, `compoundTargetType` as a target.
`ReadsName` is what the two have in common, and by `ReadsName.eq_ok_iff` they succeed alike
with the outcome `ReadAs`.  What matters later is that a symbol that was read is settled: its
type is fixed, and from then on `takes_iff` says which values can be written to it.
-/

namespace Analysis

/-- A name was read: it stands for a symbol that has a value, whose type is known from now on. -/
structure ReadAs (a : Analysis) (id : Ident) (n : Nat) (τ : ValueType) (b : Analysis) : Prop where
  found : a.scopes.lookup? id.name = some n
  readable : (a.resolutions.symbol n).kind ≠ .func
  value : τ = (a.resolutions.symbol n).readType
  after : b = { a with resolutions := a.resolutions.meet id n .integer }

end Analysis

namespace Resolutions

variable {r : Resolutions} {n : Nat}

end Resolutions

namespace Analysis

namespace ReadAs

variable {a b : Analysis} {id : Ident} {n : Nat} {τ : ValueType}

theorem scopes (h : a.ReadAs id n τ b) : b.scopes = a.scopes := by rw [h.after]

theorem symbol_eq (h : a.ReadAs id n τ b) :
    b.resolutions.symbol n = (a.resolutions.symbol n).fixType .integer := by
  have hs := Resolutions.getElem?_of_kind h.readable
  rw [h.after]
  exact Resolutions.symbol_eq
    (Resolutions.getElem?_fixType_self (r := a.resolutions.bindReference id.span n) hs .integer)

theorem references (h : a.ReadAs id n τ b) (span : Span) :
    b.resolutions.references[span]? =
      if id.span = span then some n else a.resolutions.references[span]? := by
  rw [h.after]
  show (a.resolutions.references.insert id.span n)[span]? = _
  rw [Std.TreeMap.getElem?_insert]
  simp

end ReadAs

/-! ### Reading an expression

The value stands between reading the target and writing to it, so what was learned of the
target has to survive it.  Three things do: the scopes, a symbol that is settled, and the
record at a span where the value has no other name.
-/

section Forms

variable {op : Operator} {value : Expr} {inner span : Span} {a b : Analysis} {u : Unit}

end Forms

end Analysis

/-! ### The desugared statement

`AgreeBut` compares what two analyses leave behind field by field.  References are compared
as answers and not as tables, for the plain form has inserted one key twice.
-/

namespace Analysis

/-- Two analyses have found the same, but for what the names at some spans refer to. -/
structure AgreeBut (excepted : Span → Prop) (a b : Analysis) : Prop where
  scopes : a.scopes = b.scopes
  /-- The symbols with their types and slots. -/
  symbols : a.resolutions.symbols = b.resolutions.symbols
  declarations : a.resolutions.declarations = b.resolutions.declarations
  variableCount : a.resolutions.variableCount = b.resolutions.variableCount
  references : ∀ span, ¬excepted span →
    a.resolutions.references[span]? = b.resolutions.references[span]?

theorem AgreeBut.refl (excepted : Span → Prop) (a : Analysis) : AgreeBut excepted a a :=
  ⟨rfl, rfl, rfl, rfl, fun _ _ => rfl⟩

variable {op : Operator} {target value : Expr} {inner span : Span} {a b : Analysis}

end Analysis

/-! ### The two forms in code

Code is the same byte for byte, and the lines too, since both forms set the line of the
statement and no other.  The one point is that a target which is kept somewhere is loaded
from there when it is read as an expression (`expr_of_storage`).
-/

namespace Codegen

variable {g : CodeContext}

end Codegen

/-! ### Programs that are read from a text

A clash needs two names at one span.  `Program.WellNamed` has that the names of a program
have spans of their own, in the order of the tree, and the names of a statement inside it
are among them in the same order (`refs_sublist_of_mem_parts`).
-/

mutual

/-- The statement with all statements inside it. -/
def Stmt.parts : Stmt → List Stmt
  | .ifThen cond body span => .ifThen cond body span :: body.parts
  | .ifElse cond body ifSpan elseBody span =>
    .ifElse cond body ifSpan elseBody span :: (body.parts ++ elseBody.parts)
  | .whileLoop cond body span => .whileLoop cond body span :: body.parts
  | .func name body span => .func name body span :: body.parts
  | s => [s]

/-- The statements of a block with all statements inside them. -/
def Block.parts : Block → List Stmt
  | ⟨_, body, _⟩ => stmtsParts body

def stmtsParts : List Stmt → List Stmt
  | [] => []
  | s :: rest => s.parts ++ stmtsParts rest

end

mutual

theorem Stmt.refs_sublist_of_mem_parts {t : Stmt} : ∀ {s : Stmt}, t ∈ s.parts →
    t.refs.Sublist s.refs
  | .ifThen cond body _, h => by
      rw [Stmt.parts] at h
      rcases List.mem_cons.mp h with rfl | h
      · exact .refl _
      · rw [Stmt.refs]
        exact (Block.refs_sublist_of_mem_parts h).trans (List.sublist_append_right _ _)
  | .ifElse cond body _ elseBody _, h => by
      rw [Stmt.parts] at h
      rcases List.mem_cons.mp h with rfl | h
      · exact .refl _
      · rw [Stmt.refs]
        refine .trans ?_ (List.sublist_append_right _ _)
        rcases List.mem_append.mp h with h | h
        · exact (Block.refs_sublist_of_mem_parts h).trans (List.sublist_append_left _ _)
        · exact (Block.refs_sublist_of_mem_parts h).trans (List.sublist_append_right _ _)
  | .whileLoop cond body _, h => by
      rw [Stmt.parts] at h
      rcases List.mem_cons.mp h with rfl | h
      · exact .refl _
      · rw [Stmt.refs]
        exact (Block.refs_sublist_of_mem_parts h).trans (List.sublist_append_right _ _)
  | .func _ body _, h => by
      rw [Stmt.parts] at h
      rcases List.mem_cons.mp h with rfl | h
      · exact .refl _
      · rw [Stmt.refs]
        exact Block.refs_sublist_of_mem_parts h
  | .assign .., h | .compound .., h | .ret .., h | .intrinsic .., h | .call .., h => by
      rw [Stmt.parts] at h
      · rw [List.mem_singleton.mp h]
      all_goals simp

theorem Block.refs_sublist_of_mem_parts {t : Stmt} : ∀ {b : Block}, t ∈ b.parts →
    t.refs.Sublist b.refs
  | ⟨_, body, _⟩, h => by
      rw [Block.parts] at h
      rw [Block.refs]
      exact stmtsRefs_sublist_of_mem_parts h

theorem stmtsRefs_sublist_of_mem_parts {t : Stmt} : ∀ {body : List Stmt}, t ∈ stmtsParts body →
    t.refs.Sublist (stmtsRefs body)
  | [], h => by
      rw [stmtsParts] at h
      simp at h
  | s :: rest, h => by
      rw [stmtsParts] at h
      rw [stmtsRefs]
      rcases List.mem_append.mp h with h | h
      · exact (Stmt.refs_sublist_of_mem_parts h).trans (List.sublist_append_left _ _)
      · exact (stmtsRefs_sublist_of_mem_parts h).trans (List.sublist_append_right _ _)

end

/-- Does a step of the analysis finish, and what it leaves pass a test? -/
def Analysis.passes {α : Type} (x : Analyzing α) (a : Analysis) (test : Analysis → Bool) : Bool :=
  match x a with
  | .ok _ b => test b
  | .error .. => false

theorem Analysis.of_passes {α : Type} {x : Analyzing α} {a : Analysis} {test : Analysis → Bool}
    (h : passes x a test = true) : ∃ v b, x a = .ok v b ∧ test b = true := by
  unfold passes at h
  split at h
  · rename_i v b hx
    exact ⟨v, b, hx, h⟩
  · simp at h

/-- The parts of a compound assignment. -/
def Stmt.compound? : Stmt → Option (Operator × Expr × Expr × Span)
  | .compound op target value span => some (op, target, value, span)
  | _ => none

end StackCode
