/-
Nested scopes of names.

One table, `bindings`, holds the innermost binding of every visible name, each with the
depth of the scope it was made in, so a lookup does not walk the scopes.  A binding that
is hidden by one of the same name further in waits on the stack `shadowed`, under the
depth of the scope that hides it.  `pop` drops what the innermost scope has bound and
takes back what it has hidden: the entries of its depth, which are on top of the stack.
-/
import Std.Data.TreeMap

namespace StackCode

/-- What a name stands for, and how deep the scope is that says so. -/
structure Binding where
  decl : Nat
  depth : Nat
deriving DecidableEq, Repr

/-- A binding that is hidden. -/
structure Shadowed where
  /-- How deep the scope is that hides the binding, not the one that made it. -/
  depth : Nat
  name : String
  binding : Binding
deriving DecidableEq, Repr

/-- A stack of scopes, with a bottom scope that is always open. -/
structure Scopes where
  /-- The innermost binding of every visible name. -/
  bindings : Std.TreeMap String Binding
  /-- How many scopes are open above the bottom one. -/
  depth : Nat
  /-- The bindings that are hidden, the latest first. -/
  shadowed : List Shadowed

namespace Scopes

/-- The bottom scope alone, with no names. -/
def empty : Scopes := ⟨∅, 0, []⟩

/-- Open a scope. -/
def push (s : Scopes) : Scopes := { s with depth := s.depth + 1 }

/-- Keep the bindings that satisfy `p`. -/
def retain (p : Binding → Bool) (bindings : Std.TreeMap String Binding) :
    Std.TreeMap String Binding :=
  bindings.foldl (fun kept name b => if p b then kept else kept.erase name) bindings

/-- Take back hidden bindings, as long as the latest was hidden at `depth`. -/
def unshadow (depth : Nat) (bindings : Std.TreeMap String Binding) :
    List Shadowed → Std.TreeMap String Binding × List Shadowed
  | [] => (bindings, [])
  | e :: rest =>
    if e.depth = depth then unshadow depth (bindings.insert e.name e.binding) rest
    else (bindings, e :: rest)

/-- Close the innermost scope.  The bottom scope is emptied and stays open. -/
def pop (s : Scopes) : Scopes :=
  let kept := retain (·.depth < s.depth) s.bindings
  let (bindings, shadowed) := unshadow s.depth kept s.shadowed
  ⟨bindings, s.depth - 1, shadowed⟩

/-- What a name stands for in the innermost scope that binds it. -/
def lookup? (s : Scopes) (name : String) : Option Nat := s.bindings[name]?.map (·.decl)

/-- Does the innermost scope itself bind the name? -/
def declaresHere (s : Scopes) (name : String) : Bool :=
  s.bindings[name]?.any (·.depth == s.depth)

/--
Bind a name in the innermost scope.  Where that scope binds it already, the answer is what
it stands for there.
-/
def declare (name : String) (decl : Nat) : EStateM Nat Scopes Unit := do
  let s ← get
  match s.bindings[name]? with
  | none => pure ()
  | some old =>
    if old.depth = s.depth then throw old.decl
    else modify fun s => { s with shadowed := ⟨s.depth, name, old⟩ :: s.shadowed }
  modify fun s => { s with bindings := s.bindings.insert name ⟨decl, s.depth⟩ }

end Scopes

end StackCode
