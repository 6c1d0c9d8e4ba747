/-
A directory of source files and images, compiled, loaded and saved by name.

There are no directories inside it, so a name with one in front names nothing.
-/
import StackCode.Compiler

namespace StackCode

/-- Why something could not be done with a file. -/
inductive FileError where
  /-- There is no such file, or no such directory to put it in. -/
  | notFound
  /-- A source file is not text. -/
  | notText
  /-- The file could be read, but what it holds is wrong. -/
  | content (e : Diagnostic)
deriving DecidableEq, Repr

/-- Files by name. -/
structure Directory where
  files : Std.TreeMap String (List UInt8)

namespace Directory

def empty : Directory := ⟨∅⟩

/-- The entry that a path names: its one part that is not empty and not `.`. -/
def fileName? (path : String) : Option String :=
  match (path.splitOn "/").filter fun part => part ≠ "" && part ≠ "." with
  | [name] => some name
  | _ => none

/-- The bytes of a file. -/
def read (d : Directory) (path : String) : Except FileError (List UInt8) :=
  match (fileName? path).bind fun name => d.files[name]? with
  | some bytes => .ok bytes
  | none => .error .notFound

/-- The directory with a file written. -/
def write (d : Directory) (path : String) (bytes : List UInt8) : Except FileError Directory :=
  match fileName? path with
  | some name => .ok ⟨d.files.insert name bytes⟩
  | none => .error .notFound

/-- Compile a source file; diagnostics name it by its path. -/
def compile (d : Directory) (o : CompileOptions) (path : String) : Except FileError Image := do
  let bytes ← d.read path
  match Text.ofUtf8? bytes with
  | none => throw .notText
  | some source => (Compiler.compile o source).mapError fun e => .content ⟨path, e⟩

/-- Load an image file. -/
def load (d : Directory) (path : String) : Except FileError Image := do
  let bytes ← d.read path
  (Compiler.load bytes).mapError fun e => .content ⟨path, e⟩

/-- Save an image; the answer has the bytes of the file. -/
def save (d : Directory) (image : Image) (path : String) :
    Except FileError (Directory × List UInt8) := do
  let bytes ← (Compiler.save image).mapError fun e => .content ⟨path, e⟩
  let d ← d.write path bytes
  return (d, bytes)

end Directory

end StackCode
