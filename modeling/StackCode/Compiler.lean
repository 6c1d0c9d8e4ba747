/-
The whole way: source text to image, and bytes to image.

Each phase stops at its first error, and a later phase runs only when the earlier
ones found nothing wrong.
-/
import StackCode.Analysis
import StackCode.Checksum
import StackCode.Codegen
import StackCode.Diagnostic
import StackCode.Image.Codec
import StackCode.Parser.Stmt

namespace StackCode

/-- An error in a source text, as an error of its phase. -/
def SourceError.toError : SourceError → Error
  | lex e => .lex e
  | parse e => .parse e

/-- A fault in an image, as an error of its phase. -/
def ImageFault.toError (fault : ImageFault) : Error := .format (.invalidProgram fault.reason)

namespace Compiler

/-- The program that a source text spells. -/
def parse (o : CompileOptions) (source : String) : Except Error Program :=
  (Program.parse source o.tabWidth).mapError SourceError.toError

/-- What the names of a program stand for. -/
def analyze (p : Program) : Except Error Resolutions := p.analyze.mapError Error.semantic

/-- The image of a resolved program. -/
def generate (o : CompileOptions) (r : Resolutions) (p : Program) : Except Error Image :=
  (Codegen.generate o r p).mapError Error.codegen

/-- The image of a source text. -/
def compile (o : CompileOptions) (source : String) : Except Error Image := do
  let p ← parse o source
  let r ← analyze p
  generate o r p

/-- A source text as a program whose names are resolved, without code for it. -/
def check (o : CompileOptions) (source : String) : Except Error (Program × Resolutions) := do
  let p ← parse o source
  let r ← analyze p
  return (p, r)

/-- The image that bytes spell, checked by the 64-bit xxHash. -/
def load (bytes : List UInt8) : Except Error Image :=
  (Image.deserialize Checksum.xxh64 bytes).mapError ImageFault.toError

/-- An image as bytes, with the 64-bit xxHash as its checksum. -/
def save (image : Image) : Except Error (List UInt8) :=
  (image.serialize Checksum.xxh64).mapError ImageFault.toError

end Compiler

end StackCode
