/-
Images: a compiled program as a header and a list of named sections.

The header carries the flags; its section count follows the section list when
sections are added, and its checksum is only known once the image has been written.
-/
import StackCode.Bytes

namespace StackCode

/-- What a section holds. -/
inductive SectionKind where
  /-- Code of the stack machine. -/
  | code
  /-- Storage of the variables, all zero. -/
  | data
  /-- The line table of a code section. -/
  | debug
deriving DecidableEq, Repr

namespace SectionKind

/-- The byte that stands for the kind. -/
def toByte : SectionKind → UInt8
  | code => 1
  | data => 2
  | debug => 3

/-- The kind that a byte stands for. -/
def ofByte? (b : UInt8) : Option SectionKind :=
  if b = 1 then some code else if b = 2 then some data else if b = 3 then some debug else none

@[simp] theorem ofByte?_toByte (k : SectionKind) : ofByte? k.toByte = some k := by
  cases k <;> rfl

theorem toByte_of_ofByte? {b : UInt8} {k : SectionKind} (h : ofByte? b = some k) :
    k.toByte = b := by
  simp only [ofByte?] at h
  split at h
  · obtain rfl := by simpa using h
    simp_all [toByte]
  split at h
  · obtain rfl := by simpa using h
    simp_all [toByte]
  split at h
  · obtain rfl := by simpa using h
    simp_all [toByte]
  · simp at h

end SectionKind

/-- A named piece of an image. -/
structure Section where
  kind : SectionKind
  name : String
  bytes : List UInt8
deriving DecidableEq, Repr

namespace Section

/-- The name of the section where execution starts. -/
def entryName : String := "main"

/-- The name of the section that holds the variables. -/
def dataName : String := ".data"

/-- The name of the section that holds the line table of a code section. -/
def linesName (codeName : String) : String := ".lines." ++ codeName

/-- A code section. -/
def code (name : String) (bytes : List UInt8) : Section := ⟨.code, name, bytes⟩

/-- Storage for a number of variables, eight bytes each. -/
def storage (count : Nat) : Section := ⟨.data, dataName, List.replicate (8 * count) 0⟩

/-! ### Line tables

A line table is a list of offsets, each with the line from there on.  Both are
written as four bytes, least significant first.
-/

/-- A line table as bytes. -/
def encodeLines (table : List (UInt32 × UInt32)) : List UInt8 :=
  table.flatMap fun entry =>
    Bytes.littleEndian 4 entry.1.toNat ++ Bytes.littleEndian 4 entry.2.toNat

/-- The entries that bytes spell, after those in `done`, which are kept last first. -/
def decodeLinesFrom (done : List (UInt32 × UInt32)) : List UInt8 → List (UInt32 × UInt32)
  | b₀ :: b₁ :: b₂ :: b₃ :: b₄ :: b₅ :: b₆ :: b₇ :: rest =>
    let offset := UInt32.ofNat (Bytes.ofLittleEndian [b₀, b₁, b₂, b₃])
    let line := UInt32.ofNat (Bytes.ofLittleEndian [b₄, b₅, b₆, b₇])
    decodeLinesFrom ((offset, line) :: done) rest
  | _ => done.reverse

/-- The line table that bytes spell; an incomplete entry at the end is left out. -/
def decodeLines (bs : List UInt8) : List (UInt32 × UInt32) := decodeLinesFrom [] bs

/-- The section that holds the line table of a code section. -/
def lines (codeName : String) (table : List (UInt32 × UInt32)) : Section :=
  ⟨.debug, linesName codeName, encodeLines table⟩

end Section

/-- What an image says about itself. -/
structure Header where
  /-- The bytes that an image starts with. -/
  magic : Vector UInt8 4
  version : UInt16
  /-- The size of the header in bytes. -/
  headerSize : UInt16
  /-- Flag bits; those without a meaning are kept. -/
  flags : UInt32
  sectionCount : UInt32
  /-- The checksum of the encoded sections. -/
  checksum : UInt64
deriving DecidableEq, Repr

namespace Header

/-- The first four bytes of every image: `KOHL`. -/
def signature : Vector UInt8 4 := #v[0x4B, 0x4F, 0x48, 0x4C]

/-- The version that is written and understood. -/
def currentVersion : UInt16 := 1

/-- The size of the header that is written. -/
def size : UInt16 := 24

/-- The flag of an image that carries line tables. -/
def debugLinesFlag : UInt32 := 1

/-- The header of an image without sections. -/
def ofFlags (flags : UInt32) : Header := ⟨signature, currentVersion, size, flags, 0, 0⟩

/-- Does the header announce line tables? -/
def hasDebugLines (h : Header) : Bool := h.flags &&& debugLinesFlag == debugLinesFlag

end Header

/-- A compiled program. -/
structure Image where
  header : Header
  sections : List Section
deriving DecidableEq, Repr

namespace Image

/-- An image without sections. -/
def ofFlags (flags : UInt32) : Image := ⟨.ofFlags flags, []⟩

instance : Inhabited Image := ⟨ofFlags 0⟩

/-- An image with the given sections, counted in its header. -/
def ofSections (flags : UInt32) (sections : List Section) : Image :=
  ⟨{ Header.ofFlags flags with sectionCount := UInt32.ofNat sections.length }, sections⟩

/-- The image with one more section at its end. -/
def push (image : Image) (s : Section) : Image :=
  let sections := image.sections ++ [s]
  ⟨{ image.header with sectionCount := UInt32.ofNat sections.length }, sections⟩

/-- The first section of a name. -/
def section? (image : Image) (name : String) : Option Section :=
  image.sections.find? (·.name == name)

/-- The code sections, in order. -/
def codeSections (image : Image) : List Section :=
  image.sections.filter (·.kind == .code)

/-- The section where execution starts: the first code section. -/
def entryCode? (image : Image) : Option Section := image.sections.find? (·.kind == .code)

/-- The line table of a code section, if the image carries it. -/
def lineTable? (image : Image) (codeName : String) : Option (List (UInt32 × UInt32)) :=
  (image.sections.find? fun s => s.kind == .debug && s.name == Section.linesName codeName).map
    fun s => Section.decodeLines s.bytes

end Image

end StackCode
