/-
Images as bytes.

All numbers are written least significant byte first:

    header:  magic[4] version[2] header size[2] flags[4] section count[4] checksum[8]
    section: kind[1] name length[2] name payload length[4] payload

Sections start where the header says it ends, so a reader can step over a longer
header than it knows.  The checksum covers the sections, and bytes after the last
section are not read.

Which checksum that is does not matter for the format, so the function is a parameter.
-/
import StackCode.Image

namespace StackCode

/-- A part of an image that can be cut short. -/
inductive ImagePart where
  | magic | header | sectionFields | sectionName | sectionPayload
deriving DecidableEq, Repr

def ImagePart.name : ImagePart → String
  | magic => "magic"
  | header => "header"
  | sectionFields => "section"
  | sectionName => "section name"
  | sectionPayload => "section payload"

/-- Why an image cannot be written, or bytes cannot be read as one. -/
inductive ImageFault where
  /-- The name of the section at `index` does not fit its length field. -/
  | nameTooLong (index size : Nat)
  /-- The payload of the section at `index` does not fit its length field. -/
  | payloadTooLong (index size : Nat)
  | tooManySections (count : Nat)
  /-- The bytes end inside `part`. -/
  | truncated (part : ImagePart)
  | badMagic
  | unsupportedVersion (version : Nat)
  /-- The header claims to be smaller than it is. -/
  | headerTooSmall (size : Nat)
  | noSections
  | unknownKind (index : Nat) (kind : Nat)
  | nameNotUtf8 (index : Nat)
  | checksumMismatch
deriving DecidableEq, Repr

/-- The fault in words. -/
def ImageFault.reason : ImageFault → String
  | nameTooLong i n =>
    "section " ++ toString i ++ " name is " ++ toString n ++ " bytes (limit 65535)"
  | payloadTooLong i n =>
    "section " ++ toString i ++ " payload is " ++ toString n ++ " bytes (limit 4294967295)"
  | tooManySections n => toString n ++ " sections (limit 4294967295)"
  | truncated part => "truncated " ++ part.name
  | badMagic => "bad magic"
  | unsupportedVersion v => "unsupported version " ++ toString v
  | headerTooSmall n => "header size " ++ toString n ++ " is smaller than 24"
  | noSections => "image has no sections"
  | unknownKind i k => "section " ++ toString i ++ " has unknown kind " ++ toString k
  | nameNotUtf8 i => "section " ++ toString i ++ " name is not utf-8"
  | checksumMismatch => "checksum mismatch"

/-! ### Names as bytes -/

namespace Text

/-- The bytes of a text. -/
def utf8 (s : String) : List UInt8 := s.toUTF8.data.toList

/-- The text that bytes spell. -/
def ofUtf8? (bs : List UInt8) : Option String := String.fromUTF8? ⟨bs.toArray⟩

end Text

/-! ### Writing -/

namespace Section

/-- The section as bytes, for fields that hold its lengths. -/
def encode (s : Section) : List UInt8 :=
  s.kind.toByte :: (Bytes.littleEndian 2 s.name.utf8ByteSize ++ (Text.utf8 s.name ++
    (Bytes.littleEndian 4 s.bytes.length ++ s.bytes)))

/-- What keeps the section at `index` from being written. -/
def fault? (index : Nat) (s : Section) : Option ImageFault :=
  if 65535 < s.name.utf8ByteSize then some (.nameTooLong index s.name.utf8ByteSize)
  else if 4294967295 < s.bytes.length then some (.payloadTooLong index s.bytes.length)
  else none

end Section

namespace Image

/-- The first thing that keeps sections from being written, when they start at `index`. -/
def sectionFault? : Nat → List Section → Option ImageFault
  | _, [] => none
  | index, s :: rest =>
    match s.fault? index with
    | some fault => some fault
    | none => sectionFault? (index + 1) rest

/-- What keeps the image from being written. -/
def fault? (image : Image) : Option ImageFault :=
  match sectionFault? 0 image.sections with
  | some fault => some fault
  | none =>
    if 4294967295 < image.sections.length then some (.tooManySections image.sections.length)
    else none

/-- The sections as bytes. -/
def body (image : Image) : List UInt8 := image.sections.flatMap Section.encode

/-- The header that is written: only the flags are taken from the image's own. -/
def writtenHeader (checksum : List UInt8 → UInt64) (image : Image) : List UInt8 :=
  Header.signature.toList ++ (Bytes.littleEndian 2 Header.currentVersion.toNat ++
    (Bytes.littleEndian 2 Header.size.toNat ++ (Bytes.littleEndian 4 image.header.flags.toNat ++
      (Bytes.littleEndian 4 image.sections.length ++
        Bytes.littleEndian 8 (checksum image.body).toNat))))

/-- The image as bytes, with its count and checksum made anew. -/
def serialize (checksum : List UInt8 → UInt64) (image : Image) : Except ImageFault (List UInt8) :=
  match image.fault? with
  | some fault => .error fault
  | none => .ok (image.writtenHeader checksum ++ image.body)

/-! ### Reading -/

/-- A reader of the bytes that are left. -/
abbrev Reading := EStateM ImageFault (List UInt8)

namespace Reading

/-- Take `n` bytes of a part. -/
def take (n : Nat) (part : ImagePart) : Reading (List UInt8) := fun bs =>
  match Bytes.split? n bs with
  | some (front, rest) => .ok front rest
  | none => .error (.truncated part) bs

/-- Take a number of `width` bytes. -/
def number (width : Nat) (part : ImagePart) : Reading Nat := do
  let bs ← take width part
  return Bytes.ofLittleEndian bs

/-- Read the kind of the section at `index`. -/
def kind (index : Nat) : Reading SectionKind := do
  let byte ← number 1 .sectionFields
  match SectionKind.ofByte? (UInt8.ofNat byte) with
  | some k => return k
  | none => throw (.unknownKind index byte)

/-- Read the name of the section at `index`. -/
def name (index : Nat) : Reading String := do
  let size ← number 2 .sectionFields
  let bs ← take size .sectionName
  match Text.ofUtf8? bs with
  | some name => return name
  | none => throw (.nameNotUtf8 index)

/-- Read the section at `index`. -/
def readSection (index : Nat) : Reading Section := do
  let kind ← kind index
  let name ← name index
  let size ← number 4 .sectionFields
  let bytes ← take size .sectionPayload
  return ⟨kind, name, bytes⟩

/-- Read `n` sections from `index` on, after those in `done`, which are kept last first. -/
def readSections (done : List Section) : Nat → Nat → Reading (List Section)
  | 0, _ => return done.reverse
  | n + 1, index => do
    let s ← readSection index
    readSections (s :: done) n (index + 1)

/-- Read the fields of the header. -/
def header : Reading Header := do
  let magic ← take 4 .magic
  if magic ≠ Header.signature.toList then throw .badMagic
  let version ← number 2 .header
  if version ≠ Header.currentVersion.toNat then throw (.unsupportedVersion version)
  let size ← number 2 .header
  if size < Header.size.toNat then throw (.headerTooSmall size)
  let flags ← number 4 .header
  let count ← number 4 .header
  let checksum ← number 8 .header
  return ⟨Header.signature, .ofNat version, .ofNat size, .ofNat flags, .ofNat count,
    .ofNat checksum⟩

end Reading

/-- The bytes between a position and a later one, given what is left at each. -/
def consumed (before after : List UInt8) : List UInt8 :=
  before.take (before.length - after.length)

/-- The image that bytes spell. -/
def deserialize (checksum : List UInt8 → UInt64) (bytes : List UInt8) : Except ImageFault Image :=
  match Reading.header bytes with
  | .error fault _ => .error fault
  | .ok header _ =>
    match Bytes.split? header.headerSize.toNat bytes with
    | none => .error (.truncated .header)
    | some (_, body) =>
      if header.sectionCount = 0 then .error .noSections
      else
        match Reading.readSections [] header.sectionCount.toNat 0 body with
        | .error fault _ => .error fault
        | .ok sections rest =>
          if checksum (consumed body rest) = header.checksum then .ok ⟨header, sections⟩
          else .error .checksumMismatch

end Image

end StackCode
