/-
Images and their bytes.

What is said of every reader is when it succeeds, and on which bytes: a section is read just
where its encoding stands (`readSection_eq_ok`), and so is a header (`header_eq_ok`).  Both
directions are in one statement, so the same lemma says that what was written is read back
and that nothing else is read as the same thing.

Put together, bytes are an image just when they are a header, padding up to the size that
the header gives, the encoded sections, and anything behind them (`SpelledBy`).  Writing an
image gives the one form without padding and without anything behind, which is why every
accepted image has one written form.

The checksum is a parameter throughout.  Nothing but that it is a function of the bytes is
used of it.
-/
import StackCode.Checksum
import StackCode.Image.Codec
import StackCode.Proofs.Sequencing

namespace StackCode

open Checksum (xxh64)

open Sequencing

/-! ### Numbers and texts

A number of some width is read from that many bytes, and a text from bytes that are valid
UTF-8.  Both can be undone, the former for numbers below `Bytes.capacity`.
-/

namespace Bytes

/-- A number below the `capacity` of its width is read back. -/
theorem ofLittleEndian_littleEndian_of_lt {width n : Nat} (h : n < capacity width) :
    ofLittleEndian (littleEndian width n) = n := by
  rw [ofLittleEndian_littleEndian, Nat.mod_eq_of_lt h]

end Bytes

namespace Text

@[simp] theorem length_utf8 (s : String) : (utf8 s).length = s.utf8ByteSize :=
  Array.length_toList

/-- Bytes spell a text just when they are its `utf8` bytes. -/
theorem ofUtf8?_eq_some_iff {bs : List UInt8} {s : String} : ofUtf8? bs = some s ↔ bs = utf8 s := by
  unfold ofUtf8? String.fromUTF8?
  constructor
  · intro h
    split at h
    · obtain rfl := Option.some.inj h
      rfl
    · simp at h
  · rintro rfl
    have hbytes : (⟨(utf8 s).toArray⟩ : ByteArray) = s.toByteArray := by
      simp [utf8]
    rw [hbytes, dif_pos s.isValidUTF8]
    rfl

end Text

namespace Image

/-! ### Sections

The readers are steps with the remaining bytes as their state.  Each has an iff: it answers
with something and a rest just if the bytes are the encoding of the one followed by the
other, and lengths fit their fields.  `readSections_eq_ok` has it for a list of sections, by
induction on how many are still to be read.
-/

namespace Reading

theorem take_eq_ok {n : Nat} {part : ImagePart} {bs front rest : List UInt8} :
    take n part bs = .ok front rest ↔ bs = front ++ rest ∧ front.length = n := by
  rw [← Bytes.split?_eq_some_iff]
  simp only [take]
  cases Bytes.split? n bs with
  | some parts => simp [Prod.ext_iff]
  | none => simp

/-- `number` reads a number just where its `littleEndian` bytes stand. -/
theorem number_eq_ok {width n : Nat} {part : ImagePart} {bs rest : List UInt8} :
    number width part bs = .ok n rest ↔
      n < Bytes.capacity width ∧ bs = Bytes.littleEndian width n ++ rest := by
  simp only [number, bind_eq_ok, take_eq_ok, pure_eq_ok]
  constructor
  · rintro ⟨front, _, ⟨rfl, rfl⟩, rfl, rfl⟩
    exact ⟨Bytes.ofLittleEndian_lt front, by rw [Bytes.littleEndian_ofLittleEndian]⟩
  · rintro ⟨hlt, rfl⟩
    exact ⟨_, rest, ⟨rfl, Bytes.length_littleEndian ..⟩,
      Bytes.ofLittleEndian_littleEndian_of_lt hlt, rfl⟩

private theorem kind_eq_ok {index : Nat} {k : SectionKind} {bs rest : List UInt8} :
    kind index bs = .ok k rest ↔ bs = k.toByte :: rest := by
  simp only [kind, bind_eq_ok, number_eq_ok]
  constructor
  · rintro ⟨byte, m, ⟨-, rfl⟩, h⟩
    generalize hk : SectionKind.ofByte? (UInt8.ofNat byte) = k? at h
    cases k? with
    | some k' =>
        obtain ⟨rfl, rfl⟩ := pure_eq_ok.mp h
        rw [SectionKind.toByte_of_ofByte? hk]
        rfl
    | none => simp at h
  · rintro rfl
    refine ⟨k.toByte.toNat, rest, ⟨k.toByte.toNat_lt, ?_⟩, ?_⟩
    · simp [Bytes.littleEndian]
    · simp

/-- `name` reads a name just where its length and its `utf8` bytes stand. -/
theorem name_eq_ok {index : Nat} {s : String} {bs rest : List UInt8} :
    name index bs = .ok s rest ↔
      s.utf8ByteSize ≤ 65535 ∧
        bs = Bytes.littleEndian 2 s.utf8ByteSize ++ (Text.utf8 s ++ rest) := by
  simp only [name, bind_eq_ok, number_eq_ok, take_eq_ok]
  constructor
  · rintro ⟨size, _, ⟨hlt, rfl⟩, front, m, ⟨rfl, rfl⟩, h⟩
    generalize hs : Text.ofUtf8? front = s? at h
    cases s? with
    | some s' =>
        obtain ⟨rfl, rfl⟩ := pure_eq_ok.mp h
        obtain rfl := Text.ofUtf8?_eq_some_iff.mp hs
        rw [Text.length_utf8] at hlt ⊢
        exact ⟨Nat.le_of_lt_succ hlt, rfl⟩
    | none => simp at h
  · rintro ⟨hle, rfl⟩
    refine ⟨_, _, ⟨Nat.lt_succ_of_le hle, rfl⟩, _, rest, ⟨rfl, Text.length_utf8 s⟩, ?_⟩
    rw [Text.ofUtf8?_eq_some_iff.mpr rfl]
    exact pure_eq_ok.mpr ⟨rfl, rfl⟩

end Reading

end Image

/-- The lengths of the section fit their fields. -/
structure Section.Fits (s : Section) : Prop where
  name : s.name.utf8ByteSize ≤ 65535
  bytes : s.bytes.length ≤ 4294967295

instance (s : Section) : Decidable s.Fits :=
  decidable_of_decidable_of_iff
    (p := s.name.utf8ByteSize ≤ 65535 ∧ s.bytes.length ≤ 4294967295)
    ⟨fun h => ⟨h.1, h.2⟩, fun h => ⟨h.name, h.bytes⟩⟩

namespace Image

namespace Reading

/-- `readSection` reads a section just where its `encode` stands, and only one that `Fits`. -/
theorem readSection_eq_ok {index : Nat} {s : Section} {bs rest : List UInt8} :
    readSection index bs = .ok s rest ↔ s.Fits ∧ bs = s.encode ++ rest := by
  simp only [readSection, bind_eq_ok, kind_eq_ok, name_eq_ok, number_eq_ok, take_eq_ok, pure_eq_ok]
  constructor
  · rintro ⟨k, _, rfl, name, _, ⟨hname, rfl⟩, size, _, ⟨hsize, rfl⟩, payload, _, ⟨rfl, rfl⟩, rfl,
      rfl⟩
    exact ⟨⟨hname, Nat.le_of_lt_succ hsize⟩, by simp [Section.encode]⟩
  · rintro ⟨hfits, rfl⟩
    refine ⟨s.kind, _, ?_, s.name, _, ⟨hfits.name, rfl⟩, s.bytes.length, _,
      ⟨Nat.lt_succ_of_le hfits.bytes, rfl⟩, s.bytes, rest, ⟨rfl, rfl⟩, rfl, rfl⟩
    simp [Section.encode]

/-- `readSections` reads one section after another, as many as it was asked for. -/
theorem readSections_eq_ok {out : List Section} {rest : List UInt8} :
    ∀ {n index : Nat} {done : List Section} {bs : List UInt8},
      readSections done n index bs = .ok out rest ↔
        ∃ new, out = done.reverse ++ new ∧ new.length = n ∧ (∀ s ∈ new, s.Fits) ∧
          bs = new.flatMap Section.encode ++ rest := by
  intro n
  induction n with
  | zero =>
      intro index done bs
      simp only [readSections, pure_eq_ok]
      constructor
      · rintro ⟨rfl, rfl⟩
        exact ⟨[], by simp, rfl, by simp, rfl⟩
      · rintro ⟨new, rfl, hlen, -, rfl⟩
        obtain rfl := List.length_eq_zero_iff.mp hlen
        simp
  | succ n ih =>
      intro index done bs
      simp only [readSections, bind_eq_ok, readSection_eq_ok, ih]
      constructor
      · rintro ⟨s, _, ⟨hs, rfl⟩, new, rfl, rfl, hnew, rfl⟩
        exact ⟨s :: new, by simp, rfl, by simpa using ⟨hs, hnew⟩, by simp⟩
      · rintro ⟨new, rfl, hlen, hnew, rfl⟩
        obtain ⟨s, new, rfl⟩ := List.exists_cons_of_length_eq_add_one hlen
        obtain ⟨hs, hnew⟩ := List.forall_mem_cons.mp hnew
        exact ⟨s, _, ⟨hs, by simp⟩, new, by simp, by simpa using hlen, hnew, rfl⟩

end Reading

end Image

/-! ### Headers

A header has 24 bytes of its own and gives its size, which may be larger.  `Understood` has
what is checked at once; the number of sections and the checksum are compared later.
-/

/-- The header as bytes. -/
def Header.encode (h : Header) : List UInt8 :=
  h.magic.toList ++ (Bytes.littleEndian 2 h.version.toNat ++
    (Bytes.littleEndian 2 h.headerSize.toNat ++
    (Bytes.littleEndian 4 h.flags.toNat ++ (Bytes.littleEndian 4 h.sectionCount.toNat ++
      Bytes.littleEndian 8 h.checksum.toNat))))

@[simp] theorem Header.length_encode (h : Header) : h.encode.length = 24 := by
  simp [Header.encode]

/-- The header is one that is understood. -/
structure Header.Understood (h : Header) : Prop where
  magic : h.magic = Header.signature
  version : h.version = Header.currentVersion
  size : 24 ≤ h.headerSize.toNat

namespace Image

namespace Reading

/-- `header` reads a header just where its `encode` stands, and only one that is `Understood`. -/
theorem header_eq_ok {h : Header} {bs rest : List UInt8} :
    header bs = .ok h rest ↔ h.Understood ∧ bs = h.encode ++ rest := by
  simp only [header, bind_eq_ok, unless_eq_ok, take_eq_ok, number_eq_ok, pure_eq_ok, ne_eq,
    Decidable.not_not, Nat.not_lt]
  constructor
  · rintro ⟨_, _, ⟨rfl, -⟩, rfl, version, _, ⟨hversion, rfl⟩, rfl, size, _, ⟨hsize, rfl⟩, hmin,
      flags, _, ⟨hflags, rfl⟩, count, _, ⟨hcount, rfl⟩, checksum, _, ⟨hchecksum, rfl⟩, rfl, rfl⟩
    have hsize' : (UInt16.ofNat size).toNat = size := UInt16.toNat_ofNat_of_lt' hsize
    have hflags' : (UInt32.ofNat flags).toNat = flags := UInt32.toNat_ofNat_of_lt' hflags
    have hcount' : (UInt32.ofNat count).toNat = count := UInt32.toNat_ofNat_of_lt' hcount
    have hsum' : (UInt64.ofNat checksum).toNat = checksum := UInt64.toNat_ofNat_of_lt' hchecksum
    refine ⟨⟨rfl, UInt16.ofNat_toNat, ?_⟩, ?_⟩
    · rw [hsize']
      exact hmin
    · simp only [Header.encode, hsize', hflags', hcount', hsum', UInt16.ofNat_toNat,
        List.append_assoc]
  · rintro ⟨⟨hmagic, hversion, hsize⟩, rfl⟩
    obtain ⟨magic, version, size, flags, count, checksum⟩ := h
    obtain rfl := hmagic
    obtain rfl := hversion
    refine ⟨Header.signature.toList, _, ⟨?_, Vector.length_toList⟩, rfl,
      Header.currentVersion.toNat, _, ⟨by decide, rfl⟩, rfl,
      size.toNat, _, ⟨size.toNat_lt, rfl⟩, hsize,
      flags.toNat, _, ⟨flags.toNat_lt, rfl⟩, count.toNat, _, ⟨count.toNat_lt, rfl⟩,
      checksum.toNat, _, ⟨checksum.toNat_lt, rfl⟩, ?_, rfl⟩
    · simp only [Header.encode, List.append_assoc]
    · simp

end Reading

/-! ### Writing

Writing looks for a length that does not fit, section by section (`fault?`), and finds none
just if there is none.  The header that is written takes nothing but the flags from the
image.
-/

/-- Every length in the image fits its field. -/
structure Fits (image : Image) : Prop where
  sections : ∀ s ∈ image.sections, s.Fits
  count : image.sections.length ≤ 4294967295

end Image

private theorem Section.fault?_eq_none_iff (index : Nat) {s : Section} :
    s.fault? index = none ↔ s.Fits := by
  unfold Section.fault?
  constructor
  · intro h
    split at h
    · simp at h
    split at h
    · simp at h
    · rename_i hname hbytes
      exact ⟨Nat.le_of_not_lt hname, Nat.le_of_not_lt hbytes⟩
  · intro h
    rw [if_neg (Nat.not_lt_of_le h.name), if_neg (Nat.not_lt_of_le h.bytes)]

namespace Image

private theorem sectionFault?_eq_none_iff (sections : List Section) :
    ∀ index : Nat, sectionFault? index sections = none ↔ ∀ s ∈ sections, s.Fits := by
  induction sections with
  | nil =>
      intro index
      simp [sectionFault?]
  | cons s rest ih =>
      intro index
      rw [List.forall_mem_cons, ← ih (index + 1), ← Section.fault?_eq_none_iff index, sectionFault?]
      cases s.fault? index with
      | some fault => simp
      | none => simp

private theorem fault?_eq_none_iff {image : Image} : image.fault? = none ↔ image.Fits := by
  have hsections := sectionFault?_eq_none_iff image.sections 0
  unfold fault?
  generalize sectionFault? 0 image.sections = fault at hsections ⊢
  cases fault with
  | some fault =>
      refine iff_of_false (by simp) fun h => ?_
      exact absurd (hsections.mpr h.sections) (by simp)
  | none =>
      have hfits := hsections.mp rfl
      by_cases hcount : 4294967295 < image.sections.length
      · simp only [if_pos hcount]
        exact iff_of_false (by simp) fun h => Nat.not_lt_of_le h.count hcount
      · simp only [if_neg hcount]
        exact iff_of_true trivial ⟨hfits, Nat.le_of_not_lt hcount⟩

/-- The header that an image is written with. -/
def written (hash : List UInt8 → UInt64) (image : Image) : Header where
  magic := Header.signature
  version := Header.currentVersion
  headerSize := Header.size
  flags := image.header.flags
  sectionCount := UInt32.ofNat image.sections.length
  checksum := hash image.body

variable {hash : List UInt8 → UInt64}

private theorem written_understood (image : Image) : (image.written hash).Understood :=
  ⟨rfl, rfl, Nat.le_refl _⟩

private theorem Fits.toNat_sectionCount (hash : List UInt8 → UInt64) {image : Image}
    (h : image.Fits) :
    (image.written hash).sectionCount.toNat = image.sections.length :=
  UInt32.toNat_ofNat_of_lt' (Nat.lt_succ_of_le h.count)

/-- An image is written just when it `Fits`: the header that is `written`, then its `body`. -/
theorem serialize_eq_ok {image : Image} {bytes : List UInt8} :
    image.serialize hash = .ok bytes ↔
      image.Fits ∧ bytes = (image.written hash).encode ++ image.body := by
  rw [← fault?_eq_none_iff, serialize]
  cases hfault : image.fault? with
  | some fault => simp
  | none =>
      have hcount := (fault?_eq_none_iff.mp hfault).toNat_sectionCount hash
      have hheader : image.writtenHeader hash = (image.written hash).encode := by
        rw [Header.encode, hcount]
        rfl
      simp [hheader, eq_comm]

/-! ### Reading

`SpelledBy` names the pieces that the bytes consist of, padding and trailing bytes included.
`deserialize` goes through its checks in order; as conditions they are the same in any
(`deserialize_eq_ok`).
-/

/--
Bytes that spell the image, with what is passed over before and after its sections:
`padding` up to the size in the header, and `trailing`.
-/
structure SpelledBy (hash : List UInt8 → UInt64) (image : Image)
    (bytes padding trailing : List UInt8) : Prop where
  understood : image.header.Understood
  bytes : bytes = image.header.encode ++ (padding ++ (image.body ++ trailing))
  /-- The sections start where the header says it ends. -/
  padding : image.header.headerSize.toNat = 24 + padding.length
  count : image.header.sectionCount.toNat = image.sections.length
  nonempty : image.sections ≠ []
  fits : ∀ s ∈ image.sections, s.Fits
  checksum : hash image.body = image.header.checksum

theorem SpelledBy.sectionCount_ne_zero {image : Image} {bytes padding trailing : List UInt8}
    (h : image.SpelledBy hash bytes padding trailing) : image.header.sectionCount ≠ 0 := by
  intro hzero
  have hcount := h.count
  rw [hzero] at hcount
  exact h.nonempty (List.length_eq_zero_iff.mp hcount.symm)

@[simp] theorem consumed_append (front rest : List UInt8) :
    consumed (front ++ rest) rest = front := by
  simp [consumed]

/-- What `split?` finds behind a header, given where the header says that it ends. -/
theorem split?_header {h : Header} {rest front body : List UInt8}
    (hsize : 24 ≤ h.headerSize.toNat) :
    Bytes.split? h.headerSize.toNat (h.encode ++ rest) = some (front, body) ↔
      ∃ padding, front = h.encode ++ padding ∧ rest = padding ++ body ∧
        h.headerSize.toNat = 24 + padding.length := by
  rw [Bytes.split?_eq_some_iff]
  constructor
  · rintro ⟨happend, hlen⟩
    have hle : h.encode.length ≤ front.length := by
      rw [hlen, Header.length_encode]
      exact hsize
    obtain ⟨padding, rfl⟩ : ∃ padding, front = h.encode ++ padding := by
      have hpre : h.encode <+: front :=
        List.prefix_of_prefix_length_le ⟨rest, rfl⟩ ⟨body, happend.symm⟩ hle
      obtain ⟨padding, hpadding⟩ := hpre
      exact ⟨padding, hpadding.symm⟩
    rw [List.append_assoc, List.append_cancel_left_eq] at happend
    refine ⟨padding, rfl, happend, ?_⟩
    rw [← hlen, List.length_append, Header.length_encode]
  · rintro ⟨padding, rfl, rfl, hlen⟩
    exact ⟨(List.append_assoc ..).symm, by simp [hlen]⟩

/-- **Bytes are read as an image just when they spell it (`SpelledBy`).** -/
theorem deserialize_eq_ok {image : Image} {bytes : List UInt8} :
    deserialize hash bytes = .ok image ↔
      ∃ padding trailing, image.SpelledBy hash bytes padding trailing := by
  unfold deserialize
  constructor
  · intro h
    -- Each reader that succeeded gives the bytes that it took; what is left in the end is the
    -- rest behind the sections.
    split at h
    · simp at h
    rename_i header rest hheader
    obtain ⟨hunderstood, rfl⟩ := Reading.header_eq_ok.mp hheader
    split at h
    · simp at h
    rename_i front body hsplit
    obtain ⟨padding, -, rfl, hpadding⟩ := (split?_header hunderstood.size).mp hsplit
    by_cases hzero : header.sectionCount = 0
    · simp [hzero] at h
    rw [if_neg hzero] at h
    split at h
    · simp at h
    rename_i sections trailing hsections
    obtain ⟨new, hnew, hlen, hfits, rfl⟩ := Reading.readSections_eq_ok.mp hsections
    obtain rfl : sections = new := by simpa using hnew
    by_cases hsum : hash
        (consumed (sections.flatMap Section.encode ++ trailing) trailing) = header.checksum
    · rw [if_pos hsum] at h
      obtain rfl := Except.ok.inj h
      refine ⟨padding, trailing, hunderstood, rfl, hpadding, hlen.symm, ?_, hfits, ?_⟩
      · rintro rfl
        exact hzero (UInt32.toNat_inj.mp hlen.symm)
      · rwa [consumed_append] at hsum
    · rw [if_neg hsum] at h
      simp at h
  · rintro ⟨padding, trailing, h⟩
    have hheader := Reading.header_eq_ok.mpr ⟨h.understood, h.bytes⟩
    have hsplit : Bytes.split? image.header.headerSize.toNat
        (image.header.encode ++ (padding ++ (image.body ++ trailing))) =
          some (image.header.encode ++ padding, image.body ++ trailing) :=
      (split?_header h.understood.size).mpr ⟨padding, rfl, rfl, h.padding⟩
    have hsections : Reading.readSections [] image.header.sectionCount.toNat 0
        (image.body ++ trailing) = .ok image.sections trailing :=
      Reading.readSections_eq_ok.mpr ⟨image.sections, rfl, h.count.symm, h.fits, rfl⟩
    rw [hheader, h.bytes]
    simp only [hsplit, if_neg h.sectionCount_ne_zero, hsections, consumed_append, h.checksum,
      if_true]

/-! ### What is written is read back

An image without sections is the exception: it can be written, and what is written is
refused.  All others spell themselves under the header that was written.
-/

/-- Written bytes without a section are refused: `deserialize` asks for one. -/
theorem deserialize_written_nil {image : Image} (hnil : image.sections = []) :
    deserialize hash ((image.written hash).encode ++ image.body) = .error .noSections := by
  have hheader : Reading.header ((image.written hash).encode ++ image.body) =
      .ok (image.written hash) image.body :=
    Reading.header_eq_ok.mpr ⟨image.written_understood, rfl⟩
  have hsplit : Bytes.split? (image.written hash).headerSize.toNat
      ((image.written hash).encode ++ image.body) =
        some ((image.written hash).encode, image.body) :=
    (split?_header image.written_understood.size).mpr ⟨[], by simp, rfl, rfl⟩
  have hzero : (image.written hash).sectionCount = 0 := by
    rw [written, hnil]
    rfl
  unfold deserialize
  rw [hheader]
  simp only [hsplit, if_pos hzero]

/-- Written bytes with a section spell the image under the header that it was written with. -/
theorem spelledBy_written (hash : List UInt8 → UInt64) {image : Image} (hfits : image.Fits)
    (hne : image.sections ≠ []) :
    SpelledBy hash ⟨image.written hash, image.sections⟩
      ((image.written hash).encode ++ image.body) [] [] where
  understood := image.written_understood
  bytes := by simp [body]
  padding := rfl
  count := hfits.toNat_sectionCount hash
  nonempty := hne
  fits := hfits.sections
  checksum := rfl

private theorem serialize_eq_error_iff {image : Image} :
    (∃ fault, image.serialize hash = .error fault) ↔ ¬image.Fits := by
  rw [← fault?_eq_none_iff, serialize]
  cases image.fault? with
  | some fault => simp
  | none => simp

private theorem not_fits_iff {image : Image} :
    ¬image.Fits ↔
      (∃ s ∈ image.sections, 65535 < s.name.utf8ByteSize ∨ 4294967295 < s.bytes.length) ∨
        4294967295 < image.sections.length := by
  constructor
  · intro h
    by_cases hcount : 4294967295 < image.sections.length
    · exact .inr hcount
    refine .inl (Classical.byContradiction fun hnone => h ⟨?_, Nat.le_of_not_lt hcount⟩)
    intro s hs
    refine ⟨Nat.le_of_not_lt fun hname => ?_, Nat.le_of_not_lt fun hbytes => ?_⟩
    · exact hnone ⟨s, hs, .inl hname⟩
    · exact hnone ⟨s, hs, .inr hbytes⟩
  · rintro (⟨s, hs, hname | hbytes⟩ | hcount) h
    · exact Nat.not_lt_of_le (h.sections s hs).name hname
    · exact Nat.not_lt_of_le (h.sections s hs).bytes hbytes
    · exact Nat.not_lt_of_le h.count hcount

/--
**What is written is read back.**  Writing fails just when a name, a payload or the
number of sections does not fit its field.  Written bytes without a section are
refused, and all others are read as the same sections and flags under a header that
owes nothing else to the one before.
-/
theorem deserialize_of_serialize (hash : List UInt8 → UInt64) (image : Image) :
    ((∃ fault, image.serialize hash = .error fault) ↔
      (∃ s ∈ image.sections, 65535 < s.name.utf8ByteSize ∨ 4294967295 < s.bytes.length) ∨
        4294967295 < image.sections.length) ∧
    ∀ bytes, image.serialize hash = .ok bytes →
      (image.sections = [] → deserialize hash bytes = .error .noSections ∧
        ImageFault.noSections.reason = "image has no sections") ∧
      (image.sections ≠ [] → ∃ again, deserialize hash bytes = .ok again ∧
        again.sections = image.sections ∧
        again.header.flags = image.header.flags ∧
        again.header.magic.toList = Text.utf8 "KOHL" ∧
        again.header.version = 1 ∧
        again.header.headerSize = 24 ∧
        again.header.sectionCount.toNat = image.sections.length ∧
        again.header.checksum = hash (bytes.drop 24) ∧
        bytes.drop 24 = image.sections.flatMap Section.encode) := by
  refine ⟨serialize_eq_error_iff.trans not_fits_iff, ?_⟩
  intro bytes hbytes
  obtain ⟨hfits, rfl⟩ := serialize_eq_ok.mp hbytes
  have hdrop : ((image.written hash).encode ++ image.body).drop 24 = image.body :=
    List.drop_left' (image.written hash).length_encode
  refine ⟨fun hnil => ⟨deserialize_written_nil hnil, rfl⟩, fun hne => ?_⟩
  have hread := deserialize_eq_ok.mpr ⟨[], [], spelledBy_written hash hfits hne⟩
  have hmagic : Header.signature.toList = Text.utf8 "KOHL" := by decide
  refine ⟨_, hread, rfl, rfl, hmagic, rfl, rfl, hfits.toNat_sectionCount hash, ?_, hdrop⟩
  rw [hdrop]
  rfl

/-- Two sections, a name beyond ASCII, a flag without meaning, and a header that is all wrong. -/
def sample : Image where
  header := ⟨#v[0, 0, 0, 0], 7, 99, 6, 41, 5⟩
  sections := [.code "main" [0x45], ⟨.data, "größe", []⟩]

/-- The sample is written and read back, and so is an image without sections, as a refusal. -/
theorem sample_deserialize_of_serialize :
    (∃ bytes again, sample.serialize xxh64 = .ok bytes ∧ deserialize xxh64 bytes = .ok again ∧
      again.sections = sample.sections ∧ again.header.flags = 6 ∧
      again.header.sectionCount.toNat = 2) ∧
    ∃ bytes, (ofFlags 0).serialize xxh64 = .ok bytes ∧
      deserialize xxh64 bytes = .error .noSections := by
  have hfits : sample.Fits := ⟨by decide, by decide⟩
  have hbytes : sample.serialize xxh64 = .ok ((sample.written xxh64).encode ++ sample.body) :=
    serialize_eq_ok.mpr ⟨hfits, rfl⟩
  obtain ⟨again, hread, hsections, hflags, -, -, -, hcount, -⟩ :=
    ((deserialize_of_serialize xxh64 sample).2 _ hbytes).2 (by decide)
  refine ⟨⟨_, again, hbytes, hread, hsections, hflags, hcount⟩, ?_⟩
  have hempty : (ofFlags 0).serialize xxh64 =
      .ok (((ofFlags 0).written xxh64).encode ++ (ofFlags 0).body) :=
    serialize_eq_ok.mpr ⟨⟨by decide, by decide⟩, rfl⟩
  exact ⟨_, hempty, (((deserialize_of_serialize xxh64 (ofFlags 0)).2 _ hempty).1 rfl).1⟩

/-! ### What is read has one written form

The two bytes with the size of the header divide its 24 bytes: what stands before
them and what stands behind them is written again as it was read.
-/

end Image

/-- The fields before the size. -/
def Header.leading (h : Header) : List UInt8 :=
  h.magic.toList ++ Bytes.littleEndian 2 h.version.toNat

/-- The fields behind the size. -/
def Header.following (h : Header) : List UInt8 :=
  Bytes.littleEndian 4 h.flags.toNat ++ (Bytes.littleEndian 4 h.sectionCount.toNat ++
    Bytes.littleEndian 8 h.checksum.toNat)

private theorem Header.encode_eq (h : Header) :
    h.encode = h.leading ++ (Bytes.littleEndian 2 h.headerSize.toNat ++ h.following) := by
  simp [Header.encode, Header.leading, Header.following]

@[simp] theorem Header.length_leading (h : Header) : h.leading.length = 6 := by
  simp [Header.leading]

@[simp] theorem Header.length_following (h : Header) : h.following.length = 16 := by
  simp [Header.following]

namespace Image

/-- The size of the header that bytes give: the number in bytes 6 and 7. -/
def headerSizeField (bytes : List UInt8) : Nat := Bytes.ofLittleEndian (bytes.extract 6 8)

/-- The offset just after the last section that is read from bytes. -/
def sectionsEnd? (bytes : List UInt8) : Option Nat :=
  match Reading.header bytes with
  | .error .. => none
  | .ok header _ =>
    match Reading.readSections [] header.sectionCount.toNat 0
        (bytes.drop header.headerSize.toNat) with
    | .error .. => none
    | .ok _ rest => some (bytes.length - rest.length)

/-- What stands between two offsets, given what stands before them. -/
theorem extract_of_append {before part after : List UInt8} {i j : Nat} (hi : before.length = i)
    (hj : i + part.length = j) : (before ++ (part ++ after)).extract i j = part := by
  subst hi
  subst hj
  simp

namespace SpelledBy

variable {hash : List UInt8 → UInt64} {image : Image} {bytes padding trailing : List UInt8}

private theorem headerSizeField_eq (h : image.SpelledBy hash bytes padding trailing) :
    headerSizeField bytes = image.header.headerSize.toNat := by
  have hfield : bytes.extract 6 8 = Bytes.littleEndian 2 image.header.headerSize.toNat := by
    rw [h.bytes, Header.encode_eq, List.append_assoc, List.append_assoc]
    exact extract_of_append (by simp) (by simp)
  rw [headerSizeField, hfield]
  exact Bytes.ofLittleEndian_littleEndian_of_lt image.header.headerSize.toNat_lt

private theorem extract_leading (h : image.SpelledBy hash bytes padding trailing) :
    bytes.extract 0 6 = image.header.leading := by
  rw [h.bytes, Header.encode_eq, List.append_assoc]
  exact extract_of_append (List.length_nil) (by simp)

private theorem extract_following (h : image.SpelledBy hash bytes padding trailing) :
    bytes.extract 8 24 = image.header.following := by
  have hbytes : bytes =
      (image.header.leading ++ Bytes.littleEndian 2 image.header.headerSize.toNat) ++
        (image.header.following ++ (padding ++ (image.body ++ trailing))) := by
    rw [h.bytes, Header.encode_eq]
    simp only [List.append_assoc]
  rw [hbytes]
  exact extract_of_append (by simp) (by simp)

theorem length_eq (h : image.SpelledBy hash bytes padding trailing) :
    bytes.length = image.header.headerSize.toNat + image.body.length + trailing.length := by
  rw [h.bytes, h.padding]
  simp only [List.length_append, Header.length_encode]
  omega

private theorem drop_header (h : image.SpelledBy hash bytes padding trailing) :
    bytes.drop image.header.headerSize.toNat = image.body ++ trailing := by
  rw [h.bytes, ← List.append_assoc]
  exact List.drop_left' (by simp [h.padding])

theorem sectionsEnd?_eq (h : image.SpelledBy hash bytes padding trailing) :
    sectionsEnd? bytes = some (image.header.headerSize.toNat + image.body.length) := by
  have hheader := Reading.header_eq_ok.mpr ⟨h.understood, h.bytes⟩
  have hsections : Reading.readSections [] image.header.sectionCount.toNat 0
      (image.body ++ trailing) = .ok image.sections trailing :=
    Reading.readSections_eq_ok.mpr ⟨image.sections, rfl, h.count.symm, h.fits, rfl⟩
  simp only [sectionsEnd?, hheader, h.drop_header, hsections]
  rw [h.length_eq, Nat.add_sub_cancel]

private theorem extract_body (h : image.SpelledBy hash bytes padding trailing) :
    bytes.extract image.header.headerSize.toNat
      (image.header.headerSize.toNat + image.body.length) = image.body := by
  rw [List.extract, h.drop_header, Nat.add_sub_cancel_left, List.take_left]

/-- What was read can be written again: it `Fits`. -/
theorem fits_image (h : image.SpelledBy hash bytes padding trailing) : image.Fits := by
  refine ⟨h.fits, ?_⟩
  have hlt := image.header.sectionCount.toNat_lt
  rw [← h.count]
  exact Nat.le_of_lt_succ hlt

/-- The header that is `written` differs from the one that was read in its size at most. -/
theorem written_eq (h : image.SpelledBy hash bytes padding trailing) :
    (image.written hash) = { image.header with headerSize := Header.size } := by
  have hcount : UInt32.ofNat image.sections.length = image.header.sectionCount := by
    rw [← h.count, UInt32.ofNat_toNat]
  rw [written, h.checksum, hcount, ← h.understood.magic, ← h.understood.version]

/-- **What was read is written again as it was, but for the size of the header and padding.** -/
theorem serialize_eq (h : image.SpelledBy hash bytes padding trailing) :
    image.serialize hash =
      .ok (image.header.leading ++ [24, 0] ++ image.header.following ++ image.body) := by
  refine serialize_eq_ok.mpr ⟨h.fits_image, ?_⟩
  rw [h.written_eq, Header.encode_eq]
  simp [Header.leading, Header.following, Header.size, Bytes.littleEndian]

end SpelledBy

/--
**What is read has one written form.**  An image that was read is written as the
bytes it was read from, with a header of 24 bytes and nothing behind its sections.
So bytes that were in this form already come back as they were, and two byte strings
that are read as the same sections under the same flags differ only in the size of
the header, its padding, and what stands behind the sections.
-/
theorem serialize_of_deserialize {hash : List UInt8 → UInt64} {bytes : List UInt8} {image : Image}
    (h : deserialize hash bytes = .ok image) :
    ∃ stop, sectionsEnd? bytes = some stop ∧
      24 ≤ headerSizeField bytes ∧ headerSizeField bytes ≤ stop ∧ stop ≤ bytes.length ∧
      image.serialize hash = .ok (bytes.extract 0 6 ++ [24, 0] ++ bytes.extract 8 24 ++
        bytes.extract (headerSizeField bytes) stop) ∧
      (headerSizeField bytes = 24 → stop = bytes.length → image.serialize hash = .ok bytes) ∧
      ∀ bytes' image' stop', deserialize hash bytes' = .ok image' →
        sectionsEnd? bytes' = some stop' → image'.sections = image.sections →
        image'.header.flags = image.header.flags →
          bytes'.extract 0 6 = bytes.extract 0 6 ∧ bytes'.extract 8 24 = bytes.extract 8 24 ∧
            bytes'.extract (headerSizeField bytes') stop' =
              bytes.extract (headerSizeField bytes) stop := by
  obtain ⟨padding, trailing, hs⟩ := deserialize_eq_ok.mp h
  have hserialize := hs.serialize_eq
  refine ⟨_, hs.sectionsEnd?_eq, ?_, ?_, ?_, ?_, ?_, ?_⟩
  · rw [hs.headerSizeField_eq]
    exact hs.understood.size
  · rw [hs.headerSizeField_eq]
    exact Nat.le_add_right ..
  · rw [hs.length_eq]
    exact Nat.le_add_right ..
  · rw [hserialize, hs.extract_leading, hs.extract_following, hs.headerSizeField_eq,
      hs.extract_body]
  · intro hsize hstop
    rw [hs.headerSizeField_eq] at hsize
    obtain rfl : padding = [] := by
      rw [hs.padding] at hsize
      exact List.length_eq_zero_iff.mp (by omega)
    obtain rfl : trailing = [] := by
      rw [hs.length_eq] at hstop
      exact List.length_eq_zero_iff.mp (by omega)
    rw [hserialize, hs.bytes, Header.encode_eq, hsize]
    simp [Bytes.littleEndian]
  · -- Count and checksum are told by the sections, so the flags are all that is free in a header.
    intro bytes' image' stop' h' hstop' hsections hflags
    obtain ⟨padding', trailing', hs'⟩ := deserialize_eq_ok.mp h'
    have hbody : image'.body = image.body := by
      rw [body, hsections, body]
    have hcount : image'.header.sectionCount = image.header.sectionCount := by
      apply UInt32.toNat_inj.mp
      rw [hs'.count, hs.count, hsections]
    have hsum : image'.header.checksum = image.header.checksum := by
      rw [← hs'.checksum, ← hs.checksum, hbody]
    refine ⟨?_, ?_, ?_⟩
    · rw [hs'.extract_leading, hs.extract_leading, Header.leading, Header.leading,
        hs'.understood.magic, hs'.understood.version, hs.understood.magic, hs.understood.version]
    · rw [hs'.extract_following, hs.extract_following, Header.following, Header.following, hflags,
        hcount, hsum]
    · obtain rfl := Option.some.inj (hs'.sectionsEnd?_eq.symm.trans hstop')
      rw [hs'.headerSizeField_eq, hs.headerSizeField_eq, hs'.extract_body, hs.extract_body, hbody]

/-- The sample as it is read from a longer header. -/
def padded : Image where
  header := { sample.written xxh64 with headerSize := 27 }
  sections := sample.sections

theorem padded_spelledBy :
    padded.SpelledBy xxh64 (padded.header.encode ++ ([1, 2, 3] ++ (padded.body ++ [4, 5])))
      [1, 2, 3] [4, 5] :=
  ⟨⟨rfl, rfl, by decide⟩, rfl, rfl, by decide, by decide, by decide, rfl⟩

/-- A longer header and bytes behind the sections are not written again. -/
theorem padded_serialize_of_deserialize :
    ∃ bytes stop, deserialize xxh64 bytes = .ok padded ∧ sectionsEnd? bytes = some stop ∧
      headerSizeField bytes = 27 ∧ bytes.length = stop + 2 ∧
      padded.serialize xxh64 = .ok (bytes.extract 0 6 ++ [24, 0] ++ bytes.extract 8 24 ++
        bytes.extract 27 stop) := by
  have hs := padded_spelledBy
  have hread := deserialize_eq_ok.mpr ⟨_, _, hs⟩
  obtain ⟨stop, hstop, -, -, -, hserialize, -⟩ := serialize_of_deserialize hread
  have hsize : headerSizeField (padded.header.encode ++ ([1, 2, 3] ++ (padded.body ++ [4, 5]))) =
      27 := hs.headerSizeField_eq
  rw [hsize] at hserialize
  refine ⟨_, stop, hread, hstop, hsize, ?_, hserialize⟩
  obtain rfl := Option.some.inj (hs.sectionsEnd?_eq.symm.trans hstop)
  exact hs.length_eq

end Image

end StackCode
