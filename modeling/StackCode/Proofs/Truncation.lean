/-
Images that are cut short, and bytes behind an image.

A reader that succeeds has taken some bytes off the front and has looked at nothing behind
them.  `Reads` says so, and says what happens if even one of them is missing: then the
reader misses it (`ImageFault.truncated`), and nothing else is found wrong before.  This is
kept when readers are put in sequence (`Reads.bind`), since a cut falls either into what the
first one takes or into what is left for the second.

So an image that is cut anywhere before the end of its last section (`sectionsEnd?`) is
refused for being cut and for no other reason, and what stands behind that end does not
matter.
-/
import StackCode.Proofs.RoundTrip

namespace StackCode

open Sequencing

/-! ### Readers

`Reads` goes with sequences in the way that readers are written: `pure` takes nothing,
`bind` takes what the one and then the other take, and a test that passes takes nothing
(`passes`).
-/

/-- `split?` does not split too few bytes. -/
theorem Bytes.split?_eq_none {n : Nat} {bs : List UInt8} (h : bs.length < n) :
    split? n bs = none := by
  have hshort : (bs.take n).length ≠ n := by
    rw [List.length_take]
    omega
  simp only [split?, if_neg hshort]

namespace Image

namespace Reading

/-- The reader takes these bytes for its answer, whatever is behind them, and misses any of them. -/
structure Reads {α : Type} (r : Reading α) (bs : List UInt8) (a : α) : Prop where
  whole : ∀ rest, r (bs ++ rest) = .ok a rest
  cut : ∀ n < bs.length, ∃ part left, r (bs.take n) = .error (.truncated part) left

namespace Reads

variable {α β : Type} {r : Reading α} {f : α → Reading β} {bs bs' : List UInt8} {a : α} {b : β}

protected theorem pure (a : α) : Reads (pure a) [] a :=
  ⟨fun _ => rfl, fun _ hn => absurd hn (Nat.not_lt_zero _)⟩

/-- A cut falls into what the first reader takes, or into what it leaves for the second. -/
protected theorem bind (hr : Reads r bs a) (hf : Reads (f a) bs' b) :
    Reads (r >>= f) (bs ++ bs') b := by
  refine ⟨?_, ?_⟩
  · intro rest
    rw [List.append_assoc, bind_of_ok (hr.whole _), hf.whole]
  · intro n hn
    by_cases hlt : n < bs.length
    · obtain ⟨part, left, herror⟩ := hr.cut n hlt
      refine ⟨part, left, ?_⟩
      rw [List.take_append_of_le_length (Nat.le_of_lt hlt)]
      exact bind_eq_error.mpr (.inl herror)
    · rw [List.length_append] at hn
      obtain ⟨part, left, herror⟩ := hf.cut (n - bs.length) (by omega)
      refine ⟨part, left, ?_⟩
      rw [List.take_append, List.take_of_length_le (Nat.le_of_not_lt hlt),
        bind_of_ok (hr.whole _), herror]

/-- An answer that is only made into another one takes no more bytes, as in `pure`. -/
theorem answer (hr : Reads r bs a) (g : α → β) : Reads (r >>= fun a => pure (g a)) bs (g a) := by
  have hboth := hr.bind (f := fun a => pure (g a)) (.pure (g a))
  rwa [List.append_nil] at hboth

/-- A test that finds nothing wrong takes no bytes. -/
theorem passes {c : Prop} [Decidable c] {fault : ImageFault} {k : PUnit → Reading α} (hc : ¬c)
    (hr : Reads r bs a) : Reads (if c then (throw fault : Reading PUnit) >>= k else r) bs a := by
  rwa [if_neg hc]

end Reads

/-! ### Fields

A field is as many bytes as it has or as its length says, and `take` misses any of them.  A
number has to fit its width, or other bytes would stand for it.
-/

private theorem take_reads (part : ImagePart) (bs : List UInt8) :
    Reads (take bs.length part) bs bs := by
  refine ⟨fun rest => take_eq_ok.mpr ⟨rfl, rfl⟩, ?_⟩
  intro n hn
  have hshort : (bs.take n).length < bs.length := Nat.lt_of_le_of_lt (List.length_take_le n bs) hn
  refine ⟨part, bs.take n, ?_⟩
  simp only [take, Bytes.split?_eq_none hshort]

private theorem number_reads (width : Nat) (part : ImagePart) {n : Nat}
    (hn : n < Bytes.capacity width) :
    Reads (number width part) (Bytes.littleEndian width n) n := by
  have htake := (take_reads part (Bytes.littleEndian width n)).answer Bytes.ofLittleEndian
  rwa [Bytes.length_littleEndian, Bytes.ofLittleEndian_littleEndian_of_lt hn] at htake

private theorem kind_reads (index : Nat) (k : SectionKind) : Reads (kind index) [k.toByte] k := by
  have hbyte : Bytes.littleEndian 1 k.toByte.toNat = [k.toByte] := by
    simp [Bytes.littleEndian]
  have hnumber := number_reads 1 .sectionFields k.toByte.toNat_lt
  rw [hbyte] at hnumber
  rw [← List.append_nil [k.toByte]]
  refine hnumber.bind ?_
  rw [UInt8.ofNat_toNat, SectionKind.ofByte?_toByte]
  exact .pure k

private theorem name_reads (index : Nat) {s : String} (hs : s.utf8ByteSize ≤ 65535) :
    Reads (name index) (Bytes.littleEndian 2 s.utf8ByteSize ++ Text.utf8 s) s := by
  refine (number_reads 2 .sectionFields (Nat.lt_succ_of_le hs)).bind ?_
  have htake := take_reads .sectionName (Text.utf8 s)
  rw [Text.length_utf8] at htake
  rw [← List.append_nil (Text.utf8 s)]
  refine htake.bind ?_
  rw [Text.ofUtf8?_eq_some_iff.mpr rfl]
  exact .pure s

/-! ### Sections and headers

The induction is on the sections, with those that were read before general.  A cut between
two sections is found because the number of sections is known from the header.
-/

private theorem readSection_reads (index : Nat) {s : Section} (hs : s.Fits) :
    Reads (readSection index) s.encode s := by
  have hbytes : s.encode = [s.kind.toByte] ++
      ((Bytes.littleEndian 2 s.name.utf8ByteSize ++ Text.utf8 s.name) ++
        (Bytes.littleEndian 4 s.bytes.length ++ s.bytes)) := by
    simp [Section.encode]
  rw [hbytes]
  refine (kind_reads index s.kind).bind ((name_reads index hs.name).bind ?_)
  refine (number_reads 4 .sectionFields (Nat.lt_succ_of_le hs.bytes)).bind ?_
  exact (take_reads .sectionPayload s.bytes).answer fun bytes =>
    ({ kind := s.kind, name := s.name, bytes } : Section)

/--
`readSections` misses sections wherever they are cut, between two of them as well as inside
one.
-/
theorem readSections_reads (sections : List Section) :
    ∀ (index : Nat) (done : List Section), (∀ s ∈ sections, s.Fits) →
      Reads (readSections done sections.length index) (sections.flatMap Section.encode)
        (done.reverse ++ sections) := by
  induction sections with
  | nil =>
      intro index done _
      rw [List.append_nil]
      exact .pure done.reverse
  | cons s rest ih =>
      intro index done hfits
      obtain ⟨hs, hrest⟩ := List.forall_mem_cons.mp hfits
      have hmore := ih (index + 1) (s :: done) hrest
      rw [List.reverse_cons, List.append_assoc, List.singleton_append] at hmore
      exact (readSection_reads index hs).bind hmore

private theorem header_reads {h : Header} (hh : h.Understood) : Reads header h.encode h := by
  obtain ⟨magic, version, size, flags, count, checksum⟩ := h
  obtain ⟨rfl, rfl, hsize⟩ := hh
  refine (take_reads .magic Header.signature.toList).bind (.passes (by simp) ?_)
  refine (number_reads 2 .header Header.currentVersion.toNat_lt).bind (.passes (by simp) ?_)
  refine (number_reads 2 .header size.toNat_lt).bind (.passes (Nat.not_lt_of_le hsize) ?_)
  refine (number_reads 4 .header flags.toNat_lt).bind ?_
  refine (number_reads 4 .header count.toNat_lt).bind ?_
  have hlast := (number_reads 8 .header checksum.toNat_lt).answer fun sum =>
    (⟨Header.signature, .ofNat Header.currentVersion.toNat, .ofNat size.toNat, .ofNat flags.toNat,
      .ofNat count.toNat, .ofNat sum⟩ : Header)
  simpa only [UInt16.ofNat_toNat, UInt32.ofNat_toNat, UInt64.ofNat_toNat] using hlast

end Reading

/-! ### Images

There are three places to cut an image: in the header, in its padding, and in the sections.
The padding is no field, and it is the size in the header that finds the cut there.
-/

namespace SpelledBy

variable {hash : List UInt8 → UInt64} {image : Image} {bytes padding trailing : List UInt8}

/-- Cut inside its header, an image has none: this is `header_reads`. -/
theorem cut_header (h : image.SpelledBy hash bytes padding trailing) {n : Nat} (hn : n < 24) :
    ∃ part, deserialize hash (bytes.take n) = .error (.truncated part) := by
  have hlt : n < image.header.encode.length := by
    rw [Header.length_encode]
    exact hn
  obtain ⟨part, left, herror⟩ := (Reading.header_reads h.understood).cut n hlt
  refine ⟨part, ?_⟩
  rw [h.bytes, List.take_append_of_le_length (Nat.le_of_lt hlt)]
  simp only [deserialize, herror]

/-- Cut inside its padding, an image ends before `headerSize` says that its header does. -/
theorem cut_padding (h : image.SpelledBy hash bytes padding trailing) {n : Nat} (hn : 24 ≤ n)
    (hlt : n < image.header.headerSize.toNat) :
    deserialize hash (bytes.take n) = .error (.truncated .header) := by
  have htake : bytes.take n =
      image.header.encode ++ (padding ++ (image.body ++ trailing)).take (n - 24) := by
    rw [h.bytes, List.take_append, Header.length_encode,
      List.take_of_length_le (by rw [Header.length_encode]; exact hn)]
  have hheader := (Reading.header_reads h.understood).whole
    ((padding ++ (image.body ++ trailing)).take (n - 24))
  have hshort : (bytes.take n).length < image.header.headerSize.toNat :=
    Nat.lt_of_le_of_lt (List.length_take_le n bytes) hlt
  rw [htake] at hshort ⊢
  simp only [deserialize, hheader, Bytes.split?_eq_none hshort]

/-- Cut behind its header, an image has fewer sections than its `sectionCount` says. -/
theorem cut_body (h : image.SpelledBy hash bytes padding trailing) {n : Nat}
    (hn : n < image.body.length) :
    ∃ part, deserialize hash (bytes.take (image.header.headerSize.toNat + n)) =
      .error (.truncated part) := by
  have htake : bytes.take (image.header.headerSize.toNat + n) =
      image.header.encode ++ (padding ++ image.body.take n) := by
    have hfront : (image.header.encode ++ padding).length = image.header.headerSize.toNat := by
      rw [List.length_append, Header.length_encode, h.padding]
    rw [h.bytes, ← List.append_assoc, ← hfront, List.take_length_add_append,
      List.take_append_of_le_length (Nat.le_of_lt hn), List.append_assoc]
  have hheader := (Reading.header_reads h.understood).whole (padding ++ image.body.take n)
  have hsplit : Bytes.split? image.header.headerSize.toNat
      (image.header.encode ++ (padding ++ image.body.take n)) =
        some (image.header.encode ++ padding, image.body.take n) :=
    (split?_header h.understood.size).mpr ⟨padding, rfl, rfl, h.padding⟩
  obtain ⟨part, left, herror⟩ := (Reading.readSections_reads image.sections 0 [] h.fits).cut n hn
  have hsections : Reading.readSections [] image.header.sectionCount.toNat 0
      (image.body.take n) = .error (.truncated part) left := by
    rw [h.count]
    exact herror
  refine ⟨part, ?_⟩
  rw [htake]
  simp only [deserialize, hheader, hsplit, if_neg h.sectionCount_ne_zero, hsections]

/-- What stands behind the sections may be anything: `SpelledBy` has it as `trailing`. -/
theorem extend (h : image.SpelledBy hash bytes padding trailing) (tail : List UInt8) :
    image.SpelledBy hash
      (bytes.take (image.header.headerSize.toNat + image.body.length) ++ tail) padding tail where
  understood := h.understood
  bytes := by
    have hfront : (image.header.encode ++ (padding ++ image.body)).length =
        image.header.headerSize.toNat + image.body.length := by
      simp only [List.length_append, Header.length_encode, h.padding]
      omega
    have hbytes : bytes = image.header.encode ++ (padding ++ image.body) ++ trailing := by
      rw [h.bytes]
      simp only [List.append_assoc]
    rw [hbytes, List.take_left' hfront]
    simp only [List.append_assoc]
  padding := h.padding
  count := h.count
  nonempty := h.nonempty
  fits := h.fits
  checksum := h.checksum

end SpelledBy

/--
**An image that is cut short is refused, and what stands behind it is not read.**  Any cut
before the end of the last section is found to be one, and with that end kept whole any
bytes may follow.
-/
theorem deserialize_cut_or_extended {hash : List UInt8 → UInt64} {bytes : List UInt8}
    {image : Image} (h : deserialize hash bytes = .ok image) :
    ∃ stop, sectionsEnd? bytes = some stop ∧ stop ≤ bytes.length ∧
      (∀ n < stop, ∃ part, deserialize hash (bytes.take n) = .error (.truncated part)) ∧
      ∀ tail, deserialize hash (bytes.take stop ++ tail) = .ok image := by
  obtain ⟨padding, trailing, hs⟩ := deserialize_eq_ok.mp h
  refine ⟨_, hs.sectionsEnd?_eq, ?_, ?_, ?_⟩
  · rw [hs.length_eq]
    exact Nat.le_add_right ..
  · intro n hn
    by_cases hheader : n < 24
    · exact hs.cut_header hheader
    by_cases hpadding : n < image.header.headerSize.toNat
    · exact ⟨.header, hs.cut_padding (Nat.le_of_not_lt hheader) hpadding⟩
    · obtain ⟨k, rfl⟩ := Nat.exists_eq_add_of_le (Nat.le_of_not_lt hpadding)
      exact hs.cut_body (Nat.lt_of_add_lt_add_left hn)
  · intro tail
    exact deserialize_eq_ok.mpr ⟨padding, tail, hs.extend tail⟩

/-- Two bytes behind the padded sample can be replaced by three others; no other byte is spare. -/
theorem padded_deserialize_cut_or_extended :
    ∃ bytes stop, deserialize Checksum.xxh64 bytes = .ok padded ∧ sectionsEnd? bytes = some stop ∧
      bytes.length = stop + 2 ∧
      (∃ part, deserialize Checksum.xxh64 (bytes.take (stop - 1)) = .error (.truncated part)) ∧
      (∃ part, deserialize Checksum.xxh64 (bytes.take 26) = .error (.truncated part)) ∧
      deserialize Checksum.xxh64 (bytes.take stop ++ [6, 7, 8]) = .ok padded := by
  have hread := deserialize_eq_ok.mpr ⟨_, _, padded_spelledBy⟩
  obtain ⟨stop, hstop, -, hcut, hextended⟩ := deserialize_cut_or_extended hread
  have hend : stop = 27 + padded.body.length :=
    Option.some.inj (hstop.symm.trans padded_spelledBy.sectionsEnd?_eq)
  refine ⟨_, stop, hread, hstop, ?_, hcut _ (by omega), hcut _ (by omega), hextended _⟩
  rw [hend]
  exact padded_spelledBy.length_eq

end Image

end StackCode
