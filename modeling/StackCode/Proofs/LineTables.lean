/-
Line tables lose nothing.

A chunk has a line for every byte.  Its line table has an entry only where the line is
another one than before, and the line of a byte is that of the last entry at or before it
(`lineIn?`).  Lines may go back as well as forward, so what matters of an entry is where it
stands and not which line it has.

An image keeps each table as a section of its own, which is found by the name of the code
that it belongs to (`Image.lineTable?`).  The names of sections are all different, so the
table that is found is the one that was put there, and both writing a table as bytes and
writing the image as bytes can be undone.
-/
import Mathlib.Data.List.Chain
import StackCode.Proofs.Packaging

namespace StackCode

/-- The line that a table gives for an offset: that of the last entry at or before it. -/
def lineIn? (table : List (UInt32 × UInt32)) (offset : Nat) : Option UInt32 :=
  (table.reverse.find? fun entry => entry.1.toNat ≤ offset).map (·.2)

private theorem lineIn?_cons (entry : UInt32 × UInt32) (table : List (UInt32 × UInt32))
    (offset : Nat) :
    lineIn? (entry :: table) offset =
      (lineIn? table offset).or (if entry.1.toNat ≤ offset then some entry.2 else none) := by
  unfold lineIn?
  rw [List.reverse_cons, List.find?_append, Option.map_or, List.find?_singleton]
  by_cases h : entry.1.toNat ≤ offset
  · simp [h]
  · simp [h]

/-- `lineIn?` gives nothing for an offset before all entries of a table. -/
theorem lineIn?_eq_none {table : List (UInt32 × UInt32)} {offset : Nat}
    (h : ∀ entry ∈ table, offset < entry.1.toNat) : lineIn? table offset = none := by
  rw [lineIn?, Option.map_eq_none_iff, List.find?_eq_none]
  intro entry hentry
  simpa using h entry (List.mem_reverse.mp hentry)

namespace Chunk

/-- The table gives every byte of the chunk its line, and has no entry that is not needed. -/
structure TabulatedBy (c : Chunk) (table : List (UInt32 × UInt32)) : Prop where
  start : table.head?.map (·.1) = some 0
  increasing : table.Pairwise fun entry later => entry.1 < later.1
  changing : table.IsChain fun entry next => entry.2 ≠ next.2
  lines : ∀ offset < c.size, lineIn? table offset = c.lineAt? offset

/-! ### Where lines change

`lineTableFrom` collects entries back to front and looks at the last one to see what the
line was.  `lineChanges` is the same from front to back, with the line before as an
argument, and this is the form in which the four properties of `TabulatedBy` are shown, each
by induction on the lines.  Offsets are stored in four bytes, so chunks have to be shorter
than that for offsets to be in order.
-/

/-- The entries for lines from an offset on, where the line before them is `last`. -/
def lineChanges (last : Option UInt32) : Nat → List UInt32 → List (UInt32 × UInt32)
  | _, [] => []
  | offset, line :: rest =>
    if last = some line then lineChanges last (offset + 1) rest
    else (UInt32.ofNat offset, line) :: lineChanges (some line) (offset + 1) rest

private theorem lineTableFrom_eq (lines : List UInt32) :
    ∀ (done : List (UInt32 × UInt32)) (offset : Nat),
      lineTableFrom done offset lines =
        done.reverse ++ lineChanges (done.head?.map (·.2)) offset lines := by
  induction lines with
  | nil =>
      intro done offset
      rw [lineTableFrom, lineChanges, List.append_nil]
  | cons line rest ih =>
      intro done offset
      have hsame : done.head?.any (·.2 == line) = true ↔ done.head?.map (·.2) = some line := by
        cases done <;> simp
      rw [lineTableFrom, lineChanges]
      by_cases h : done.head?.map (·.2) = some line
      · rw [if_pos (hsame.mpr h), if_pos h, ih]
      · rw [if_neg (mt hsame.mp h), if_neg h, ih]
        simp

private theorem lineTable_eq (c : Chunk) : c.lineTable = lineChanges none 0 c.lines.toList :=
  lineTableFrom_eq c.lines.toList [] 0

/-- The entries of `lineChanges` are for the bytes that the lines belong to. -/
theorem offset_of_mem_lineChanges (lines : List UInt32) :
    ∀ (last : Option UInt32) (offset : Nat), offset + lines.length ≤ UInt32.size →
      ∀ entry ∈ lineChanges last offset lines, offset ≤ entry.1.toNat := by
  induction lines with
  | nil =>
      intro last offset _ entry hentry
      simp [lineChanges] at hentry
  | cons line rest ih =>
      intro last offset hfits entry hentry
      rw [List.length_cons] at hfits
      have hlater : ∀ last, entry ∈ lineChanges last (offset + 1) rest →
          offset ≤ entry.1.toNat := by
        intro last hmem
        have hle := ih last (offset + 1) (by omega) entry hmem
        omega
      rw [lineChanges] at hentry
      by_cases h : last = some line
      · rw [if_pos h] at hentry
        exact hlater last hentry
      · rw [if_neg h] at hentry
        rcases List.mem_cons.mp hentry with rfl | hentry
        · show offset ≤ (UInt32.ofNat offset).toNat
          rw [UInt32.toNat_ofNat_of_lt' (by omega)]
        · exact hlater (some line) hentry

private theorem lineChanges_increasing (lines : List UInt32) :
    ∀ (last : Option UInt32) (offset : Nat), offset + lines.length ≤ UInt32.size →
      (lineChanges last offset lines).Pairwise fun entry later => entry.1 < later.1 := by
  induction lines with
  | nil =>
      intro last offset _
      exact .nil
  | cons line rest ih =>
      intro last offset hfits
      rw [List.length_cons] at hfits
      have hrest : offset + 1 + rest.length ≤ UInt32.size := by omega
      rw [lineChanges]
      by_cases h : last = some line
      · rw [if_pos h]
        exact ih last (offset + 1) hrest
      · rw [if_neg h]
        refine .cons ?_ (ih (some line) (offset + 1) hrest)
        intro later hlater
        have hle := offset_of_mem_lineChanges rest (some line) (offset + 1) hrest later hlater
        have hoffset : (UInt32.ofNat offset).toNat = offset := UInt32.toNat_ofNat_of_lt' (by omega)
        rw [UInt32.lt_iff_toNat_lt]
        show (UInt32.ofNat offset).toNat < later.1.toNat
        omega

/-- No entry of `lineChanges` repeats the line before it. -/
theorem lineChanges_changing (lines : List UInt32) :
    ∀ (last : Option UInt32) (offset : Nat),
      (∀ entry ∈ (lineChanges last offset lines).head?, last ≠ some entry.2) ∧
        (lineChanges last offset lines).IsChain fun entry next => entry.2 ≠ next.2 := by
  induction lines with
  | nil =>
      intro last offset
      simp [lineChanges]
  | cons line rest ih =>
      intro last offset
      rw [lineChanges]
      by_cases h : last = some line
      · rw [if_pos h]
        exact ih last (offset + 1)
      · rw [if_neg h]
        obtain ⟨hhead, hchain⟩ := ih (some line) (offset + 1)
        refine ⟨by simpa using h, List.isChain_cons.mpr ⟨?_, hchain⟩⟩
        intro next hnext hsame
        exact hhead next hnext (congrArg some hsame)

/-- **The last entry at or before a byte has its line.**  Without one the line is still `last`. -/
theorem lineIn?_lineChanges (lines : List UInt32) :
    ∀ (last : Option UInt32) (offset : Nat), offset + lines.length ≤ UInt32.size →
      ∀ i < lines.length,
        (lineIn? (lineChanges last offset lines) (offset + i)).or last = lines[i]? := by
  induction lines with
  | nil =>
      intro last offset _ i hi
      exact absurd hi (Nat.not_lt_zero i)
  | cons line rest ih =>
      intro last offset hfits i hi
      rw [List.length_cons] at hfits hi
      have hrest : offset + 1 + rest.length ≤ UInt32.size := by omega
      -- The entries of the lines behind this one say nothing about its own byte.
      have hbefore : ∀ last, lineIn? (lineChanges last (offset + 1) rest) (offset + 0) = none :=
        fun last => lineIn?_eq_none (offset_of_mem_lineChanges rest last (offset + 1) hrest)
      have hlater : ∀ last k, i = k + 1 →
          (lineIn? (lineChanges last (offset + 1) rest) (offset + i)).or last =
            (line :: rest)[i]? := by
        intro last k hk
        subst hk
        have hline := ih last (offset + 1) hrest k (by omega)
        rwa [Nat.add_assoc, Nat.add_comm 1 k] at hline
      rw [lineChanges]
      by_cases h : last = some line
      · rw [if_pos h]
        cases i with
        | zero =>
            rw [hbefore, h]
            rfl
        | succ k => exact hlater last k rfl
      · rw [if_neg h, lineIn?_cons]
        have hoffset : (UInt32.ofNat offset).toNat ≤ offset + i := by
          rw [UInt32.toNat_ofNat_of_lt' (by omega)]
          exact Nat.le_add_right ..
        rw [if_pos hoffset]
        cases i with
        | zero =>
            rw [hbefore]
            rfl
        | succ k =>
            rw [hlater (some line) k rfl]
            cases hget : (line :: rest)[k + 1]? with
            | some found => rfl
            | none =>
                rw [List.getElem?_eq_none_iff] at hget
                simp only [List.length_cons] at hget
                omega

/-- A chunk with code is described by its `lineTable`, if its offsets fit four bytes. -/
theorem tabulatedBy_lineTable {c : Chunk} (hpos : 0 < c.size) (hfits : c.size < UInt32.size) :
    c.TabulatedBy c.lineTable := by
  have hlength : c.lines.toList.length = c.size := by
    rw [Array.length_toList, c.size_lines]
    rfl
  have hle : 0 + c.lines.toList.length ≤ UInt32.size := by omega
  rw [lineTable_eq]
  refine ⟨?_, lineChanges_increasing _ none 0 hle, (lineChanges_changing _ none 0).2, ?_⟩
  · obtain ⟨line, rest, hlines⟩ := List.exists_cons_of_length_pos (hlength ▸ hpos)
    rw [hlines]
    rfl
  · intro offset hoffset
    have hline := lineIn?_lineChanges c.lines.toList none 0 hle offset (by omega)
    rw [Nat.zero_add, Option.or_none] at hline
    rw [hline, lineAt?, Array.getElem?_toList]

end Chunk

/-! ### Tables as bytes

Eight bytes an entry and nothing else, so a table can be read back from its bytes.  A
section of lines has a name made of the name of its code.
-/

namespace Section

private theorem decodeLinesFrom_encodeLines (table : List (UInt32 × UInt32)) :
    ∀ done, decodeLinesFrom done (encodeLines table) = done.reverse ++ table := by
  induction table with
  | nil =>
      intro done
      rw [List.append_nil]
      rfl
  | cons entry table ih =>
      intro done
      have hword (n : UInt32) :
          UInt32.ofNat (Bytes.ofLittleEndian (Bytes.littleEndian 4 n.toNat)) = n := by
        rw [Bytes.ofLittleEndian_littleEndian_of_lt n.toNat_lt, UInt32.ofNat_toNat]
      have hstep : decodeLinesFrom done (encodeLines (entry :: table)) =
          decodeLinesFrom
            ((UInt32.ofNat (Bytes.ofLittleEndian (Bytes.littleEndian 4 entry.1.toNat)),
              UInt32.ofNat (Bytes.ofLittleEndian (Bytes.littleEndian 4 entry.2.toNat))) :: done)
            (encodeLines table) := rfl
      rw [hstep, hword, hword, ih, List.reverse_cons, List.append_assoc]
      rfl

private theorem decodeLines_encodeLines (table : List (UInt32 × UInt32)) :
    decodeLines (encodeLines table) = table :=
  decodeLinesFrom_encodeLines table []

end Section

namespace Image

/-- Where no two sections share a name, `lineTable?` finds a table under the name of its code. -/
theorem lineTable?_eq_some {image : Image} {name : String} {table : List (UInt32 × UInt32)}
    (hdistinct : (image.sections.map (·.name)).Nodup)
    (hmem : Section.lines name table ∈ image.sections) : image.lineTable? name = some table := by
  have hfound : (image.sections.find? fun s =>
      s.kind == .debug && s.name == Section.linesName name).isSome = true := by
    rw [List.find?_isSome]
    exact ⟨_, hmem, by simp [Section.lines]⟩
  obtain ⟨s, hs⟩ := Option.isSome_iff_exists.mp hfound
  have hname : s.name = (Section.lines name table).name := by
    have htest := List.find?_some hs
    rw [Bool.and_eq_true, beq_iff_eq] at htest
    exact eq_of_beq htest.2
  obtain rfl : s = Section.lines name table :=
    List.inj_on_of_nodup_map hdistinct (List.mem_of_find?_eq_some hs) hmem hname
  rw [lineTable?, hs]
  exact congrArg some (Section.decodeLines_encodeLines table)

end Image

namespace Codegen

variable {o : CompileOptions} {code : List CodeSection}

/-- The `codeSections` of a packaged image are those that were generated. -/
theorem codeSections_package (slots : Nat) (code : List CodeSection) :
    (package o slots code).codeSections =
      code.map (fun s => Section.code s.name s.chunk.code.toList) := by
  rw [Image.codeSections, package_sections, List.filter_append, List.filter_append,
    List.filter_eq_self.mpr, List.filter_eq_nil_iff.mpr, List.filter_eq_nil_iff.mpr,
    List.append_nil, List.append_nil]
  · intro s hs
    split at hs
    · obtain ⟨c, -, rfl⟩ := List.mem_map.mp hs
      exact Bool.false_ne_true
    · simp at hs
  · intro s hs
    split at hs
    · obtain rfl := List.mem_singleton.mp hs
      exact Bool.false_ne_true
    · simp at hs
  · intro s hs
    obtain ⟨c, -, rfl⟩ := List.mem_map.mp hs
    rfl

/-- With `debugLines`, the table of each section with code is among the sections of the image. -/
theorem lines_mem_package (hdebug : o.debugLines = true) (slots : Nat) {s : CodeSection}
    (hs : s ∈ code) :
    Section.lines s.name s.chunk.lineTable ∈ (package o slots code).sections := by
  rw [package_sections, if_pos hdebug]
  exact List.mem_append_right _ (List.mem_map.mpr ⟨s, hs, rfl⟩)

end Codegen

/-- Every section of a program has code, be it only the instruction that leaves it. -/
theorem Compiles.size_pos {source : String} {tabWidth : Nat} {o : CompileOptions} {p : Program}
    {r : Resolutions} {sections : List CodeSection} (h : Compiles source tabWidth o p r sections)
    {s : CodeSection} (hs : s ∈ sections) : 0 < s.chunk.size := by
  obtain ⟨k, hk⟩ := List.mem_iff_getElem?.mp hs
  obtain ⟨-, -, b, body, -, -, -, hcode⟩ := h.section_at hk
  have hlength := congrArg List.length hcode
  rw [Array.length_toList] at hlength
  rw [Chunk.size, hlength]
  simp

namespace Compiler

variable {o : CompileOptions} {source : String} {image : Image}

/-- An image that is compiled can be written (`Fits`) if no payload is too long. -/
theorem fits_of_compiles {p : Program} {r : Resolutions} {code : List CodeSection}
    (h : Compiles source o.tabWidth o p r code)
    (hpayloads : ∀ s ∈ (Codegen.package o r.variableCount code).sections,
      s.bytes.length ≤ 4294967295) :
    (Codegen.package o r.variableCount code).Fits := by
  have hnames := Codegen.utf8ByteSize_package
    (Codegen.utf8ByteSize_le_of_codeSections h.generated) r.variableCount
  have hcount := (laidOut_of_compiles h).limit
  have hlimit := o.maxSections.toNat_lt
  exact ⟨fun s hs => ⟨hnames s hs, hpayloads s hs⟩, by omega⟩

/--
**Line tables lose nothing.**  Every section of an image compiled with line tables has one, from
which the line of each of its bytes is read off; an image that is written and read back still
gives the same tables.
-/
theorem compile_lineTables (h : compile o source = .ok image) (hdebug : o.debugLines = true) :
    ∃ p r code, Compiles source o.tabWidth o p r code ∧
      image.codeSections = code.map (fun s => Section.code s.name s.chunk.code.toList) ∧
      ((∀ s ∈ image.sections, s.bytes.length ≤ 4294967295) →
        ∃ bytes, image.serialize Checksum.xxh64 = .ok bytes) ∧
      ∀ s ∈ code, s.chunk.size < 4294967296 →
        ∃ table, image.lineTable? s.name = some table ∧ s.chunk.TabulatedBy table ∧
          ∀ bytes, image.serialize Checksum.xxh64 = .ok bytes → ∃ again,
            Image.deserialize Checksum.xxh64 bytes = .ok again ∧
              again.lineTable? s.name = some table := by
  obtain ⟨p, r, code, hcompiles, rfl⟩ := compile_eq_ok h
  have hdistinct := (laidOut_of_compiles hcompiles).distinct
  refine ⟨p, r, code, hcompiles, Codegen.codeSections_package r.variableCount code,
    ?_, ?_⟩
  · intro hpayloads
    exact ⟨_, Image.serialize_eq_ok.mpr ⟨fits_of_compiles hcompiles hpayloads, rfl⟩⟩
  · intro s hs hsize
    have hmem := Codegen.lines_mem_package hdebug r.variableCount hs
    refine ⟨s.chunk.lineTable, Image.lineTable?_eq_some hdistinct hmem,
      Chunk.tabulatedBy_lineTable (hcompiles.size_pos hs) hsize, ?_⟩
    intro bytes hbytes
    obtain ⟨hfits, rfl⟩ := Image.serialize_eq_ok.mp hbytes
    -- What is read back has another header at most, and its sections are the same.
    refine ⟨_, Image.deserialize_eq_ok.mpr
      ⟨[], [], Image.spelledBy_written _ hfits (List.ne_nil_of_mem hmem)⟩, ?_⟩
    exact Image.lineTable?_eq_some hdistinct hmem

/-- The end of the loop jumps back to its first line, and the program goes on behind it. -/
def folded : String := "var n = 3; while n > 0\n{ n -= 1; } dbg(n);"

/-- The table of the folded loop goes back a line where the loop ends, and is read back so. -/
theorem folded_compile_lineTables :
    ∃ image p r s bytes again, compile ⟨4, true, 9⟩ folded = .ok image ∧
      Compiles folded 4 ⟨4, true, 9⟩ p r [s] ∧ s.name = "main" ∧ s.chunk.size = 36 ∧
      image.lineTable? "main" = some [(0, 1), (20, 2), (28, 1), (31, 2)] ∧
      s.chunk.TabulatedBy [(0, 1), (20, 2), (28, 1), (31, 2)] ∧
      image.serialize Checksum.xxh64 = .ok bytes ∧
      Image.deserialize Checksum.xxh64 bytes = .ok again ∧
      again.lineTable? "main" = some [(0, 1), (20, 2), (28, 1), (31, 2)] := by
  have htest : ((compile ⟨4, true, 9⟩ folded).toOption.any fun image =>
      decide (image.codeSections.map (fun s => (s.name, s.bytes.length)) = [("main", 36)]) &&
      decide (image.lineTable? "main" = some [(0, 1), (20, 2), (28, 1), (31, 2)]) &&
      image.sections.all fun s => decide (s.bytes.length ≤ 4294967295)) = true := by
    decide +kernel
  obtain ⟨image, himage, hall⟩ := (Option.any_eq_true _ _).mp htest
  simp only [Bool.and_eq_true, decide_eq_true_eq, List.all_eq_true] at hall
  obtain ⟨⟨hsections, htable⟩, hpayloads⟩ := hall
  have hcompile : compile ⟨4, true, 9⟩ folded = .ok image := by
    generalize compile ⟨4, true, 9⟩ folded = result at himage
    cases result with
    | ok found => exact congrArg Except.ok (Option.some.inj himage)
    | error e => simp [Except.toOption] at himage
  obtain ⟨p, r, code, hcompiles, hcode, hserialize, hlines⟩ := compile_lineTables hcompile rfl
  obtain ⟨s, rfl, hname, hsize⟩ : ∃ s, code = [s] ∧ s.name = "main" ∧ s.chunk.size = 36 := by
    rw [hcode, List.map_map] at hsections
    obtain ⟨s, rfl, hs⟩ := List.map_eq_singleton_iff.mp hsections
    exact ⟨s, rfl, congrArg Prod.fst hs, congrArg Prod.snd hs⟩
  obtain ⟨bytes, hbytes⟩ := hserialize hpayloads
  obtain ⟨table, hfound, htabulated, hagain⟩ := hlines s List.mem_cons_self (by omega)
  rw [hname, htable, Option.some.injEq] at hfound
  subst hfound
  obtain ⟨again, hread, hkept⟩ := hagain bytes hbytes
  exact ⟨image, p, r, s, bytes, again, hcompile, hcompiles, hname, hsize, htable, htabulated,
    hbytes, hread, hname ▸ hkept⟩

end Compiler

end StackCode
