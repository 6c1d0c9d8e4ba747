/-
What a compiled image is made of.

An image has its code first, then the storage of its variables, then its line tables
(`Image.LaidOut`).  Sections are found by name, so no two may have the same.  Functions may
share a name: then the later ones get a number behind a `#`, which no identifier has, and
the first section is called `main` whether a function is or not.  The other sections have a
dot in front, which no identifier has either.

All lengths fit their fields, since names were limited when sections were numbered and the
number of sections is limited from the start.  Only the sizes of payloads are not, and with
those given an image can be written and read back (`Image.load_of_fits`).
-/
import StackCode.Proofs.Likeness.Codegen
import StackCode.Proofs.Likeness.Parsing
import StackCode.Proofs.Recognition.Program
import StackCode.Proofs.RoundTrip
import Std.Data.String.ToNat

namespace StackCode

open Sequencing

/-! ### Names of functions

That identifiers are words is known of tokens, and it has to get to the names in the tree.
The relations of `Likeness` carry any property of names from tokens to trees: a text is read
beside itself, with `Matching.words` in place of a second text.
-/

/-- The text of an identifier. -/
def IsWord (name : String) : Prop :=
  name.toList ≠ [] ∧ ∀ c ∈ name.toList, Lexeme.isWordChar c = true

private theorem Lexeme.isWordChar_of_read {cs text rest : List Char}
    (h : read cs = .token .identifier text rest) : ∀ c ∈ text, isWordChar c = true := by
  generalize hkind : TokenKind.identifier = kind at h
  cases read_eq_iff.mp h with
  | decimal | radix | mark => simp at hkind
  | word hc hcs => exact List.forall_mem_cons.mpr ⟨isWordChar_of_isWordStart hc, hcs⟩

private theorem Token.isWord_of_mem {c : Cursor} {t : Token} (ht : t ∈ c.tokens)
    (hk : t.kind = .identifier) : IsWord t.lexeme := by
  rcases c.read_of_mem_tokens t ht with heof | ⟨cs, rest, hread⟩
  · simp [hk] at heof
  · rw [hk] at hread
    exact ⟨Lexeme.ne_nil_of_read hread, Lexeme.isWordChar_of_read hread⟩

/-- Every name is itself, and a word. -/
def Matching.words : Matching where
  lines := True
  Name a b := a = b ∧ IsWord a.name
  name_eq h := by rw [h.1]
  line_eq h _ := by rw [h.1]
  span_eq_iff h h' := by rw [h.1, h'.1]

/-- The functions of a text have words for names. -/
theorem Program.isWord_functions {source : String} {tabWidth : Nat} {p : Program}
    (h : Program.parse source tabWidth = .ok p) : ∀ f ∈ p.functions, IsWord f.name.name := by
  obtain ⟨ts, e, htokens, he⟩ := Program.tokens_of_parse h
  -- The text is read beside itself, and what the matching says of names holds of all of them.
  have halike : List.Forall₂ (TokenAlike .words) (Lexer.ofString source tabWidth).tokens
      (Lexer.ofString source tabWidth).tokens :=
    List.forall₂_same.mpr fun t ht =>
      ⟨rfl, rfl, fun _ => rfl, fun hk => ⟨rfl, Token.isWord_of_mem ht hk⟩⟩
  have hparse := Program.parse_alike htokens he halike
  rw [h] at hparse
  cases hparse with
  | ok hp =>
      have hfunctions := Codegen.functions_of_blockAlike hp
      rw [p.functions_eq]
      exact fun f hf => (List.forall₂_same.mp hfunctions f hf).name.2

/-! ### Names of sections

`mark` is what is put behind a name.  A word ends where the mark begins, so a name with its
mark can be taken apart again (`append_mark_inj`), and it is enough that the pair of name
and count is new.  `used` has the count of each name so far.
-/

namespace Codegen

/-- What tells functions of one name apart; the first one needs nothing. -/
def mark (count : Nat) : String := if count = 1 then "" else "#" ++ toString count

private theorem takeWhile_mark (count : Nat) :
    (mark count).toList.takeWhile Lexeme.isWordChar = [] := by
  unfold mark
  split
  · rfl
  · rw [String.toList_append]
    exact List.takeWhile_cons_of_neg (by decide)

private theorem mark_inj {count count' : Nat} (h : mark count = mark count') : count = count' := by
  have hne : ∀ n : Nat, "" ≠ "#" ++ toString n := by
    intro n heq
    have hlist := congrArg String.toList heq
    simp [String.toList_append] at hlist
  unfold mark at h
  split at h <;> split at h
  · rename_i hone hone'
    rw [hone, hone']
  · exact absurd h (hne _)
  · exact absurd h.symm (hne _)
  · exact Nat.repr_injective ((String.append_right_inj "#").mp h)

/-- Neither the name nor the number is lost. -/
theorem append_mark_inj {name name' : String} {count count' : Nat} (hname : IsWord name)
    (hname' : IsWord name') (h : name ++ mark count = name' ++ mark count') :
    name = name' ∧ count = count' := by
  have hword : name = name' := by
    have hlist := congrArg (fun s => s.toList.takeWhile Lexeme.isWordChar) h
    simp only [String.toList_append, List.takeWhile_append_of_pos hname.2,
      List.takeWhile_append_of_pos hname'.2, takeWhile_mark, List.append_nil] at hlist
    exact String.toList_inj.mp hlist
  subst hword
  exact ⟨rfl, mark_inj ((String.append_right_inj name).mp h)⟩

private theorem sectionNamesFrom_cons (done : List String) (used : Std.TreeMap String Nat)
    (name : String) (rest : List String) :
    sectionNamesFrom done used (name :: rest) =
      sectionNamesFrom ((name ++ mark ((used[name]?).getD 0 + 1)) :: done)
        (used.insert name ((used[name]?).getD 0 + 1)) rest := by
  have hmark : ∀ count : Nat, (if count = 1 then name else name ++ "#" ++ toString count) =
      name ++ mark count := by
    intro count
    unfold mark
    split
    · rw [String.append_empty]
    · rw [String.append_assoc]
  rw [sectionNamesFrom, hmark]

private theorem sectionNamesFrom_eq (names : List String) :
    ∀ (done : List String) (used : Std.TreeMap String Nat),
      sectionNamesFrom done used names = done.reverse ++ sectionNamesFrom [] used names := by
  induction names with
  | nil => intro done used; simp [sectionNamesFrom]
  | cons name rest ih =>
      intro done used
      rw [sectionNamesFrom_cons, sectionNamesFrom_cons, ih, ih [_]]
      simp

/-- Every name that is given is new: its number is beyond those that were used before. -/
theorem sectionNamesFrom_fresh (names : List String) (hnames : ∀ name ∈ names, IsWord name) :
    ∀ used : Std.TreeMap String Nat, (sectionNamesFrom [] used names).Nodup ∧
      ∀ s ∈ sectionNamesFrom [] used names, ∃ name count, IsWord name ∧
        (used[name]?).getD 0 < count ∧ s = name ++ mark count := by
  induction names with
  | nil => intro used; simp [sectionNamesFrom]
  | cons name rest ih =>
      intro used
      have hname := hnames name List.mem_cons_self
      obtain ⟨hnodup, hlater⟩ := ih (fun n hn => hnames n (List.mem_cons_of_mem _ hn))
        (used.insert name ((used[name]?).getD 0 + 1))
      rw [sectionNamesFrom_cons, sectionNamesFrom_eq]
      refine ⟨List.nodup_cons.mpr ⟨?_, hnodup⟩, ?_⟩
      · -- This number now counts as used, so a later function of the name has a greater one.
        intro hmem
        obtain ⟨name', count, hname', hcount, heq⟩ := hlater _ hmem
        obtain ⟨rfl, rfl⟩ := append_mark_inj hname hname' heq
        simp at hcount
      · intro s hs
        rcases List.mem_cons.mp hs with rfl | hs
        · exact ⟨name, _, hname, Nat.lt_succ_self _, rfl⟩
        · obtain ⟨name', count, hname', hcount, rfl⟩ := hlater s hs
          refine ⟨name', count, hname', ?_, rfl⟩
          rw [Std.TreeMap.getElem?_insert] at hcount
          split at hcount
          · rename_i hsame
            obtain rfl := Std.compare_eq_iff_eq.mp hsame
            simp only [Option.getD_some] at hcount
            omega
          · exact hcount

private theorem isWord_entryName : IsWord Section.entryName :=
  ⟨by decide, List.all_eq_true.mp (by decide)⟩

/-- **Sections with code have different names, and a word character comes first in each.** -/
theorem entryName_cons_sectionNames {fs : List Func} (h : ∀ f ∈ fs, IsWord f.name.name) :
    (Section.entryName :: sectionNames fs).Nodup ∧
      ∀ s ∈ Section.entryName :: sectionNames fs, ∃ name rest, IsWord name ∧ s = name ++ rest := by
  have hnames : ∀ name ∈ fs.map (·.name.name), IsWord name := by
    intro name hname
    obtain ⟨f, hf, rfl⟩ := List.mem_map.mp hname
    exact h f hf
  obtain ⟨hnodup, hfresh⟩ := sectionNamesFrom_fresh _ hnames
    ((∅ : Std.TreeMap String Nat).insert Section.entryName 1)
  refine ⟨List.nodup_cons.mpr ⟨?_, hnodup⟩, ?_⟩
  · -- `main` counts as used once from the start.
    intro hmem
    obtain ⟨name, count, hname, hcount, heq⟩ := hfresh _ hmem
    have hfirst : Section.entryName ++ mark 1 = name ++ mark count := heq
    obtain ⟨rfl, rfl⟩ := append_mark_inj isWord_entryName hname hfirst
    simp at hcount
  · intro s hs
    rcases List.mem_cons.mp hs with rfl | hs
    · exact ⟨_, "", isWord_entryName, rfl⟩
    · obtain ⟨name, count, hname, -, rfl⟩ := hfresh s hs
      exact ⟨name, _, hname, rfl⟩

/-! ### Lengths that fit

The names of code sections are those that `numberSections` has measured, with `main` in
front.  With line tables the limit leaves room for what `linesName` adds.
-/

section Lengths

variable {o : CompileOptions} {r : Resolutions} {p : Program} {code : List CodeSection}

private theorem utf8ByteSize_of_numberSections :
    ∀ {named : List (Func × String)} {index : Nat} {sections table : Std.TreeMap Nat UInt16},
      numberSections o r sections index named = .ok table →
      ∀ x ∈ named, x.2.utf8ByteSize ≤ maxNameBytes o
  | [], _, _, _, _ => by simp
  | (f, name) :: rest, index, sections, table, h => by
      simp only [numberSections] at h
      split at h
      · simp at h
      · rename_i hlong
        split at h
        · simp at h
        · intro x hx
          rcases List.mem_cons.mp hx with rfl | hx
          · exact Nat.le_of_not_lt hlong
          · exact utf8ByteSize_of_numberSections h x hx

/-- The first section is the entry, and each of the others has the name of its function. -/
theorem map_name_of_codeSections (h : codeSections o r p = .ok code) :
    code.map (·.name) = Section.entryName :: sectionNames p.functions := by
  simp only [codeSections] at h
  split at h
  · simp at h
  · simp only [except_bind_eq_ok, except_pure_eq_ok] at h
    obtain ⟨table, -, main, -, rest, hrest, rfl⟩ := h
    have hnames : List.Forall₂ (fun x s => x.2 = s.name)
        (p.functions.zip (sectionNames p.functions)) rest := by
      refine (forall₂_of_mapM hrest).imp ?_
      rintro ⟨f, name⟩ s hs
      simp only [functionSection, except_bind_eq_ok, except_pure_eq_ok] at hs
      obtain ⟨chunk, -, rfl⟩ := hs
      rfl
    rw [List.map_cons, ← map_snd_zip_sectionNames]
    refine congrArg _ ?_
    rw [← List.forall₂_eq_eq_eq, List.forall₂_map_left_iff, List.forall₂_map_right_iff]
    exact (List.Forall₂.flip hnames).imp fun _ _ hname => hname.symm

theorem utf8ByteSize_le_of_codeSections (h : codeSections o r p = .ok code) :
    ∀ s ∈ code, s.name.utf8ByteSize ≤ maxNameBytes o := by
  obtain ⟨-, table, htable, -⟩ := codeSections_eq_ok h
  intro s hs
  have hmem : s.name ∈ Section.entryName :: sectionNames p.functions := by
    rw [← map_name_of_codeSections h]
    exact List.mem_map_of_mem hs
  rcases List.mem_cons.mp hmem with hmain | hmem
  · rw [hmain]
    unfold maxNameBytes
    split <;> decide
  · rw [← map_snd_zip_sectionNames] at hmem
    obtain ⟨x, hx, hname⟩ := List.mem_map.mp hmem
    rw [← hname]
    exact utf8ByteSize_of_numberSections htable x hx

end Lengths

end Codegen

/-! ### Names in an image

Three groups of names, apart by their first characters: a word character for code, a dot for
storage and tables.  Among the tables, names differ as those of the code do.
-/

/-- No section with code has a name with a dot in front. -/
theorem ne_of_dot {s t : String} (hs : ∃ name rest, IsWord name ∧ s = name ++ rest)
    (ht : t.toList.head? = some '.') : s ≠ t := by
  rintro rfl
  obtain ⟨name, rest, ⟨hne, hword⟩, rfl⟩ := hs
  obtain ⟨c, cs, hname⟩ := List.exists_cons_of_ne_nil hne
  rw [String.toList_append, hname] at ht
  obtain rfl := Option.some.inj ht
  exact absurd (hword '.' (by rw [hname]; exact List.mem_cons_self)) (by decide)

private theorem Section.linesName_injective : Function.Injective linesName :=
  fun _ _ h => (String.append_right_inj ".lines.").mp h

private theorem Section.head?_linesName (name : String) :
    (linesName name).toList.head? = some '.' := by
  rw [linesName, String.toList_append]
  rfl

private theorem Section.dataName_ne_linesName (name : String) : dataName ≠ linesName name := by
  intro h
  have hlist := congrArg String.toList h
  rw [linesName, String.toList_append] at hlist
  simp [dataName] at hlist

/-- Storage and line tables take no name of a section with code, and none twice. -/
theorem nodup_names {names data lines : List String} (hnodup : names.Nodup)
    (hword : ∀ s ∈ names, ∃ name rest, IsWord name ∧ s = name ++ rest)
    (hdata : data.Sublist [Section.dataName])
    (hlines : lines.Sublist (names.map Section.linesName)) : (names ++ data ++ lines).Nodup := by
  have hall : (names ++ [Section.dataName] ++ names.map Section.linesName).Nodup := by
    rw [List.nodup_append, List.nodup_append]
    refine ⟨⟨hnodup, List.nodup_singleton _, ?_⟩, hnodup.map Section.linesName_injective, ?_⟩
    · intro s hs t ht
      obtain rfl := List.mem_singleton.mp ht
      exact ne_of_dot (hword s hs) rfl
    · intro s hs t ht
      obtain ⟨name, -, rfl⟩ := List.mem_map.mp ht
      rcases List.mem_append.mp hs with hs | hs
      · exact ne_of_dot (hword s hs) (Section.head?_linesName name)
      · obtain rfl := List.mem_singleton.mp hs
        exact Section.dataName_ne_linesName name
  exact hall.sublist (((List.Sublist.refl names).append hdata).append hlines)

/-! ### Images

`package` builds the image, and `LaidOut` repeats what it should look like without the
functions that build it.  Counting sections before any code is written and counting them in
the image comes to the same, so the limit on their number holds of the image.
-/

/-- An image with code, storage for variables if there are any, and line tables if asked for. -/
structure Image.LaidOut (o : CompileOptions) (slots : Nat) (code : List CodeSection)
    (image : Image) : Prop where
  main : code.head?.map (·.name) = some "main"
  sections : image.sections =
    code.map (fun s => ⟨.code, s.name, s.chunk.code.toList⟩) ++
    (if 0 < slots then [⟨.data, ".data", List.replicate (8 * slots) 0⟩] else []) ++
    (if o.debugLines then
      code.map fun s => ⟨.debug, ".lines." ++ s.name, Section.encodeLines s.chunk.lineTable⟩
    else [])
  distinct : (image.sections.map (·.name)).Nodup
  count : image.header.sectionCount.toNat = image.sections.length
  limit : image.sections.length ≤ o.maxSections.toNat
  flag : image.header.hasDebugLines = true ↔ ∃ s ∈ image.sections, s.kind = .debug

namespace Codegen

variable {o : CompileOptions} {slots : Nat} {code : List CodeSection}

theorem package_sections (o : CompileOptions) (slots : Nat) (code : List CodeSection) :
    (package o slots code).sections =
      code.map (fun s => Section.code s.name s.chunk.code.toList) ++
      (if 0 < slots then [Section.storage slots] else []) ++
      (if o.debugLines then code.map fun s => Section.lines s.name s.chunk.lineTable else []) := by
  cases slots <;> rfl

/-- An image has as many sections as were counted before any code was written. -/
theorem length_package_sections {functions : Nat} (h : code.length = functions + 1) :
    (package o slots code).sections.length = sectionCount o functions slots := by
  rw [package_sections, sectionCount, ← h]
  cases slots <;> cases o.debugLines <;> simp [Nat.add_comm]

/-- Different names for the code are different names for all sections. -/
theorem nodup_package (hnodup : (code.map (·.name)).Nodup)
    (hword : ∀ s ∈ code.map (·.name), ∃ name rest, IsWord name ∧ s = name ++ rest) :
    ((package o slots code).sections.map (·.name)).Nodup := by
  rw [package_sections, List.map_append, List.map_append, List.map_map]
  refine nodup_names hnodup hword ?_ ?_
  · split
    · exact List.Sublist.refl _
    · exact List.nil_sublist _
  · split
    · rw [List.map_map, List.map_map]
      exact List.Sublist.refl _
    · exact List.nil_sublist _

private theorem exists_debug_iff (hne : code ≠ []) :
    (∃ s ∈ (package o slots code).sections, s.kind = .debug) ↔ o.debugLines = true := by
  rw [package_sections]
  constructor
  · rintro ⟨s, hs, hkind⟩
    rcases List.mem_append.mp hs with hs | hs
    · rcases List.mem_append.mp hs with hs | hs
      · obtain ⟨c, -, rfl⟩ := List.mem_map.mp hs
        simp [Section.code] at hkind
      · split at hs
        · obtain rfl := List.mem_singleton.mp hs
          simp [Section.storage] at hkind
        · simp at hs
    · split at hs
      · assumption
      · simp at hs
  · intro hdebug
    obtain ⟨c, rest, rfl⟩ := List.exists_cons_of_ne_nil hne
    refine ⟨Section.lines c.name c.chunk.lineTable, List.mem_append_right _ ?_, rfl⟩
    rw [if_pos hdebug]
    exact List.mem_cons_self

private theorem hasDebugLines_package :
    (package o slots code).header.hasDebugLines = true ↔ o.debugLines = true := by
  have hflags : (package o slots code).header.flags =
      if o.debugLines then Header.debugLinesFlag else 0 := rfl
  rw [Header.hasDebugLines, hflags]
  cases o.debugLines <;> decide

/-- The names of all sections fit if those of the code do. -/
theorem utf8ByteSize_package (h : ∀ s ∈ code, s.name.utf8ByteSize ≤ maxNameBytes o)
    (slots : Nat) : ∀ s ∈ (package o slots code).sections, s.name.utf8ByteSize ≤ 65535 := by
  rw [package_sections]
  intro s hs
  rcases List.mem_append.mp hs with hs | hs
  · rcases List.mem_append.mp hs with hs | hs
    · obtain ⟨c, hc, rfl⟩ := List.mem_map.mp hs
      refine (h c hc).trans ?_
      unfold maxNameBytes
      split
      · exact Nat.sub_le _ _
      · exact Nat.le_refl _
    · split at hs
      · obtain rfl := List.mem_singleton.mp hs
        show Section.dataName.utf8ByteSize ≤ 65535
        decide
      · simp at hs
  · split at hs
    · rename_i hdebug
      obtain ⟨c, hc, rfl⟩ := List.mem_map.mp hs
      have hle := h c hc
      rw [maxNameBytes, if_pos hdebug] at hle
      have hsize : (Section.linesName c.name).utf8ByteSize = 7 + c.name.utf8ByteSize := by
        rw [Section.linesName, String.utf8ByteSize_append]
        rfl
      have hprefix : (Section.linesName "").utf8ByteSize = 7 := by decide
      show (Section.linesName c.name).utf8ByteSize ≤ 65535
      omega
    · simp at hs

end Codegen

namespace Image

/-- An image whose lengths fit is written, and read back with the same sections. -/
theorem load_of_fits {image : Image} (hfits : image.Fits) (hne : image.sections ≠ []) :
    ∃ bytes, image.serialize Checksum.xxh64 = .ok bytes ∧
      Compiler.load bytes = .ok ⟨image.written Checksum.xxh64, image.sections⟩ := by
  refine ⟨_, serialize_eq_ok.mpr ⟨hfits, rfl⟩, ?_⟩
  exact except_mapError_eq_ok.mpr (deserialize_eq_ok.mpr ⟨[], [], spelledBy_written _ hfits hne⟩)

end Image

namespace Compiler

variable {o : CompileOptions} {source : String} {image : Image}

/-- What a compilation to an image went through. -/
theorem compile_eq_ok (h : compile o source = .ok image) :
    ∃ p r code, Compiles source o.tabWidth o p r code ∧
      image = Codegen.package o r.variableCount code := by
  obtain ⟨p, hparse, h⟩ := except_bind_eq_ok.mp h
  obtain ⟨r, hanalyze, h⟩ := except_bind_eq_ok.mp h
  obtain ⟨code, hcode, h⟩ := except_bind_eq_ok.mp (except_mapError_eq_ok.mp h)
  exact ⟨p, r, code, ⟨except_mapError_eq_ok.mp hparse, except_mapError_eq_ok.mp hanalyze, hcode⟩,
    (except_pure_eq_ok.mp h).symm⟩

/-- Every image that is compiled is laid out in order. -/
theorem laidOut_of_compiles {p : Program} {r : Resolutions} {code : List CodeSection}
    (h : Compiles source o.tabWidth o p r code) :
    (Codegen.package o r.variableCount code).LaidOut o r.variableCount code := by
  obtain ⟨hlimit, -⟩ := Codegen.codeSections_eq_ok h.generated
  have hlength := Codegen.length_of_codeSections h.generated
  have hnames := Codegen.map_name_of_codeSections h.generated
  have hcount : (Codegen.package o r.variableCount code).sections.length ≤ o.maxSections.toNat := by
    rw [Codegen.length_package_sections hlength]
    exact Codegen.sectionCount_le_of_limit? hlimit
  obtain ⟨hnodup, hword⟩ := Codegen.entryName_cons_sectionNames (Program.isWord_functions h.parsed)
  rw [← hnames] at hnodup hword
  refine ⟨?_, Codegen.package_sections .., Codegen.nodup_package hnodup hword, ?_, hcount, ?_⟩
  · rw [← List.head?_map, hnames]
    rfl
  · have hfits : (Codegen.package o r.variableCount code).sections.length < UInt32.size :=
      Nat.lt_of_le_of_lt hcount (Nat.lt_trans o.maxSections.toNat_lt (by decide))
    exact UInt32.toNat_ofNat_of_lt' hfits
  · rw [Codegen.hasDebugLines_package, Codegen.exists_debug_iff]
    rintro rfl
    simp at hlength

/--
**Every compiled image is well laid out, and can be saved and loaded.**  It has one section for
the top of the program and one for each function; with payloads that are not too long it is
written to bytes that are read back as the same sections, and `main` is where execution starts.
-/
theorem compile_laidOut_and_loads (h : compile o source = .ok image) :
    ∃ p r code, Compiles source o.tabWidth o p r code ∧
      code.length = p.functions.length + 1 ∧ image.LaidOut o r.variableCount code ∧
      ((∀ s ∈ image.sections, s.bytes.length ≤ 4294967295) →
        ∃ bytes again main, image.serialize Checksum.xxh64 = .ok bytes ∧ load bytes = .ok again ∧
          again.sections = image.sections ∧ image.sections.head? = some main ∧
          main.name = "main" ∧ again.entryCode? = some main) := by
  obtain ⟨p, r, code, hcompiles, rfl⟩ := compile_eq_ok h
  have hlaid := laidOut_of_compiles hcompiles
  refine ⟨p, r, code, hcompiles, Codegen.length_of_codeSections hcompiles.generated, hlaid, ?_⟩
  intro hpayloads
  have hnames := Codegen.utf8ByteSize_package
    (Codegen.utf8ByteSize_le_of_codeSections hcompiles.generated) r.variableCount
  have hfits : (Codegen.package o r.variableCount code).Fits :=
    ⟨fun s hs => ⟨hnames s hs, hpayloads s hs⟩,
      hlaid.limit.trans (Nat.le_of_lt (Nat.lt_trans o.maxSections.toNat_lt (by decide)))⟩
  obtain ⟨main, hmain, hname⟩ := Option.map_eq_some_iff.mp hlaid.main
  obtain ⟨rest, rfl⟩ := List.head?_eq_some_iff.mp hmain
  have hsections : ∃ more, (Codegen.package o r.variableCount (main :: rest)).sections =
      Section.code main.name main.chunk.code.toList :: more := ⟨_, Codegen.package_sections ..⟩
  obtain ⟨more, hsections⟩ := hsections
  obtain ⟨bytes, hbytes, hload⟩ := Image.load_of_fits hfits (by simp [hsections])
  refine ⟨bytes, _, _, hbytes, hload, rfl, by rw [hsections]; rfl, hname, ?_⟩
  simp [Image.entryCode?, hsections, Section.code]

/-- The countdown beside a function that is called `main`, and another `f` inside it. -/
def crowded : String := countdown ++ " func main { func f { } f(); }"

/-- The crowded program takes nine sections, no two of one name, and is read back. -/
theorem crowded_compile_laidOut_and_loads :
    ∃ image p r code, compile ⟨4, true, 9⟩ crowded = .ok image ∧
      image.sections.map (·.name) = ["main", "f", "main#2", "f#2", ".data", ".lines.main",
        ".lines.f", ".lines.main#2", ".lines.f#2"] ∧
      Compiles crowded 4 ⟨4, true, 9⟩ p r code ∧ code.length = p.functions.length + 1 ∧
      image.LaidOut ⟨4, true, 9⟩ r.variableCount code ∧
      ∃ bytes again main, image.serialize Checksum.xxh64 = .ok bytes ∧ load bytes = .ok again ∧
        again.sections = image.sections ∧ again.entryCode? = some main ∧ main.name = "main" := by
  have htest : ((compile ⟨4, true, 9⟩ crowded).toOption.any fun image =>
      decide (image.sections.map (·.name) = ["main", "f", "main#2", "f#2", ".data", ".lines.main",
        ".lines.f", ".lines.main#2", ".lines.f#2"]) &&
      image.sections.all fun s => decide (s.bytes.length ≤ 4294967295)) = true := by
    decide +kernel
  obtain ⟨image, himage, hboth⟩ := (Option.any_eq_true _ _).mp htest
  rw [Bool.and_eq_true, List.all_eq_true] at hboth
  have hcompile : compile ⟨4, true, 9⟩ crowded = .ok image := by
    generalize compile ⟨4, true, 9⟩ crowded = result at himage
    cases result with
    | ok found => exact congrArg Except.ok (Option.some.inj himage)
    | error e => simp [Except.toOption] at himage
  obtain ⟨p, r, code, hcode, hlength, hlaid, hloads⟩ := compile_laidOut_and_loads hcompile
  obtain ⟨bytes, again, main, hbytes, hload, hsections, -, hname, hentry⟩ :=
    hloads fun s hs => of_decide_eq_true (hboth.2 s hs)
  exact ⟨image, p, r, code, hcompile, of_decide_eq_true hboth.1, hcode, hlength, hlaid, bytes,
    again, main, hbytes, hload, hsections, hentry, hname⟩

end Compiler

end StackCode
