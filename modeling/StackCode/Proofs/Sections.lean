/-
The sections of a compiled program.

Section 0 is the code of the top of the program and ends by halting; section `k + 1` is the
code of function `k` and ends by returning (`Program.bodies`).  Calls name sections by
number, so the numbering has to send the symbol of every function to the section that holds
its code.  `Linked` says so of a list of codes, and every compilation that succeeds gives
one (`linked_of_codeSections`).

`Compiles` is what the results about whole programs start from: a source text that was read,
analysed and put into code.
-/
import StackCode.Proofs.Lowering
import StackCode.Proofs.Symbols

namespace StackCode

open Instruction Sequencing

/-! ### Bodies

A block with its way out is all that a section is made from.  `SectionCode` says what code
it may have, in the terms of `BlockCode`.
-/

/-- The blocks that get a section of their own, each with the instruction that leaves it. -/
def Program.bodies (p : Program) : List (Opcode × Block) :=
  (.halt, p.block) :: p.functions.map fun f => (.ret, f.body)

namespace Program

variable {p : Program} {b : Opcode × Block}

/-- A section is left by halting or by returning. -/
theorem exit_of_mem_bodies (h : b ∈ p.bodies) : b.1 = .halt ∨ b.1 = .ret := by
  rcases List.mem_cons.mp h with rfl | h
  · exact .inl rfl
  · obtain ⟨f, -, rfl⟩ := List.mem_map.mp h
    exact .inr rfl

/-- Only the first section halts. -/
theorem exit_of_getElem?_bodies {k : Nat} (h : p.bodies[k]? = some b) :
    b.1 = if k = 0 then .halt else .ret := by
  cases k with
  | zero =>
      obtain rfl := Option.some.inj h
      rfl
  | succ k =>
      have h' : (p.functions.map fun f => (Opcode.ret, f.body))[k]? = some b := h
      rw [List.getElem?_map] at h'
      obtain ⟨f, -, rfl⟩ := Option.map_eq_some_iff.mp h'
      rfl

theorem Resolved.typed_of_mem_bodies {r : Resolutions} (hr : p.Resolved r) (h : b ∈ p.bodies) :
    b.2.Typed r := by
  rcases List.mem_cons.mp h with rfl | h
  · exact hr.typed
  · obtain ⟨f, hf, rfl⟩ := List.mem_map.mp h
    rw [functions_eq] at hf
    exact hr.typed.functions f hf

end Program

/-- The code of a section: its block, then the way out. -/
def SectionCode (r : Resolutions) (table : Std.TreeMap Nat UInt16) (b : Opcode × Block)
    (c : Code) : Prop :=
  ∃ body, BlockCode ⟨r, table, b.1⟩ b.2 body ∧ c = body ++ [make b.1 0]

/-- The codes of a program's sections, with a table of where functions are. -/
structure Linked (p : Program) (r : Resolutions) (table : Std.TreeMap Nat UInt16)
    (codes : List Code) : Prop where
  /-- A symbol in the table is a function, and its section comes after the first one. -/
  numbered : ∀ {decl : Nat} {index : UInt16}, table[decl]? = some index →
    ∃ k f, p.functions[k]? = some f ∧ r.declaration? f.name = some decl ∧ index.toNat = k + 1
  /-- Every section has the code of its block. -/
  code : List.Forall₂ (SectionCode r table) p.bodies codes

namespace Linked

variable {p : Program} {r : Resolutions} {table : Std.TreeMap Nat UInt16} {codes : List Code}

theorem code_at (h : Linked p r table codes) {k : Nat} {b : Opcode × Block}
    (hb : p.bodies[k]? = some b) : ∃ c, codes[k]? = some c ∧ SectionCode r table b c := by
  obtain ⟨hk, rfl⟩ := List.getElem?_eq_some_iff.mp hb
  have hk' : k < codes.length := by
    rw [← h.code.length_eq]
    exact hk
  exact ⟨codes[k], List.getElem?_eq_getElem hk', h.code.get hk hk'⟩

/-- The section that a call names is the one of the function that the name resolves to. -/
theorem function_of_sectionOf (h : Linked p r table codes) {exit : Opcode} {name : Ident}
    {index : UInt16} (hindex : CodeContext.sectionOf ⟨r, table, exit⟩ name = .ok index) :
    ∃ decl k f, r.resolve? name = some decl ∧ p.functions[k]? = some f ∧
      r.declaration? f.name = some decl ∧ index.toNat = k + 1 := by
  simp only [CodeContext.sectionOf] at hindex
  split at hindex
  · rename_i index' hfound
    simp only [Except.ok.injEq] at hindex
    subst hindex
    obtain ⟨decl, hdecl, htable⟩ := Option.bind_eq_some_iff.mp hfound
    obtain ⟨k, f, hf, hname, hk⟩ := h.numbered htable
    exact ⟨decl, k, f, hdecl, hf, hname, hk⟩
  · simp at hindex

end Linked

namespace Codegen

variable {o : CompileOptions} {r : Resolutions} {p : Program}

/-! ### Numbering

`numberSections` goes through the functions and gives each symbol the next number.  The
numbers are 16 bits wide, so whether they are still in order in the end depends on how many
functions there are.
-/

/-- Whatever is in the table was there before or is the number of a function. -/
theorem numberSections_numbered :
    ∀ {named : List (Func × String)} {start : Nat} {sections table : Std.TreeMap Nat UInt16},
      numberSections o r sections start named = .ok table →
      ∀ {decl : Nat} {index : UInt16}, table[decl]? = some index →
        sections[decl]? = some index ∨
          ∃ k f, (named.map (·.1))[k]? = some f ∧ r.declaration? f.name = some decl ∧
            index = UInt16.ofNat (start + k)
  | [], start, sections, table, h, decl, index, hindex => by
      simp only [numberSections, Except.ok.injEq] at h
      subst h
      exact .inl hindex
  | (f, name) :: rest, start, sections, table, h, decl, index, hindex => by
      simp only [numberSections] at h
      split at h
      · simp at h
      · split at h
        · simp at h
        · rename_i decl' hdecl
          rcases numberSections_numbered h hindex with hold | ⟨k, f', hf', hdecl', rfl⟩
          · rw [Std.TreeMap.getElem?_insert] at hold
            split at hold
            · rename_i heq
              obtain rfl := Std.compare_eq_iff_eq.mp heq
              exact .inr ⟨0, f, rfl, hdecl, (Option.some.inj hold).symm⟩
            · exact .inl hold
          · refine .inr ⟨k + 1, f', by simpa using hf', hdecl', ?_⟩
            rw [Nat.add_assoc, Nat.add_comm 1 k]

private theorem sectionNamesFrom_length :
    ∀ (names done : List String) (used : Std.TreeMap String Nat),
      (sectionNamesFrom done used names).length = done.length + names.length
  | [], done, used => by simp [sectionNamesFrom]
  | name :: rest, done, used => by
      rw [sectionNamesFrom, sectionNamesFrom_length rest]
      simp only [List.length_cons]
      omega

/-- Every function gets a name. -/
theorem length_sectionNames (fs : List Func) : (sectionNames fs).length = fs.length := by
  rw [sectionNames, sectionNamesFrom_length]
  simp

theorem map_fst_zip_sectionNames (fs : List Func) : (fs.zip (sectionNames fs)).map (·.1) = fs :=
  List.map_fst_zip (length_sectionNames fs).ge

theorem map_snd_zip_sectionNames (fs : List Func) :
    (fs.zip (sectionNames fs)).map (·.2) = sectionNames fs :=
  List.map_snd_zip (length_sectionNames fs).le

/-! ### Sections

`codeSections` checks the limits, numbers the functions, and then translates body by body.
The limits are what keeps the numbers in order: there are fewer functions than 16 bits can
number (`length_lt_of_limit?`).
-/

theorem forall₂_of_mapM {α β ε : Type} {f : α → Except ε β} :
    ∀ {xs : List α} {ys : List β}, xs.mapM f = .ok ys →
      List.Forall₂ (fun x y => f x = .ok y) xs ys
  | [], ys, h => by
      rw [List.mapM_nil, except_pure_eq_ok] at h
      subst h
      exact .nil
  | x :: xs, ys, h => by
      rw [List.mapM_cons] at h
      simp only [except_bind_eq_ok, except_pure_eq_ok] at h
      obtain ⟨y, hy, ys', hys, rfl⟩ := h
      exact .cons hy (forall₂_of_mapM hys)

/-- What a compilation that succeeded went through. -/
theorem codeSections_eq_ok {sections : List CodeSection} (h : codeSections o r p = .ok sections) :
    limit? o r p p.functions.length = none ∧
      ∃ table, numberSections o r ∅ 1 (p.functions.zip (sectionNames p.functions)) = .ok table ∧
        List.Forall₂ (fun b s => sectionCode ⟨r, table, b.1⟩ b.2 = .ok s.chunk) p.bodies
          sections := by
  simp only [codeSections] at h
  split at h
  · simp at h
  · rename_i hlimit
    simp only [except_bind_eq_ok, except_pure_eq_ok] at h
    obtain ⟨table, htable, main, hmain, rest, hrest, rfl⟩ := h
    refine ⟨hlimit, table, htable, .cons hmain ?_⟩
    have hfunctions := map_fst_zip_sectionNames p.functions
    have hall := forall₂_of_mapM hrest
    rw [← hfunctions, List.forall₂_map_left_iff, List.forall₂_map_left_iff]
    refine hall.imp ?_
    rintro ⟨f, name⟩ s hs
    simp only [functionSection, except_bind_eq_ok, except_pure_eq_ok] at hs
    obtain ⟨chunk, hchunk, rfl⟩ := hs
    exact hchunk

theorem length_of_codeSections {sections : List CodeSection}
    (h : codeSections o r p = .ok sections) : sections.length = p.functions.length + 1 := by
  obtain ⟨-, table, -, hall⟩ := codeSections_eq_ok h
  rw [← hall.length_eq, Program.bodies, List.length_cons, List.length_map]

theorem sectionCount_le_of_limit? {functions : Nat} (h : limit? o r p functions = none) :
    sectionCount o functions r.variableCount ≤ o.maxSections.toNat := by
  simp only [limit?] at h
  split at h
  · simp at h
  · split at h
    · simp at h
    · rename_i hcount
      exact Nat.le_of_not_lt hcount

/-- There are fewer functions than a call can number. -/
theorem length_lt_of_limit? (h : limit? o r p p.functions.length = none) :
    p.functions.length < 65535 := by
  have hmax := o.maxSections.toNat_lt
  have hcount := sectionCount_le_of_limit? h
  simp only [sectionCount] at hcount
  omega

/-- Sections that were written have the codes of their blocks. -/
theorem codes_of_sections {table : Std.TreeMap Nat UInt16} {bodies : List (Opcode × Block)}
    {sections : List CodeSection} (hexits : ∀ b ∈ bodies, b.1.operandSize = 0)
    (h : List.Forall₂ (fun b s => sectionCode ⟨r, table, b.1⟩ b.2 = .ok s.chunk) bodies sections) :
    ∃ codes : List Code, List.Forall₂ (SectionCode r table) bodies codes ∧
      sections.map (·.chunk.code.toList) = codes.map Code.bytes := by
  induction h with
  | nil => exact ⟨[], .nil, rfl⟩
  | cons hsection _ ih =>
      obtain ⟨codes, hcodes, hbytes⟩ := ih fun b hb => hexits b (List.mem_cons_of_mem _ hb)
      obtain ⟨c, hc, hcode⟩ := sectionCode_eq_ok (hexits _ List.mem_cons_self) hsection
      exact ⟨_ :: codes, .cons ⟨c, hc, rfl⟩ hcodes, by simp [hcode, hbytes]⟩

/-- **A compilation that succeeds links its sections.** -/
theorem linked_of_codeSections {sections : List CodeSection}
    (h : codeSections o r p = .ok sections) :
    ∃ table codes, Linked p r table codes ∧
      sections.map (·.chunk.code.toList) = codes.map Code.bytes := by
  obtain ⟨hlimit, table, htable, hall⟩ := codeSections_eq_ok h
  have hlen := length_lt_of_limit? hlimit
  have hnumbered : ∀ {decl : Nat} {index : UInt16}, table[decl]? = some index →
      ∃ k f, p.functions[k]? = some f ∧ r.declaration? f.name = some decl ∧
        index.toNat = k + 1 := by
    intro decl index hindex
    rcases numberSections_numbered htable hindex with hold | ⟨k, f, hf, hdecl, rfl⟩
    · simp at hold
    · rw [map_fst_zip_sectionNames] at hf
      obtain ⟨hk, -⟩ := List.getElem?_eq_some_iff.mp hf
      refine ⟨k, f, hf, hdecl, ?_⟩
      rw [UInt16.toNat_ofNat', Nat.mod_eq_of_lt (by omega), Nat.add_comm]
  have hexits : ∀ b ∈ p.bodies, b.1.operandSize = 0 := by
    simp [Program.bodies, Opcode.operandSize]
  obtain ⟨codes, hcodes, hbytes⟩ := codes_of_sections hexits hall
  exact ⟨table, codes, ⟨hnumbered, hcodes⟩, hbytes⟩

end Codegen

/-! ### Compilations

`section_at` is how the results about single sections start.  `passes` runs all phases, so
that a text can be shown to compile by computing.
-/

/-- A source text that is read, analysed and put into code. -/
structure Compiles (source : String) (tabWidth : Nat) (o : CompileOptions) (p : Program)
    (r : Resolutions) (sections : List CodeSection) : Prop where
  parsed : Program.parse source tabWidth = .ok p
  analyzed : p.analyze = .ok r
  generated : Codegen.codeSections o r p = .ok sections

namespace Compiles

variable {source : String} {tabWidth : Nat} {o : CompileOptions}

theorem resolved {p : Program} {r : Resolutions} {sections : List CodeSection}
    (h : Compiles source tabWidth o p r sections) : p.Resolved r :=
  Program.resolved_of_analyze (Program.wellNamed_of_parse h.parsed) h.analyzed

/-- What is known of a section that was written. -/
theorem section_at {p : Program} {r : Resolutions} {sections : List CodeSection}
    (h : Compiles source tabWidth o p r sections) {k : Nat} {s : CodeSection}
    (hs : sections[k]? = some s) :
    ∃ table codes b body, Linked p r table codes ∧ p.bodies[k]? = some b ∧
      BlockCode ⟨r, table, b.1⟩ b.2 body ∧
      s.chunk.code.toList = Code.bytes (body ++ [make b.1 0]) := by
  obtain ⟨table, codes, hl, hbytes⟩ := Codegen.linked_of_codeSections h.generated
  have hk : (codes.map Code.bytes)[k]? = some s.chunk.code.toList := by
    rw [← hbytes, List.getElem?_map, hs]
    rfl
  rw [List.getElem?_map] at hk
  obtain ⟨c, hc, hcode⟩ := Option.map_eq_some_iff.mp hk
  obtain ⟨hlt, -⟩ := List.getElem?_eq_some_iff.mp hc
  have hlt' : k < p.bodies.length := by
    rw [hl.code.length_eq]
    exact hlt
  obtain ⟨c', hc', body, hbody, rfl⟩ := hl.code_at (List.getElem?_eq_getElem hlt')
  rw [hc] at hc'
  obtain rfl := Option.some.inj hc'
  exact ⟨table, codes, p.bodies[k], body, hl, List.getElem?_eq_getElem hlt', hbody, hcode.symm⟩

/-- Does the source text compile, to something that passes a test? -/
def passes (source : String) (tabWidth : Nat) (o : CompileOptions)
    (test : Program → Resolutions → List CodeSection → Bool) : Bool :=
  match Program.parse source tabWidth with
  | .error _ => false
  | .ok p =>
    match p.analyze with
    | .error _ => false
    | .ok r =>
      match Codegen.codeSections o r p with
      | .error _ => false
      | .ok sections => test p r sections

theorem of_passes {test : Program → Resolutions → List CodeSection → Bool}
    (h : passes source tabWidth o test = true) :
    ∃ p r sections, Compiles source tabWidth o p r sections ∧ test p r sections = true := by
  unfold passes at h
  split at h
  · simp at h
  · rename_i p hp
    split at h
    · simp at h
    · rename_i r hr
      split at h
      · simp at h
      · rename_i sections hsections
        exact ⟨p, r, sections, ⟨hp, hr, hsections⟩, h⟩

end Compiles

/-- A loop calls a function that counts down, prints, and returns early once. -/
def countdown : String :=
  "var n = 3; func f { n -= 1; if n == 1 { return 7; } dbg(n); } while n > 0 { f(); }"

end StackCode
