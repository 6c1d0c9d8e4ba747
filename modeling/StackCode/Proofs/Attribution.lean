/-
Lines of code.

Every byte of a section is attributed to a line of the text.  A statement sets the line
before it writes anything, and whatever it writes stays on the line that was set last, so
all lines in the code of a block are lines where one of its nodes starts.  `Emitter.OnLine`
is what an instruction keeps and `Emitter.LinesIn` what a whole statement keeps;
`Codegen.StaysIn` is the latter as a property of steps, and it is taken along the walk as a
`Claim` (`staying`).

This includes the way out of a section, as long as there is a statement before it.  A block
without statements sets no line at all: its section is the way out alone, on the line that
every section starts with, and that is the first line of the text (`lines_of_empty`).  So the
code of a function stays on the lines of the function, unless its body is empty and it
starts further down.
-/
import StackCode.Proofs.Locations
import StackCode.Proofs.Sections

namespace StackCode

open Sequencing

/-! ### Instructions stay on their line

Every method of `Emitter` ends in `writeBytes` with the line that is set, or in
`setDistance`, which writes over bytes that have their line already.  So `OnLine` has one
lemma for each of them and nothing else needs to know how lines are stored.  Only `setLine`
is not among them: it is what `LinesIn.setLine` is for, and there the new line has to be
shown to be a good one.
-/

namespace Chunk

private theorem mem_lines_writeBytes {line l : UInt32} (bs : List UInt8) :
    ∀ {c : Chunk}, l ∈ (c.writeBytes bs line).lines → l ∈ c.lines ∨ l = line := by
  induction bs with
  | nil => exact fun h => .inl h
  | cons b bs ih =>
      intro c h
      rcases ih (c := c.writeByte b line) h with h | h
      · exact Array.mem_push.mp h
      · exact .inr h

end Chunk

namespace Emitter

/-- What was written since then is on the line that was set. -/
structure OnLine (s t : Emitter) : Prop where
  line : t.line = s.line
  written : ∀ l ∈ t.chunk.lines, l ∈ s.chunk.lines ∨ l = s.line

namespace OnLine

variable {s t u : Emitter}

theorem trans (h : OnLine s t) (h' : OnLine t u) : OnLine s u := by
  refine ⟨h'.line.trans h.line, fun l hl => ?_⟩
  rcases h'.written l hl with hl | rfl
  · exact h.written l hl
  · exact .inr h.line

theorem bytes (bs : List UInt8) : OnLine s { s with chunk := s.chunk.writeBytes bs s.line } :=
  ⟨rfl, fun _ => Chunk.mem_lines_writeBytes bs⟩

theorem byte (b : UInt8) : OnLine s (s.byte b) := bytes [b]

theorem op (op : Opcode) : OnLine s (s.op op) := bytes [op.toByte]

theorem opByte (o : Opcode) (b : UInt8) : OnLine s (s.opByte o b) := (op o).trans (byte b)

theorem opU16 (o : Opcode) (n : UInt16) : OnLine s (s.opU16 o n) :=
  (op o).trans (bytes (s := s.op o) _)

theorem int (n : UInt64) : OnLine s (s.int n) := by
  unfold Emitter.int
  split
  · exact op _
  · split
    · exact op _
    · exact (op _).trans (bytes (s := s.op .pushInt) _)

theorem xchg (a b : Register) : OnLine s (s.xchg a b) := ((op _).trans (byte _)).trans (byte _)

theorem jump (op : Opcode) : OnLine s (s.jump op).1 := opU16 op 0xFFFF

/-- Filling in a jump moves no line. -/
theorem setDistance (offset distance : Nat) :
    OnLine s { s with chunk := s.chunk.setDistance offset distance } :=
  ⟨rfl, fun _ hl => .inl hl⟩

end OnLine

/-- All lines so far satisfy `P`, also the one that was set last. -/
structure LinesIn (P : UInt32 → Prop) (e : Emitter) : Prop where
  written : ∀ l ∈ e.chunk.lines, P l
  current : P e.line

namespace LinesIn

variable {P : UInt32 → Prop} {s t : Emitter}

private theorem onLine (h : s.LinesIn P) (hst : OnLine s t) : t.LinesIn P := by
  refine ⟨fun l hl => ?_, hst.line ▸ h.current⟩
  rcases hst.written l hl with hl | rfl
  · exact h.written l hl
  · exact h.current

theorem setLine (h : s.LinesIn P) {line : Nat} (hline : P (UInt32.ofNat line)) :
    (s.setLine line).LinesIn P := ⟨h.written, hline⟩

/-- Before anything is written, only the line that is set counts. -/
theorem start_setLine {line : Nat} (hline : P (UInt32.ofNat line)) :
    (start.setLine line).LinesIn P :=
  ⟨by simp [Emitter.setLine, start, Chunk.empty], hline⟩

end LinesIn

end Emitter

/-! ### Code of statements

`StaysIn P` goes through the combinators of `Generating` as any invariant does, so the
lemmas follow the definitions in `Codegen` one by one and ask for nothing.  A condition
appears in two places only.  The jump over an `else` and the jump back of a `while` are
written behind a block, whose statements have set other lines, and both set a line again
before they are written.
-/

namespace Codegen

variable {P : UInt32 → Prop} {g : CodeContext}

/-- The step keeps to lines that satisfy `P`. -/
abbrev StaysIn (P : UInt32 → Prop) {α : Type} (x : Generating α) : Prop :=
  Blames (Emitter.LinesIn P) (fun _ => True) x

private theorem emit_staysIn {f : Emitter → Emitter} (h : ∀ s, Emitter.OnLine s (f s)) :
    StaysIn P (emit f) :=
  .modify fun s hs => hs.onLine (h s)

private theorem op_staysIn (op : Opcode) :
    StaysIn P (emit (·.op op)) := emit_staysIn fun _ => .op op

private theorem setLine_staysIn {line : Nat} (h : P (UInt32.ofNat line)) :
    StaysIn P (emit (·.setLine line)) :=
  .modify fun _ hs => hs.setLine h

private theorem ofExcept_staysIn {α : Type} (x : Except CodegenError α) :
    StaysIn P (ofExcept x) := by
  cases x with
  | ok a => exact .pure a
  | error e => exact .throw trivial

private theorem opcodeOr_staysIn (op? : Option Opcode) (span : Span) (message : String) :
    StaysIn P (opcodeOr op? span message) := by
  cases op? with
  | some op => exact .pure op
  | none => exact .throw trivial

private theorem jump_staysIn (op : Opcode) : StaysIn P (jump op) := by
  refine ⟨fun hs hok => ?_, fun _ _ => trivial⟩
  obtain ⟨-, rfl⟩ := EStateM.Result.ok.inj hok
  exact hs.onLine (.jump op)

private theorem patch_staysIn (offset : Nat) (span : Span) : StaysIn P (patch offset span) := by
  refine ⟨fun hs hok => ?_, fun _ _ => trivial⟩
  rw [patch_eq] at hok
  split at hok
  · obtain ⟨-, rfl⟩ := EStateM.Result.ok.inj hok
    exact hs.onLine (.setDistance _ _)
  · cases hok

private theorem loop_staysIn (start : Nat) (span : Span) : StaysIn P (loop start span) := by
  refine ⟨fun hs hok => ?_, fun _ _ => trivial⟩
  rw [loop_eq] at hok
  split at hok
  · obtain ⟨-, rfl⟩ := EStateM.Result.ok.inj hok
    exact hs.onLine (.opU16 .loop _)
  · cases hok

private theorem load_staysIn (place : Storage) : StaysIn P (load place) := by
  cases place with
  | register r => exact emit_staysIn fun _ => .opByte _ _
  | slot n => exact emit_staysIn fun _ => .opU16 _ _

private theorem store_staysIn (place : Storage) : StaysIn P (store place) := by
  cases place with
  | register r => exact emit_staysIn fun _ => .opByte _ _
  | slot n => exact emit_staysIn fun _ => .opU16 _ _

private theorem expr_staysIn (e : Expr) : StaysIn P (expr g e) := by
  induction e with
  | integer n span => exact emit_staysIn fun _ => .int n
  | boolean b span => exact op_staysIn _
  | register r span => exact emit_staysIn fun _ => .opByte _ _
  | ident id => exact (ofExcept_staysIn _).bind load_staysIn
  | unary op operand span ih =>
      exact ih.bind fun _ => (opcodeOr_staysIn _ _ _).bind op_staysIn
  | binary op left right span ihl ihr =>
      exact ihl.bind fun _ => ihr.bind fun _ => (opcodeOr_staysIn _ _ _).bind op_staysIn

private theorem assign_staysIn (target value : Expr) : StaysIn P (assign g target value) :=
  (ofExcept_staysIn _).bind fun place => (expr_staysIn value).bind fun _ => store_staysIn place

private theorem compound_staysIn (op : Operator) (target value : Expr) (span : Span) :
    StaysIn P (compound g op target value span) :=
  (ofExcept_staysIn _).bind fun place => (opcodeOr_staysIn _ _ _).bind fun opcode =>
    (load_staysIn place).bind fun _ => (expr_staysIn value).bind fun _ =>
      (op_staysIn opcode).bind fun _ => store_staysIn place

private theorem ret_staysIn (value : Option Expr) : StaysIn P (ret g value) := by
  cases value with
  | none => exact op_staysIn _
  | some e =>
      exact (expr_staysIn e).bind fun _ => (store_staysIn (.register .r0)).bind fun _ =>
        op_staysIn _

private theorem intrinsic_staysIn (i : Intrinsic) (args : List Expr) (span : Span) :
    StaysIn P (intrinsic g i args span) := by
  unfold intrinsic
  split
  · exact (ofExcept_staysIn _).bind fun _ => (expr_staysIn _).bind fun _ =>
      (expr_staysIn _).bind fun _ => emit_staysIn fun _ => .opByte _ _
  · exact (expr_staysIn _).bind fun _ => (expr_staysIn _).bind fun _ =>
      (expr_staysIn _).bind fun _ => op_staysIn _
  · exact (expr_staysIn _).bind fun _ => op_staysIn _
  · exact (expr_staysIn _).bind fun _ => op_staysIn _
  · exact (ofExcept_staysIn _).bind fun a => (ofExcept_staysIn _).bind fun b =>
      emit_staysIn fun _ => .xchg a b
  · exact .throw trivial

private theorem call_staysIn (name : Ident) : StaysIn P (call g name) :=
  (ofExcept_staysIn _).bind fun _ => emit_staysIn fun _ => .opU16 _ _

section Jumps

variable {cond body otherwise : Generating Unit}

private theorem ifThen_staysIn (hcond : StaysIn P cond) (hbody : StaysIn P body) (span : Span) :
    StaysIn P (ifThen cond body span) :=
  hcond.bind fun _ => (jump_staysIn _).bind fun _ => hbody.bind fun _ => patch_staysIn _ _

/-- The jump over the `else` is on the line of the `else`. -/
theorem ifElse_staysIn (hcond : StaysIn P cond) (hbody : StaysIn P body)
    (hotherwise : StaysIn P otherwise) {otherLine : Nat} (h : P (UInt32.ofNat otherLine))
    (span : Span) : StaysIn P (ifElse cond body otherwise otherLine span) :=
  hcond.bind fun _ => (jump_staysIn _).bind fun _ => hbody.bind fun _ =>
    (setLine_staysIn h).bind fun _ => (jump_staysIn _).bind fun _ =>
      (patch_staysIn _ _).bind fun _ => hotherwise.bind fun _ => patch_staysIn _ _

/-- The jump back is on the line of the `while`. -/
theorem whileLoop_staysIn (hcond : StaysIn P cond) (hbody : StaysIn P body) {span : Span}
    (h : P (UInt32.ofNat span.line)) : StaysIn P (whileLoop cond body span) :=
  Blames.get.bind fun _ => hcond.bind fun _ => (jump_staysIn _).bind fun _ =>
    hbody.bind fun _ => (setLine_staysIn h).bind fun _ => (loop_staysIn _ _).bind fun _ =>
      patch_staysIn _ _

end Jumps

/-- The nodes are on lines that satisfy `P`. -/
abbrev NodesOn (P : UInt32 → Prop) (nodes : List Node) : Prop :=
  AllAt (fun span => P (UInt32.ofNat span.line)) nodes

/-- The code of each part of a program is on lines where its nodes start. -/
abbrev staying (P : UInt32 → Prop) : Claim where
  code s x := NodesOn P s.nodes → StaysIn P x
  stmt s x := NodesOn P s.nodes → StaysIn P x
  block b x := NodesOn P b.nodes → StaysIn P x
  stmts body x := NodesOn P (stmtsNodes body) → StaysIn P x

/--
Each node of a part is a node of the whole, so what is asked of the whole is there for the
parts.
-/
private theorem staying_rules : (staying P).Rules g where
  assign target value _ _ := assign_staysIn target value
  compound op target value span _ := compound_staysIn op target value span
  ifThen cond body span hbody h := by
    simp only [Stmt.nodes, allAt_cons, allAt_append] at h
    exact ifThen_staysIn (expr_staysIn cond) (hbody h.2.2) span
  ifElse cond body ifSpan elseBody span hbody helse h := by
    simp only [Stmt.nodes, allAt_cons, allAt_append] at h
    obtain ⟨-, -, -, hb, he⟩ := h
    have hline : P (UInt32.ofNat elseBody.span.line) := Block.at_of_nodes he
    exact ifElse_staysIn (expr_staysIn cond) (hbody hb) (helse he) hline span
  whileLoop cond body span hbody h := by
    simp only [Stmt.nodes, allAt_cons, allAt_append] at h
    exact whileLoop_staysIn (expr_staysIn cond) (hbody h.2.2) h.1
  func _ _ _ _ := .pure ()
  ret value _ _ := ret_staysIn value
  intrinsic i args span _ := intrinsic_staysIn i args.args span
  call name _ _ _ := call_staysIn name
  line s _ hx h := by
    have hline : P (UInt32.ofNat s.span.line) := Stmt.at_of_nodes h
    exact (setLine_staysIn hline).bind fun _ => hx h
  block _ _ _ hbody h := by
    simp only [Block.nodes, allAt_cons, allAt_append] at h
    exact hbody h.2.2
  nil _ := .pure ()
  cons _ _ hs hrest h := by
    simp only [stmtsNodes, allAt_append] at h
    exact (hs h.1).bind fun _ => hrest h.2

/-- A statement sets its line itself, so it does not matter which one was set before. -/
theorem stmt_setLine (s : Stmt) (e : Emitter) : stmt g s (e.setLine s.span.line) = stmt g s e := by
  cases s <;> rw [stmt] <;> rfl

/-! ### Code of sections

A section starts on line 1 before anything is set, and this line is in the code only if
something is written before the first statement.  Nothing is: by `stmt_setLine` one may as
well start on the line of the first statement, and then the claim is met from the beginning.
This is why the two cases in `lines_of_sectionCode` are no statement and one statement or
more.
-/

/-- The code of a block with a statement: that statement, the others, and the way out. -/
theorem sectionCode_cons_eq_ok {decls : List Decl} {s : Stmt} {rest : List Stmt} {span : Span}
    {c : Chunk} (h : sectionCode g ⟨decls, s :: rest, span⟩ = .ok c) :
    ∃ m t, stmt g s .start = .ok () m ∧ stmts g rest m = .ok () t ∧ c = (t.op g.exit).chunk := by
  simp only [sectionCode, block, stmts] at h
  split at h
  · rename_i hrun
    obtain rfl := Except.ok.inj h
    obtain ⟨_, t, hbody, hexit⟩ := bind_eq_ok.mp hrun
    obtain ⟨_, m, hstmt, hstmts⟩ := bind_eq_ok.mp hbody
    obtain rfl := modify_eq_ok.mp hexit
    exact ⟨m, t, hstmt, hstmts, rfl⟩
  · cases h

/-- The code of a block without statements is the way out, on the first line. -/
theorem lines_of_empty {body : Block} {c : Chunk} (hempty : body.stmts = [])
    (h : sectionCode g body = .ok c) : c.lines = #[1] := by
  obtain ⟨decls, stmts, span⟩ := body
  obtain rfl : stmts = [] := hempty
  simp only [sectionCode, block, Codegen.stmts] at h
  obtain rfl := Except.ok.inj h
  rfl

/--
**The lines of a section are lines of its block.**  If the block has no statement, there is
only the first line of the text.
-/
theorem lines_of_sectionCode {body : Block} {c : Chunk} (hnodes : NodesOn P body.nodes)
    (h : sectionCode g body = .ok c) : (∀ l ∈ c.lines, P l) ↔ body.stmts ≠ [] ∨ P 1 := by
  constructor
  · intro hall
    by_cases hempty : body.stmts = []
    · rw [lines_of_empty hempty h] at hall
      exact .inr (hall 1 (by simp))
    · exact .inl hempty
  · rintro hcase
    obtain ⟨decls, body, span⟩ := body
    cases body with
    | nil =>
        have hone : P 1 := hcase.resolve_left fun hne => hne rfl
        rw [lines_of_empty rfl h]
        simpa using hone
    | cons s rest =>
        simp only [Block.nodes, stmtsNodes, allAt_cons, allAt_append] at hnodes
        obtain ⟨-, -, hs, hrest⟩ := hnodes
        obtain ⟨m, t, hstmt, hstmts, rfl⟩ := sectionCode_cons_eq_ok h
        rw [← stmt_setLine] at hstmt
        have hm : m.LinesIn P :=
          (staying_rules.stmt s hs).keeps (.start_setLine (Stmt.at_of_nodes hs)) hstmt
        have ht : t.LinesIn P := (staying_rules.stmts rest hrest).keeps hm hstmts
        exact (ht.onLine (.op g.exit)).written

end Codegen

/-! ### Code of functions

What is left is to tell nodes from tokens.  A function is written as a run of tokens
(`Func.WrittenAs`), and every node of its body starts at one of them (`WrittenAs.allAt`), so
lines of nodes are lines of tokens.  Lines are compared as the 32-bit numbers that a chunk
stores.
-/

/-- The tokens among `ts` that a function is written as. -/
def Func.WrittenAs (f : Func) (ts us : List Token) : Prop :=
  us <:+: ts ∧ ∃ own, StmtForm us (some (.func f.name f.body f.span)) own

/-- What a function consists of starts on lines where tokens of the function are. -/
theorem Func.WrittenAs.allAt {f : Func} {ts us : List Token} (h : f.WrittenAs ts us)
    (hsorted : ts.Pairwise Token.Before) :
    AllAt (fun span => ∃ t ∈ us, UInt32.ofNat t.span.line = UInt32.ofNat span.line)
      f.body.nodes := by
  obtain ⟨hus, own, hform⟩ := h
  have hplaced := (List.forall_mem_append.mp hform.placed).2
  rw [Option.toList_some, stmtsNodes_singleton, Stmt.nodes] at hplaced
  intro n hn
  obtain ⟨vs, hvs, hn⟩ := hplaced n (by simp [hn])
  obtain ⟨first, last, hfirst, -, hruns⟩ :=
    hn.runs (hsorted.sublist (hvs.sublist.trans hus.sublist))
  exact ⟨first, hvs.subset (Node.mem_of_first? hfirst), by rw [hruns.line]⟩

/-- Every function of a program stands somewhere in the text. -/
theorem Program.writtenAs_of_parse {source : String} {tabWidth : Nat} {p : Program}
    (h : Program.parse source tabWidth = .ok p) {f : Func} (hf : f ∈ p.functions) :
    ∃ us, f.WrittenAs (Lexer.ofString source tabWidth).tokens us := by
  rw [functions_eq] at hf
  have hnode : Node.stmt (.func f.name f.body f.span) ∈ p.block.nodes :=
    Block.nodes_of_mem_functions hf (by simp [Stmt.nodes])
  rw [nodes_block, List.mem_cons] at hnode
  obtain ⟨us, _, _, hus, hform, -⟩ := (located_of_parse h).1 _ (hnode.resolve_left (by simp))
  cases hform with
  | stmt hform => exact ⟨us, hus, _, hform⟩

/-- Every byte has its line on record, so what holds of all lines holds of every byte. -/
theorem Chunk.forall_lines_iff {c : Chunk} {P : UInt32 → Prop} :
    (∀ l ∈ c.lines, P l) ↔ ∀ i < c.size, ∃ l, c.lineAt? i = some l ∧ P l := by
  constructor
  · intro hall i hi
    have hi : i < c.lines.size := c.size_lines ▸ hi
    exact ⟨c.lines[i], Array.getElem?_eq_getElem hi, hall _ (Array.getElem_mem hi)⟩
  · intro hall l hl
    obtain ⟨i, hi, rfl⟩ := Array.mem_iff_getElem.mp hl
    obtain ⟨l, hl, hP⟩ := hall i (by rw [size, ← c.size_lines]; exact hi)
    rw [lineAt?, Array.getElem?_eq_getElem hi] at hl
    exact Option.some.inj hl ▸ hP

namespace Compiles

variable {source : String} {tabWidth : Nat} {o : CompileOptions} {p : Program} {r : Resolutions}
  {sections : List CodeSection}

/-- Every function has a section, with the code of its body. -/
theorem section_of_function (h : Compiles source tabWidth o p r sections) {k : Nat} {f : Func}
    (hf : p.functions[k]? = some f) :
    ∃ s table, sections[k + 1]? = some s ∧
      Codegen.sectionCode ⟨r, table, .ret⟩ f.body = .ok s.chunk := by
  obtain ⟨-, table, -, hall⟩ := Codegen.codeSections_eq_ok h.generated
  have hbody : p.bodies[k + 1]? = some (.ret, f.body) := by
    rw [Program.bodies, List.getElem?_cons_succ, List.getElem?_map, hf]
    rfl
  obtain ⟨hk, hbody⟩ := List.getElem?_eq_some_iff.mp hbody
  have hk' : k + 1 < sections.length := hall.length_eq ▸ hk
  have hcode := hall.get hk hk'
  rw [List.get_eq_getElem, hbody] at hcode
  exact ⟨sections[k + 1], table, List.getElem?_eq_getElem hk', hcode⟩

/--
**The code of a function is on lines of the function.**  Every function of a program that
compiles is written somewhere in the text and has a section of its own.  All bytes of this
section, the final return among them, have the line of a token of the function, as soon as
there is a statement in its body.  If there is none, the return is all there is and has line
1, which may be a line of the function or not.
-/
theorem function_lines_iff (h : Compiles source tabWidth o p r sections) {k : Nat} {f : Func}
    (hf : p.functions[k]? = some f) :
    (∃ us, f.WrittenAs (Lexer.ofString source tabWidth).tokens us) ∧
      ∃ s, sections[k + 1]? = some s ∧ (f.body.stmts = [] → s.chunk.lines = #[1]) ∧
        ∀ us, f.WrittenAs (Lexer.ofString source tabWidth).tokens us →
          ((∀ i < s.chunk.size, ∃ l, s.chunk.lineAt? i = some l ∧
              ∃ t ∈ us, UInt32.ofNat t.span.line = l) ↔
            f.body.stmts ≠ [] ∨ ∃ t ∈ us, UInt32.ofNat t.span.line = 1) := by
  obtain ⟨s, table, hs, hcode⟩ := h.section_of_function hf
  have hsorted : (Lexer.ofString source tabWidth).tokens.Pairwise Token.Before :=
    Cursor.tokens_before _ (Nat.le_max_right _ _)
  refine ⟨Program.writtenAs_of_parse h.parsed (List.mem_of_getElem? hf), s, hs, ?_, ?_⟩
  · exact fun hempty => Codegen.lines_of_empty hempty hcode
  · intro us hus
    rw [← Chunk.forall_lines_iff]
    exact Codegen.lines_of_sectionCode (hus.allAt hsorted) hcode

/-- A function on the lines 2 to 4; its loop goes back on line 3. -/
def stepDown : String := "r0 = 3;\nfunc f \x7b\n  while r0 > 1 \x7b\n    r0 -= 1; \x7d \x7d"

theorem stepDown_lines :
    ∃ p r sections f s us, Compiles stepDown 4 .default p r sections ∧
      p.functions[0]? = some f ∧ f.body.stmts ≠ [] ∧ sections[1]? = some s ∧
        s.chunk.lineTable = [(0, 3), (7, 4), (13, 3)] ∧
          f.WrittenAs (Lexer.ofString stepDown 4).tokens us ∧
            ∀ i < s.chunk.size, ∃ l, s.chunk.lineAt? i = some l ∧
              ∃ t ∈ us, UInt32.ofNat t.span.line = l := by
  have htest : Compiles.passes stepDown 4 .default (fun p _ sections =>
      p.functions.map (·.body.stmts.length) == [1] &&
        decide (sections[1]?.map (·.chunk.lineTable) = some [(0, 3), (7, 4), (13, 3)])) = true := by
    decide +kernel
  obtain ⟨p, r, sections, hcompiles, htest⟩ := Compiles.of_passes htest
  obtain ⟨hlengths, htable⟩ := Bool.and_eq_true_iff.mp htest
  obtain ⟨f, hf, hlength⟩ := List.map_eq_singleton_iff.mp (beq_iff_eq.mp hlengths)
  have hfirst : p.functions[0]? = some f := by rw [hf]; rfl
  have hbody : f.body.stmts ≠ [] := List.ne_nil_of_length_pos (by omega)
  obtain ⟨⟨us, hus⟩, s, hs, -, hlines⟩ := hcompiles.function_lines_iff hfirst
  rw [hs] at htable
  exact ⟨p, r, sections, f, s, us, hcompiles, hfirst, hbody, hs,
    Option.some.inj (of_decide_eq_true htable), hus, (hlines us hus).mpr (.inl hbody)⟩

/-- The code of an empty function on the second line is on the first one, where it has no token. -/
theorem empty_function_on_first_line :
    ∃ p r sections f s us, Compiles "\nfunc f { }" 4 .default p r sections ∧
      p.functions[0]? = some f ∧ sections[1]? = some s ∧
        f.WrittenAs (Lexer.ofString "\nfunc f { }" 4).tokens us ∧
          s.chunk.lineAt? 0 = some 1 ∧ ∀ t ∈ us, t.span.line = 2 := by
  have htest : Compiles.passes "\nfunc f { }" 4 .default (fun p _ sections =>
      p.functions.length == 1 &&
        decide ((sections[1]?.bind fun s => s.chunk.lineAt? 0) = some 1)) = true := by
    decide +kernel
  have hlines : ∀ t ∈ (Lexer.ofString "\nfunc f { }" 4).tokens, t.span.line = 2 := by
    decide +kernel
  obtain ⟨p, r, sections, hcompiles, htest⟩ := Compiles.of_passes htest
  obtain ⟨hlength, hline⟩ := Bool.and_eq_true_iff.mp htest
  obtain ⟨f, hf⟩ := List.length_eq_one_iff.mp (beq_iff_eq.mp hlength)
  obtain ⟨s, hs, hline⟩ := Option.bind_eq_some_iff.mp (of_decide_eq_true hline)
  obtain ⟨us, hus⟩ := Program.writtenAs_of_parse hcompiles.parsed (f := f) (by simp [hf])
  exact ⟨p, r, sections, f, s, us, hcompiles, by rw [hf]; rfl, hs, hus, hline,
    fun t ht => hlines t (hus.1.subset ht)⟩

end Compiles

end StackCode
