/-
Spans and errors point at tokens.

A text that is a program is a row of tokens, and the tree of the program lies over this row:
every node stands for some tokens next to each other and runs from the first of them to the
last (`Node.Located`).  A node therefore starts where a token starts (`Span.StartsAt`).

Errors inherit this.  The parser stops at a token, and what comes after it stops at a node,
so whatever is wrong with a text that can be cut into tokens is reported at the start of one
of them; that may be the end of the text.  What the phases blame is shown in
`Locations.Parsing` and `Locations.Errors`, and here it is put together.
-/
import StackCode.Compiler
import StackCode.Proofs.Locations.Errors
import StackCode.Proofs.Locations.Parsing

namespace StackCode

open Sequencing

/-- The span starts where one of the tokens does. -/
def Span.StartsAt (s : Span) (ts : List Token) : Prop :=
  ∃ t ∈ ts, s.line = t.span.line ∧ s.col = t.span.col

private theorem Span.Runs.startsAt {s : Span} {f l : Token} {ts : List Token} (h : s.Runs f l)
    (hf : f ∈ ts) : s.StartsAt ts := ⟨f, hf, h.line, h.col⟩

/--
The node stands for some of the tokens, in a row, and runs from the first of these to the
last; parentheses around an expression do not count.
-/
def Node.Located (ts : List Token) (n : Node) : Prop :=
  ∃ us f l, us <:+: ts ∧ n.Form us ∧ n.first? us = some f ∧ n.last? us = some l ∧ n.span.Runs f l

private theorem Node.Located.startsAt {ts : List Token} {n : Node} (h : n.Located ts) :
    n.span.StartsAt ts := by
  obtain ⟨us, f, l, hus, -, hfirst, -, hruns⟩ := h
  exact hruns.startsAt (hus.subset (Node.mem_of_first? hfirst))

/-- Joining a span with itself changes nothing. -/
theorem Span.merge_self (s : Span) : s.merge s = s := by
  obtain ⟨line, col, len⟩ := s
  simp [Span.merge, Span.stop]

namespace Program

variable {source : String} {tabWidth : Nat} {p : Program}

/-- The tree of a program lies over the tokens of the text: its nodes are `Located`. -/
theorem located_of_parse (h : Program.parse source tabWidth = .ok p) :
    (∀ n ∈ p.nodes, n.Located (Lexer.ofString source tabWidth).tokens) ∧
      p.span = p.block.span ∧
        ∃ f l, (Lexer.ofString source tabWidth).tokens.head? = some f ∧
          (Lexer.ofString source tabWidth).tokens.getLast? = some l ∧ l.kind = .eof ∧
            p.block.span.Runs f l := by
  unfold Program.parse at h
  split at h
  · rename_i read q hread
    obtain rfl := Except.ok.inj h
    obtain ⟨first, last, ts, rest, stmts, decls, htokens, -, hform, hlast, hfirst, rfl⟩ :=
      Parser.program_sound hread
    rw [Parser.tokens_ofSource] at htokens hfirst
    obtain rfl := Cursor.tokens_eof _ htokens hlast
    have hall : (Lexer.ofString source tabWidth).tokens = ts ++ [last] := htokens
    have hsorted : (ts ++ [last]).Pairwise Token.Before := by
      rw [← htokens]
      exact Cursor.tokens_before _ (Nat.le_max_right _ _)
    rw [htokens] at hfirst
    rw [hall]
    refine ⟨?_, rfl, first, last, hfirst, List.getLast?_concat, hlast, ?_⟩
    · intro n hn
      obtain ⟨us, hus, hn⟩ := (hform.placed.before last) n hn
      obtain ⟨f, l, hf, hl, hruns⟩ := hn.runs (hsorted.sublist hus.sublist)
      exact ⟨us, f, l, hus, hn, hf, hl, hruns⟩
    · cases ts with
      | nil =>
          -- An empty program is all at the end of the text.
          obtain rfl := Option.some.inj hfirst
          rw [Span.merge_self]
          exact Span.runs_self _
      | cons t ts =>
          obtain rfl := Option.some.inj hfirst
          have hbefore : t.Before last := (List.pairwise_cons.mp hsorted).1 last (by simp)
          exact (Span.runs_self t).merge (Span.runs_self last) (.inl rfl) hbefore (.inl rfl)
  · cases h

/-- All that later phases can blame starts at a token (`AllAt`). -/
theorem allAt_of_parse (h : Program.parse source tabWidth = .ok p) :
    p.span.StartsAt (Lexer.ofString source tabWidth).tokens ∧
      AllAt (·.StartsAt (Lexer.ofString source tabWidth).tokens) p.block.nodes := by
  obtain ⟨hnodes, hspan, f, l, hf, -, -, hruns⟩ := located_of_parse h
  have hstart := hruns.startsAt (List.mem_of_mem_head? hf)
  refine ⟨hspan ▸ hstart, ?_⟩
  rw [p.nodes_block]
  exact allAt_cons.mpr ⟨hstart, fun n hn => (hnodes n hn).startsAt⟩

end Program

/-- `compile` fails where its first phase to fail does. -/
theorem Compiler.compile_eq_error {o : CompileOptions} {source : String} {e : Error}
    (h : Compiler.compile o source = .error e) :
    (∃ cause, Program.parse source o.tabWidth = .error cause ∧ e = cause.toError) ∨
      ∃ p, Program.parse source o.tabWidth = .ok p ∧
        ((∃ cause, p.analyze = .error cause ∧ e = .semantic cause) ∨
          ∃ r, p.analyze = .ok r ∧
            ∃ cause, Codegen.generate o r p = .error cause ∧ e = .codegen cause) := by
  rcases except_bind_eq_error.mp h with hparse | ⟨p, hparse, h⟩
  · exact .inl (except_mapError_eq_error.mp hparse)
  refine .inr ⟨p, except_mapError_eq_ok.mp hparse, ?_⟩
  rcases except_bind_eq_error.mp h with hanalyze | ⟨r, hanalyze, h⟩
  · exact .inl (except_mapError_eq_error.mp hanalyze)
  · exact .inr ⟨r, except_mapError_eq_ok.mp hanalyze, except_mapError_eq_error.mp h⟩

/--
**Spans and errors point at tokens.**  In a text that is a program, every expression,
statement, argument list and inner block starts at its first token and, if it ends on that
line, ends at its last one, where parentheses around an expression do not count; the block
of the whole program runs from the very first token to the end of the text.  Every error of
parsing, analysis or code generation is at the start of a token.
-/
theorem compile_points_at_tokens (o : CompileOptions) (source : String) :
    (∀ p, Program.parse source o.tabWidth = .ok p →
      (∀ n ∈ p.nodes, n.Located (Lexer.ofString source o.tabWidth).tokens) ∧
        p.span = p.block.span ∧
          ∃ f l, (Lexer.ofString source o.tabWidth).tokens.head? = some f ∧
            (Lexer.ofString source o.tabWidth).tokens.getLast? = some l ∧ l.kind = .eof ∧
              p.block.span.Runs f l) ∧
    ∀ e span, Compiler.compile o source = .error e → e.span? = some span →
      (∀ cause, e ≠ .lex cause) → span.StartsAt (Lexer.ofString source o.tabWidth).tokens := by
  refine ⟨fun p => Program.located_of_parse, ?_⟩
  intro e span herror hspan hlex
  rcases Compiler.compile_eq_error herror with
    ⟨cause, hparse, rfl⟩ | ⟨p, hparse, ⟨cause, hanalyze, rfl⟩ | ⟨r, hanalyze, cause, hcode, rfl⟩⟩
  · cases cause with
    | lex cause => exact absurd rfl (hlex cause)
    | parse cause =>
        obtain rfl := Option.some.inj hspan
        obtain ⟨t, ht, hsame⟩ := Program.mem_tokens_of_parse_error hparse
        exact ⟨t, ht, by rw [hsame], by rw [hsame]⟩
  · obtain rfl := Option.some.inj hspan
    exact (Program.analyze_blames (Program.allAt_of_parse hparse).2).1 cause hanalyze
  · obtain rfl := Option.some.inj hspan
    obtain ⟨hwhole, hnodes⟩ := Program.allAt_of_parse hparse
    have hsymbols := (Program.analyze_blames hnodes).2 r hanalyze
    exact Codegen.generate_failsAt hsymbols hwhole hnodes cause hcode

/-- A program of eight nodes, each at its tokens; an unknown name in it is reported at its token. -/
theorem unknown_name_points_at_token :
    ∃ p, Program.parse "(r0) = 1;\nr1 = f + 2;" 4 = .ok p ∧ p.nodes.length = 8 ∧
      (∀ n ∈ p.nodes, n.Located (Lexer.ofString "(r0) = 1;\nr1 = f + 2;" 4).tokens) ∧
        Compiler.compile .default "(r0) = 1;\nr1 = f + 2;" =
          .error (.semantic (.identifierNotFound ⟨2, 6, 1⟩ "f")) ∧
        (⟨2, 6, 1⟩ : Span).StartsAt (Lexer.ofString "(r0) = 1;\nr1 = f + 2;" 4).tokens := by
  have hlength : (Program.parse "(r0) = 1;\nr1 = f + 2;" 4).toOption.map (·.nodes.length) =
      some 8 := by
    decide +kernel
  have herror : (Compiler.compile .default "(r0) = 1;\nr1 = f + 2;").map (fun _ => ()) =
      .error (.semantic (.identifierNotFound ⟨2, 6, 1⟩ "f")) := by
    decide +kernel
  obtain ⟨hspans, herrors⟩ := compile_points_at_tokens .default "(r0) = 1;\nr1 = f + 2;"
  cases hcompile : Compiler.compile .default "(r0) = 1;\nr1 = f + 2;" with
  | ok image =>
      rw [hcompile] at herror
      cases herror
  | error e =>
      rw [hcompile] at herror
      obtain rfl := Except.error.inj herror
      cases hparse : Program.parse "(r0) = 1;\nr1 = f + 2;" 4 with
      | error cause =>
          rw [hparse] at hlength
          cases hlength
      | ok p =>
          rw [hparse] at hlength
          exact ⟨p, rfl, Option.some.inj hlength, (hspans p hparse).1, rfl,
            herrors _ _ hcompile rfl (by simp)⟩

/--
The block of a program starts at a parenthesis, if the text does: that of `(r0) = 1;` starts
one column before the register, where its only statement starts.
-/
theorem block_starts_at_parenthesis :
    ∃ p f, Program.parse "(r0) = 1;" 4 = .ok p ∧
      firstToken? (Lexer.ofString "(r0) = 1;" 4).tokens = some f ∧
        p.block.span.col = 1 ∧ f.span.col = 2 := by
  have hspan : (Program.parse "(r0) = 1;" 4).toOption.map (·.block.span.col) = some 1 := by
    decide +kernel
  have hfirst : (firstToken? (Lexer.ofString "(r0) = 1;" 4).tokens).map (·.span.col) = some 2 := by
    decide +kernel
  obtain ⟨f, hf, hcol⟩ := Option.map_eq_some_iff.mp hfirst
  cases hparse : Program.parse "(r0) = 1;" 4 with
  | error e =>
      rw [hparse] at hspan
      cases hspan
  | ok p =>
      rw [hparse] at hspan
      exact ⟨p, f, rfl, hf, Option.some.inj hspan, hcol⟩

end StackCode
