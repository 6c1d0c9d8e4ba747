/-
Where the caret stands.

An error is shown by `Diagnostic.render` with the line that it is on, and below that line
with a caret.  Three things have to fit together.  The line of an error is counted in line
feeds; the lines that can be quoted, `Text.lines`, also end at line feeds, but without a
carriage return before it and without an empty line at the very end.  The column of an error
is counted in characters, as long as there are no tabs and every character is one byte.  And
the quoted line and the caret both stand behind a margin.

The first two do fit: an error never stands inside the end of a line (`Cursor.Cuts`), so its
column is one of the quoted line, or the one just behind it (`Text.line_at`).  The margins do
not.  That of the quoted line, `gutter`, holds the line number in three places or more; that
of the caret, `margin`, is as wide as for a number of one place.  So the caret always stands
left of the column that it is meant to point at.
-/
import StackCode.Proofs.Locations

namespace StackCode

/-! ### Lines of a text

`Text.lines` is a loop that collects lines and the characters of the line under way, both
back to front.  To find a line in its result the text is cut at the place in question: the
line feeds before the cut say how many lines are over, and what stands behind the last of
them (`Place.lastLine`) is the start of the line.  The loop drops a carriage return when it
meets the line feed behind it, so the cut must not be between the two.  That is the side
condition of `line_at`, and the second case of `head_linesFrom`.
-/

namespace Place

private theorem lastLine_append_newline (a b : List Char) :
    lastLine (a ++ '\n' :: b) = lastLine b := by
  induction b using List.reverseRecOn with
  | nil => simp [lastLine]
  | append_singleton b c ih =>
      rw [← List.cons_append, ← List.append_assoc, lastLine, List.rtakeWhile_concat, lastLine,
        List.rtakeWhile_concat]
      unfold lastLine at ih
      rw [ih]

private theorem lastLine_of_not_mem {a : List Char} (h : '\n' ∉ a) : lastLine a = a := by
  rw [lastLine, List.rtakeWhile_eq_self_iff]
  intro c hc
  simpa using fun heq : c = '\n' => h (heq ▸ hc)

private theorem newline_not_mem_lastLine (a : List Char) : '\n' ∉ lastLine a := fun h => by
  simpa using List.mem_rtakeWhile_imp h

end Place

namespace Text

private theorem linesFrom_eq (cs : List Char) : ∀ (done : List (List Char)) (line : List Char),
    linesFrom done line cs = done.reverse ++ linesFrom [] line cs := by
  induction cs with
  | nil =>
      intro done line
      simp only [linesFrom]
      split <;> simp
  | cons c cs ih =>
      intro done line
      simp only [linesFrom]
      split
      · rw [ih (endLine line :: done), ih [endLine line]]
        simp
      · exact ih done (c :: line)

private theorem linesFrom_newline (line cs : List Char) :
    linesFrom [] line ('\n' :: cs) = endLine line :: linesFrom [] [] cs := by
  rw [linesFrom, if_pos rfl, linesFrom_eq]
  rfl

/-- The line under way goes on in the text, if its end is not under way too. -/
theorem head_linesFrom (cs : List Char) : ∀ {line found : List Char},
    (linesFrom [] line cs)[0]? = some found →
      (∃ tail, tail <+: cs ∧ '\n' ∉ tail ∧ found = line.reverse ++ tail) ∨
        ∃ line' more, line = '\r' :: line' ∧ cs = '\n' :: more := by
  induction cs with
  | nil =>
      intro line found h
      refine .inl ⟨[], List.nil_prefix, by simp, ?_⟩
      simp only [linesFrom] at h
      split at h
      · simp at h
      · simpa using h.symm
  | cons c cs ih =>
      intro line found h
      by_cases hc : c = '\n'
      · subst hc
        rw [linesFrom_newline, List.getElem?_cons_zero] at h
        obtain rfl := Option.some.inj h
        unfold endLine
        split
        · exact .inr ⟨_, _, rfl, rfl⟩
        · exact .inl ⟨[], List.nil_prefix, by simp, by simp⟩
      · refine .inl ?_
        rw [linesFrom, if_neg hc] at h
        rcases ih h with ⟨tail, hprefix, hfeed, rfl⟩ | ⟨line', more, hline, rfl⟩
        · refine ⟨c :: tail, List.cons_prefix_cons.mpr ⟨rfl, hprefix⟩, ?_, by simp⟩
          simp [hfeed, Ne.symm hc]
        · -- A carriage return that was read last is no part of the line.
          obtain ⟨rfl, rfl⟩ := List.cons.inj hline
          rw [linesFrom_newline, List.getElem?_cons_zero] at h
          obtain rfl := Option.some.inj h
          exact ⟨[], List.nil_prefix, by simp, by simp [endLine]⟩

private theorem linesFrom_getElem? (before : List Char) : ∀
    {line rest found : List Char}, '\n' ∉ line →
    (linesFrom [] line (before ++ rest))[before.count '\n']? = some found →
      (rest.head? = some '\n' → (line.reverse ++ before).getLast? ≠ some '\r') →
        ∃ tail, tail <+: rest ∧ '\n' ∉ tail ∧
          found = Place.lastLine (line.reverse ++ before) ++ tail := by
  induction before with
  | nil =>
      intro line rest found hline h hend
      rw [List.append_nil, Place.lastLine_of_not_mem (by simpa using hline)]
      rcases head_linesFrom rest h with hfound | ⟨line', more, rfl, rfl⟩
      · exact hfound
      · exact absurd (by simp) (hend rfl)
  | cons c before ih =>
      intro line rest found hline h hend
      by_cases hc : c = '\n'
      · subst hc
        rw [Place.lastLine_append_newline]
        rw [List.cons_append, linesFrom_newline, List.count_cons_self, List.getElem?_cons_succ] at h
        refine ih List.not_mem_nil h fun hhead hlast => hend hhead ?_
        rw [List.reverse_nil, List.nil_append] at hlast
        simp [List.getLast?_append, List.getLast?_cons, hlast]
      · rw [List.cons_append, linesFrom, if_neg hc] at h
        rw [List.count_cons_of_ne hc] at h
        have hsplit : line.reverse ++ c :: before = (c :: line).reverse ++ before := by simp
        rw [hsplit] at hend ⊢
        exact ih (by simp [hline, Ne.symm hc]) h hend

/--
**The line of a place is what stands before the place on its line, and some of what stands
behind it.**  This needs that the place is not inside the end of a line.
-/
theorem line_at {before rest line : List Char}
    (h : (lines (before ++ rest))[before.count '\n']? = some line)
    (hend : rest.head? = some '\n' → before.getLast? ≠ some '\r') :
    ∃ tail, tail <+: rest ∧ '\n' ∉ tail ∧ line = Place.lastLine before ++ tail :=
  linesFrom_getElem? before List.not_mem_nil h hend

/-- Characters of one byte, and no tabs. -/
def IsPlain (text : List Char) : Prop := ∀ c ∈ text, c.toNat < 128 ∧ c ≠ '\t'

instance (text : List Char) : Decidable (IsPlain text) :=
  List.decidableBAll (fun c : Char => c.toNat < 128 ∧ c ≠ '\t') text

end Text

/-- In a plain text columns count characters. -/
theorem Place.behind_of_isPlain (w : Nat) {text : List Char} (h : Text.IsPlain text) :
    behind w text = ⟨1 + text.count '\n', 1 + (lastLine text).length⟩ := by
  have hcolumns : ∀ (cs : List Char) (col : Nat), Text.IsPlain cs →
      cs.foldl (nextColumn w) col = col + cs.length := by
    intro cs
    induction cs with
    | nil => exact fun _ _ => rfl
    | cons c cs ih =>
        intro col hplain
        obtain ⟨⟨hbyte, htab⟩, hrest⟩ := List.forall_mem_cons.mp hplain
        have hsize : c.utf8Size = 1 := by
          rw [Char.utf8Size_eq_one_iff, UInt32.le_iff_toNat_le]
          exact Nat.le_of_lt_succ hbyte
        rw [List.foldl_cons, ih _ hrest, nextColumn, if_neg htab, hsize, List.length_cons]
        omega
  have hlast : Text.IsPlain (lastLine text) := fun c hc =>
    h c ((List.rtakeWhile_suffix _ _).subset hc)
  rw [behind, hcolumns _ _ hlast]

/-! ### Where errors are

`Cuts` is the side condition of `line_at`, said of a place in the rest of a text.  A place
where blanks stop is one (`cuts_skipTrivia`), for a blank before a line feed would have been
skipped with it; and so is the end of what is incomplete.  Every error of the compiler is at
such a place, whether it comes from reading characters, from parsing, or from the walks over
the tree, since those only name spans of tokens.
-/

namespace Cursor

/-- A place in what is left of the text, not inside the end of a line. -/
def Cuts (c : Cursor) (p : Place) : Prop :=
  ∃ before rest, c.rest = before ++ rest ∧ p = c.place.after c.tabWidth before ∧
    (rest.head? = some '\n' → ∃ last, before.getLast? = some last ∧ last ≠ '\r')

variable {c c' : Cursor} {t : Token}

private theorem head?_skipTriviaFrom (w : Nat) (inComment : Bool) (p : Place) (cs : List Char) :
    (skipTriviaFrom w inComment p cs).2.head? ≠ some '\n' := by
  fun_induction skipTriviaFrom w inComment p cs with
  | case1 => simp
  | case2 p c cs ih => exact ih
  | case3 p c cs hblank ih => exact ih
  | case4 p c cs hblank hcomment ih => exact ih
  | case5 p c cs hblank hcomment =>
      rintro ⟨rfl⟩
      exact hblank rfl

/-- Blanks are over where they stop. -/
theorem cuts_skipTrivia (c : Cursor) : c.Cuts c.skipTrivia.place := by
  obtain ⟨gap, hrest, hplace, -⟩ := c.skipTrivia_spec
  exact ⟨gap, _, hrest, hplace, fun hhead =>
    absurd hhead (head?_skipTriviaFrom c.tabWidth false c.place c.rest)⟩

/-- A place behind a token is a place of the text. -/
theorem Cuts.of_scan {p : Place} (hscan : c.scan = (.ok t, c')) (h : c'.Cuts p) : c.Cuts p := by
  obtain ⟨gap, hrest, -, -, -, hplace, htab, -⟩ := scan_spec hscan
  obtain ⟨before, rest, hrest', rfl, hend⟩ := h
  refine ⟨gap ++ t.lexeme.toList ++ before, rest, ?_, ?_, fun hhead => ?_⟩
  · rw [hrest, hrest']
    simp
  · rw [hplace, htab, ← Place.after_append]
  · obtain ⟨last, hlast, hne⟩ := hend hhead
    exact ⟨last, by simp [List.getLast?_append, hlast], hne⟩

private theorem cuts_of_mem_tokens (c : Cursor) :
    ∀ t ∈ c.tokens, c.Cuts ⟨t.span.line, t.span.col⟩ := by
  fun_induction tokens c with
  | case1 => simp
  | case2 c t c' hscan hk =>
      obtain ⟨-, -, -, hspan, -⟩ := scan_spec hscan
      rw [List.forall_mem_singleton, hspan]
      exact c.cuts_skipTrivia
  | case3 c t c' hscan hk ih =>
      obtain ⟨-, -, -, hspan, -⟩ := scan_spec hscan
      refine List.forall_mem_cons.mpr ⟨?_, fun u hu => (ih u hu).of_scan hscan⟩
      rw [hspan]
      exact c.cuts_skipTrivia

/-- Characters that are no token are reported where they start or where they end. -/
theorem cuts_of_scan_error {e : LexError} (h : c.scan = (.error e, c')) :
    c.Cuts ⟨e.span.line, e.span.col⟩ := by
  simp only [scan, scanHere] at h
  split at h
  · simp at h
  · simp at h
  · rename_i expected text rest hread
    obtain ⟨rfl, -⟩ : _ = e ∧ _ := by simpa using h
    obtain ⟨happend, last, hlast, hne⟩ := Lexeme.append_of_read_incomplete hread
    obtain ⟨gap, hrest, hplace, -⟩ := c.skipTrivia_spec
    refine ⟨gap ++ text, rest, ?_, ?_, fun _ => ⟨last, ?_, hne⟩⟩
    · rw [hrest, ← happend, List.append_assoc]
    · rw [Place.after_append, ← hplace]
      rfl
    · simp [List.getLast?_append, hlast]
  · obtain ⟨rfl, -⟩ : _ = e ∧ _ := by simpa using h
    exact c.cuts_skipTrivia

private theorem Fails.cuts {e : LexError} (h : c.Fails e) : c.Cuts ⟨e.span.line, e.span.col⟩ := by
  induction h with
  | here h => exact cuts_of_scan_error h
  | later h _ ih => exact ih.of_scan h

end Cursor

/-- A plain text has no byte-order mark at its start. -/
theorem Cursor.dropMark_of_isPlain {text : List Char} (h : Text.IsPlain text) :
    dropMark text = text := by
  obtain ⟨mark, htext, rfl | rfl⟩ := dropMark_spec text
  · exact htext.symm
  · obtain ⟨hbyte, -⟩ := h byteOrderMark (by rw [htext]; simp)
    exact absurd hbyte (by decide)

/-- **Every error is at a place of the text.** -/
theorem Compiler.cuts_of_error {o : CompileOptions} {source : String} {e : Error} {span : Span}
    (h : Compiler.compile o source = .error e) (hspan : e.span? = some span) :
    (Cursor.ofText source.toList o.tabWidth).Cuts ⟨span.line, span.col⟩ := by
  have htoken : span.StartsAt (Lexer.ofString source o.tabWidth).tokens →
      (Cursor.ofText source.toList o.tabWidth).Cuts ⟨span.line, span.col⟩ := by
    rintro ⟨t, ht, hline, hcol⟩
    rw [hline, hcol]
    exact Cursor.cuts_of_mem_tokens _ t ht
  rcases Compiler.compile_eq_error h with
    ⟨cause, hparse, rfl⟩ | ⟨p, hparse, ⟨cause, hanalyze, rfl⟩ | ⟨r, hanalyze, cause, hcode, rfl⟩⟩
  · cases cause with
    | lex cause =>
        obtain rfl := Option.some.inj hspan
        exact (Program.fails_of_lex_error hparse).cuts
    | parse cause =>
        obtain rfl := Option.some.inj hspan
        obtain ⟨t, ht, hsame⟩ := Program.mem_tokens_of_parse_error hparse
        exact htoken ⟨t, ht, by rw [hsame], by rw [hsame]⟩
  · obtain rfl := Option.some.inj hspan
    exact htoken ((Program.analyze_blames (Program.allAt_of_parse hparse).2).1 cause hanalyze)
  · obtain rfl := Option.some.inj hspan
    obtain ⟨hwhole, hnodes⟩ := Program.allAt_of_parse hparse
    have hsymbols := (Program.analyze_blames hnodes).2 r hanalyze
    exact htoken (Codegen.generate_failsAt hsymbols hwhole hnodes cause hcode)

/-! ### What is shown

What is rendered is compared as lists of characters.  Both margins are definitions of their
own, so that the widths can be computed apart from the line and the caret: `length_gutter`
has a maximum in it, `margin` has four characters, and the difference is how far off the
caret is.
-/

namespace Diagnostic

/-- What stands before a quoted line. -/
def gutter (span : Span) : List Char := (lineNumber span.line ++ " | ").toList

/-- What stands before a caret. -/
def margin : List Char := "  | ".toList

private theorem toList_pushn (c : Char) (n : Nat) : ("".pushn c n).toList = List.replicate n c := by
  unfold String.pushn
  induction n with
  | zero => rfl
  | succ n ih => rw [Nat.repeat, String.toList_push, ih, List.replicate_succ']

private theorem toList_lineNumber (n : Nat) :
    (lineNumber n).toList =
      List.replicate (3 - (toString n).length) ' ' ++ (toString n).toList := by
  rw [lineNumber, String.toList_append, toList_pushn]

/-- The gutter has room for the line number, and for three digits at least. -/
theorem length_gutter (span : Span) :
    (gutter span).length = max 3 (toString span.line).length + 3 := by
  have hbar : " | ".toList.length = 3 := by decide
  rw [gutter, String.toList_append, List.length_append, toList_lineNumber, List.length_append,
    List.length_replicate, String.length_toList, hbar]
  omega

private theorem newline_not_mem_gutter (span : Span) : '\n' ∉ gutter span := by
  have hdigits : '\n' ∉ Nat.toDigits 10 span.line := by
    intro h
    exact absurd (Nat.isDigit_of_mem_toDigits (by decide) (Nat.le_refl 10) h) (by decide)
  rw [gutter, String.toList_append, toList_lineNumber]
  simp [hdigits]

/-- The line below a quoted line, with the caret. -/
def pointing (span : Span) : List Char := margin ++ (pointer span).toList

/-- The caret with its tildes stands behind as many blanks as there are columns before it. -/
theorem pointing_eq (span : Span) :
    pointing span = margin ++ (List.replicate (span.col - 1) ' ' ++
      '^' :: List.replicate (span.len - 1) '~') := by
  rw [pointing, pointer, String.toList_append, String.toList_append, toList_pushn, toList_pushn]
  simp

private theorem idxOf_caret (span : Span) : (pointing span).idxOf '^' = 4 + (span.col - 1) := by
  have hmargin : '^' ∉ margin := by decide
  have hblanks : '^' ∉ List.replicate (span.col - 1) ' ' := by simp
  rw [pointing_eq, List.idxOf_append_of_notMem hmargin, List.idxOf_append_of_notMem hblanks,
    List.idxOf_cons_self, List.length_replicate]
  rfl

/-- What is shown of an error on a line of the text. -/
theorem toList_render {d : Diagnostic} {source : String} {span : Span} {line : List Char}
    (hspan : d.error.span? = some span)
    (hline : (Text.lines source.toList)[span.line - 1]? = some line) :
    (d.render source).toList = ("error: " ++ d.message ++ "\n  |").toList ++
      '\n' :: (gutter span ++ line) ++ '\n' :: pointing span ++ ['\n'] := by
  simp only [render, hspan, hline, excerpt, gutter, pointing, margin, String.toList_append,
    String.toList_ofList]
  simp

/--
**The caret stands left of the column it is for.**  Take any error of compiling a text without
tabs whose characters have one byte each, on a line that the text has.  The line is quoted
as it is, and the column of the error is one of its columns or the one just behind them.
On the next line of the output there is one caret, and the right number of tildes behind
it; but it stands before the quoted character, by two places and by more if the line number
has more than three digits.
-/
theorem caret_left_of_column {o : CompileOptions} {source : String} {e : Error} {span : Span}
    {line : List Char} (file : String) (hplain : Text.IsPlain source.toList)
    (herror : Compiler.compile o source = .error e) (hspan : e.span? = some span)
    (hline : (Text.lines source.toList)[span.line - 1]? = some line) :
    ((⟨file, e⟩ : Diagnostic).render source).toList =
        ("error: " ++ (⟨file, e⟩ : Diagnostic).message ++ "\n  |").toList ++
          '\n' :: (gutter span ++ line) ++ '\n' :: pointing span ++ ['\n'] ∧
      '\n' ∉ gutter span ++ line ∧
      (∃ before rest, line = before ++ rest ∧ span.col = before.length + 1) ∧
      pointing span = margin ++ (List.replicate (span.col - 1) ' ' ++
        '^' :: List.replicate (span.len - 1) '~') ∧
      (pointing span).idxOf '^' + (max 3 (toString span.line).length - 1) =
        (gutter span).length + (span.col - 1) := by
  obtain ⟨before, rest, htext, hplace, hend⟩ := Compiler.cuts_of_error herror hspan
  have htext : source.toList = before ++ rest := by
    rw [← htext]
    exact (Cursor.dropMark_of_isPlain hplain).symm
  have hbefore : Text.IsPlain before := fun c hc => hplain c (by simp [htext, hc])
  have hplace : (⟨span.line, span.col⟩ : Place) =
      ⟨1 + before.count '\n', 1 + (Place.lastLine before).length⟩ := by
    rw [hplace, ← Place.behind_of_isPlain (max o.tabWidth 1) hbefore]
    exact Place.after_start _ before
  obtain ⟨hrow, hcol⟩ := Place.mk.inj hplace
  have hfound : (Text.lines (before ++ rest))[before.count '\n']? = some line := by
    rw [← htext, ← hline, hrow, Nat.add_sub_cancel_left]
  obtain ⟨tail, -, hfeed, rfl⟩ := Text.line_at hfound fun hhead hlast => by
    obtain ⟨last, hlast', hne⟩ := hend hhead
    exact hne (Option.some.inj (hlast'.symm.trans hlast))
  refine ⟨toList_render hspan hline, ?_, ⟨_, tail, rfl, ?_⟩, pointing_eq span, ?_⟩
  · simp [newline_not_mem_gutter, Place.newline_not_mem_lastLine, hfeed]
  · rw [hcol, Nat.add_comm]
  · rw [idxOf_caret, length_gutter]
    omega

/-- An unknown name behind a line that ends with a carriage return: the caret is two places off. -/
theorem caret_left_of_unknown_name :
    ∃ e, Compiler.compile .default "r0 = 1;\r\nr1 = foo;" = .error e ∧
      e.span? = some ⟨2, 6, 3⟩ ∧
      ((⟨"t", e⟩ : Diagnostic).render "r0 = 1;\r\nr1 = foo;").toList =
        "error: at t:2:6: identifier 'foo' not found\n  |".toList ++
          '\n' :: (gutter ⟨2, 6, 3⟩ ++ "r1 = foo;".toList) ++
          '\n' :: pointing ⟨2, 6, 3⟩ ++ ['\n'] ∧
      pointing ⟨2, 6, 3⟩ = "  |      ^~~".toList ∧
      (pointing ⟨2, 6, 3⟩).idxOf '^' + 2 = (gutter ⟨2, 6, 3⟩).length + 5 := by
  have herror : (Compiler.compile .default "r0 = 1;\r\nr1 = foo;").map (fun _ => ()) =
      .error (.semantic (.identifierNotFound ⟨2, 6, 3⟩ "foo")) := by
    decide +kernel
  have hplain : Text.IsPlain "r0 = 1;\r\nr1 = foo;".toList := by decide +kernel
  have hline : (Text.lines "r0 = 1;\r\nr1 = foo;".toList)[1]? = some "r1 = foo;".toList := by
    decide +kernel
  cases hcompile : Compiler.compile .default "r0 = 1;\r\nr1 = foo;" with
  | ok image =>
      rw [hcompile] at herror
      cases herror
  | error e =>
      rw [hcompile] at herror
      obtain rfl := Except.error.inj herror
      obtain ⟨hshown, -, -, hpointing, hcaret⟩ :=
        caret_left_of_column "t" hplain hcompile rfl hline
      exact ⟨_, rfl, rfl, hshown, hpointing, hcaret⟩

/-- The caret for a character at the start of a line stands two places before it. -/
theorem caret_left_of_stray_character :
    (Compiler.compile .default "@").map (fun _ => ()) =
        .error (.lex (.unexpectedCharacter ⟨1, 1, 1⟩ '@')) ∧
      Diagnostic.render ⟨"t", .lex (.unexpectedCharacter ⟨1, 1, 1⟩ '@')⟩ "@" =
        "error: at t:1:1: unexpected character '@'\n" ++ "  |\n" ++ "  1 | @\n" ++ "  | ^\n" ∧
      "  1 | @".toList.idxOf '@' = 6 ∧ "  | ^".toList.idxOf '^' = 4 := by
  decide +kernel

end Diagnostic

end StackCode
