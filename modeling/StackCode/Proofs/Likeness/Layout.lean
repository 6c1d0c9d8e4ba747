/-
The layout of a text does not show in its image.

Blanks, comments and tab stops decide where tokens stand and nothing else.  Tokens that
follow each other in a text start at different places, so pairing the tokens of two texts in
order gives a `Matching` (`Matching.ofPairs`): names at one place in the one text are at one
place in the other.  Everything after the lexer keeps it.

Lines go into line tables, so with those the texts must also agree on lines.  One text under
two tab widths does, because only a line feed ends a line (`Cursor.Same`).
-/
import Mathlib.Data.List.Pairwise
import StackCode.Proofs.Likeness.Codegen
import StackCode.Proofs.Likeness.Parsing
import StackCode.Proofs.Recognition.Program

namespace StackCode

/-- The same token in two texts; on the same line too, if lines are kept. -/
structure Token.Same (lines : Prop) (t t' : Token) : Prop where
  kind : t.kind = t'.kind
  lexeme : t.lexeme = t'.lexeme
  line : lines → t.span.line = t'.span.line

/-! ### One text under two tab widths

The tab width shows in columns and nowhere else.  `Cursor.Same` is what two cursors keep in
common along the text, the rest and the line, and the tokens they come to are the same on
the same line.
-/

namespace Place

variable {p p' : Place}

private theorem line_next_eq (h : p.line = p'.line) (w w' : Nat) (c : Char) :
    (p.next w c).line = (p'.next w' c).line := by
  have hline : ∀ (w : Nat) (p : Place),
      (p.next w c).line = if c = '\n' then p.line + 1 else p.line := by
    intro w p
    unfold next
    split
    · rfl
    · split <;> rfl
  rw [hline, hline, h]

private theorem line_after_eq (w w' : Nat) (cs : List Char) :
    ∀ {p p' : Place}, p.line = p'.line → (p.after w cs).line = (p'.after w' cs).line := by
  induction cs with
  | nil => exact fun h => h
  | cons c cs ih => exact fun h => ih (line_next_eq h w w' c)

end Place

namespace Cursor

/-- The same text is left, from the same line on. -/
structure Same (c c' : Cursor) : Prop where
  rest : c.rest = c'.rest
  line : c.place.line = c'.place.line

private theorem skipTriviaFrom_same (w w' : Nat) (inComment : Bool) (p p' : Place) (cs : List Char)
    (h : p.line = p'.line) :
    (skipTriviaFrom w inComment p cs).2 = (skipTriviaFrom w' inComment p' cs).2 ∧
      (skipTriviaFrom w inComment p cs).1.line = (skipTriviaFrom w' inComment p' cs).1.line := by
  fun_induction skipTriviaFrom w inComment p cs generalizing p' with
  | case1 => exact ⟨rfl, h⟩
  | case2 p c cs ih =>
      rw [skipTriviaFrom]
      exact ih _ (Place.line_next_eq h ..)
  | case3 p c cs hblank ih =>
      rw [skipTriviaFrom, if_pos hblank]
      exact ih _ (Place.line_next_eq h ..)
  | case4 p c cs hblank hcomment ih =>
      rw [skipTriviaFrom, if_neg hblank, if_pos hcomment]
      exact ih _ (Place.line_next_eq h ..)
  | case5 p c cs hblank hcomment =>
      rw [skipTriviaFrom, if_neg hblank, if_neg hcomment]
      exact ⟨rfl, h⟩

variable {c c' : Cursor}

theorem Same.advance (h : c.Same c') (taken rest : List Char) :
    (c.advance taken rest).Same (c'.advance taken rest) :=
  ⟨rfl, Place.line_after_eq _ _ taken h.line⟩

/-- Both cursors come to the same token, or both to none. -/
theorem Same.scan (h : c.Same c') :
    (∃ e e', c.scan.1 = .error e ∧ c'.scan.1 = .error e') ∨
      ∃ t t' d d', c.scan = (.ok t, d) ∧ c'.scan = (.ok t', d') ∧ t.Same True t' ∧ d.Same d' := by
  have hskip : c.skipTrivia.Same c'.skipTrivia := by
    obtain ⟨hrest, hline⟩ :=
      skipTriviaFrom_same c.tabWidth c'.tabWidth false c.place c'.place c.rest h.line
    refine ⟨?_, ?_⟩
    · simp only [skipTrivia, ← h.rest]
      exact hrest
    · simp only [skipTrivia, ← h.rest]
      exact hline
  unfold Cursor.scan scanHere
  rw [← hskip.rest]
  cases Lexeme.read c.skipTrivia.rest with
  | nothing => exact .inr ⟨_, _, _, _, rfl, rfl, ⟨rfl, rfl, fun _ => hskip.line⟩, hskip⟩
  | token kind text rest =>
      exact .inr ⟨_, _, _, _, rfl, rfl, ⟨rfl, rfl, fun _ => hskip.line⟩, hskip.advance text rest⟩
  | incomplete => exact .inl ⟨_, _, rfl, rfl⟩
  | stray => exact .inl ⟨_, _, rfl, rfl⟩

theorem Same.tokens (h : c.Same c') : List.Forall₂ (Token.Same True) c.tokens c'.tokens := by
  fun_induction Cursor.tokens c generalizing c' with
  | case1 c e d hscan =>
      obtain ⟨_, e', -, herror⟩ | ⟨t, _, _, _, hok, -⟩ := h.scan
      · rw [tokens_of_scan_error (Prod.ext herror rfl)]
        exact .nil
      · rw [hscan] at hok
        simp at hok
  | case2 c t d hscan ht =>
      obtain ⟨e, _, herror, -⟩ | ⟨u, t', _, d', hok, hscan', hsame, -⟩ := h.scan
      · simp [hscan] at herror
      · simp only [hscan, Prod.mk.injEq, Except.ok.injEq] at hok
        obtain ⟨rfl, rfl⟩ := hok
        rw [tokens_of_scan hscan', if_pos (hsame.kind ▸ ht)]
        exact .cons hsame .nil
  | case3 c t d hscan ht ih =>
      obtain ⟨e, _, herror, -⟩ | ⟨u, t', _, d', hok, hscan', hsame, hrest⟩ := h.scan
      · simp [hscan] at herror
      · simp only [hscan, Prod.mk.injEq, Except.ok.injEq] at hok
        obtain ⟨rfl, rfl⟩ := hok
        rw [tokens_of_scan hscan', if_neg (hsame.kind ▸ ht)]
        exact .cons hsame (ih hrest)

end Cursor

/-! ### The end of a text

A text without bad characters is what is asked for in the end, said by `drain`; the
relations of parsing ask for a last token that is the end of the text.
-/

namespace Lexer

theorem tokens_of_drain {source : String} {w : Nat} {ts : List Token} {l : Lexer}
    (h : (ofString source w).drain = (ts, none, l)) :
    ∃ e, (ofString source w).tokens = ts ++ [e] ∧ e.kind = .eof ∧ e.lexeme = "" := by
  have hbound : (ofString source w).bound = (Cursor.ofText source.toList w).rest.length :=
    Nat.zero_add _
  obtain ⟨e, hnext⟩ : ∃ e, next l = .ok e l := by
    have hdrain := h
    rw [drain, hbound] at hdrain
    exact exists_next_of_drainFrom _ (Nat.lt_succ_self _) hdrain
  obtain ⟨htokens, he⟩ := drain_eq_iff.mp ⟨l, h, hnext⟩
  refine ⟨e, htokens, he, Cursor.lexeme_of_mem_tokens (Cursor.ofText source.toList w) e ?_ he⟩
  rw [← tokens_ofText, htokens]
  exact List.mem_append_right _ (List.mem_singleton_self e)

theorem tokens_pairwise (source : String) (w : Nat) :
    (ofString source w).tokens.Pairwise fun t u => t.span.key < u.span.key :=
  Cursor.tokens_pairwise (Cursor.ofText source.toList w) (Nat.le_max_right w 1)

end Lexer

/-! ### Matching tokens in order

A pair is found by either of its two places, since tokens are in strict order on both sides.
This is all that `span_eq_iff` says.
-/

/-- Tokens correspond to each other in order, and each starts after the one before it. -/
def Matching.ofPairs (lines : Prop) (pairs : List (Token × Token))
    (hsame : ∀ x ∈ pairs, x.1.Same lines x.2)
    (horder : pairs.Pairwise fun x y => x.1.span.key < y.1.span.key)
    (horder' : pairs.Pairwise fun x y => x.2.span.key < y.2.span.key) : Matching where
  lines := lines
  Name a b := ∃ x ∈ pairs, a = ⟨x.1.lexeme, x.1.span⟩ ∧ b = ⟨x.2.lexeme, x.2.span⟩
  name_eq := by
    rintro _ _ ⟨x, hx, rfl, rfl⟩
    exact (hsame x hx).lexeme
  line_eq := by
    rintro _ _ ⟨x, hx, rfl, rfl⟩ hlines
    exact (hsame x hx).line hlines
  span_eq_iff := by
    rintro _ _ _ _ ⟨x, hx, rfl, rfl⟩ ⟨y, hy, rfl, rfl⟩
    -- Different pairs differ in both places, so each place tells which pair it is of.
    have hapart : pairs.Pairwise fun x y => x.1.span ≠ y.1.span ∧ x.2.span ≠ y.2.span := by
      refine (horder.and horder').imp fun {x y} h => ⟨fun heq => ?_, fun heq => ?_⟩
      · exact absurd h.1 (by rw [heq]; exact lt_irrefl _)
      · exact absurd h.2 (by rw [heq]; exact lt_irrefl _)
    by_cases hxy : x = y
    · subst hxy
      exact ⟨fun _ => rfl, fun _ => rfl⟩
    · have : Std.Symm fun x y : Token × Token => x.1.span ≠ y.1.span ∧ x.2.span ≠ y.2.span :=
        ⟨fun _ _ h => ⟨h.1.symm, h.2.symm⟩⟩
      obtain ⟨hne, hne'⟩ := hapart.forall hx hy hxy
      exact ⟨fun heq => absurd heq hne, fun heq => absurd heq hne'⟩

/-- Texts with the same tokens are matched by them. -/
theorem exists_matching {lines : Prop} {ts ts' : List Token}
    (h : List.Forall₂ (Token.Same lines) ts ts')
    (horder : ts.Pairwise fun t u => t.span.key < u.span.key)
    (horder' : ts'.Pairwise fun t u => t.span.key < u.span.key) :
    ∃ M : Matching, M.lines = lines ∧ List.Forall₂ (TokenAlike M) ts ts' := by
  obtain ⟨hlen, hpairs⟩ := List.forall₂_iff_zip.mp h
  have hsame : ∀ x ∈ ts.zip ts', x.1.Same lines x.2 := fun _ hx => hpairs hx
  have hzip : (ts.zip ts').Pairwise fun x y => x.1.span.key < y.1.span.key := by
    rw [← List.map_fst_zip hlen.le] at horder
    rwa [List.pairwise_map] at horder
  have hzip' : (ts.zip ts').Pairwise fun x y => x.2.span.key < y.2.span.key := by
    rw [← List.map_snd_zip hlen.ge] at horder'
    rwa [List.pairwise_map] at horder'
  refine ⟨.ofPairs lines (ts.zip ts') hsame hzip hzip', rfl, List.forall₂_iff_zip.mpr ⟨hlen, ?_⟩⟩
  intro t t' ht
  have hboth := hpairs ht
  exact ⟨hboth.kind, hboth.lexeme, hboth.line, fun _ => ⟨(t, t'), ht, rfl, rfl⟩⟩

/-! ### Whole texts

`compile` is parsing, analysis and code generation in a row, and each has a lemma that takes
likeness to likeness.  If one of them fails, both texts fail in it with the same error up to
its place.  A text with a bad character has no last token that is the end of the text, and
is left out by `htokens`.
-/

namespace Compiler

variable {source source' : String} {o o' : CompileOptions}

/-- Texts with the same tokens compile alike. -/
theorem compile_alike {lines : Prop} {ts : List Token} {e : Token}
    (ho : Codegen.OptionsAlike o o') (hlines : o.debugLines = true → lines)
    (htokens : (Lexer.ofString source o.tabWidth).tokens = ts ++ [e]) (he : e.kind = .eof)
    (hsame : List.Forall₂ (Token.Same lines) (Lexer.ofString source o.tabWidth).tokens
      (Lexer.ofString source' o'.tabWidth).tokens) :
    ExceptAlike (fun e e' => e.unplaced = e'.unplaced) Eq (compile o source)
      (compile o' source') := by
  obtain ⟨M, rfl, halike⟩ := exists_matching hsame (Lexer.tokens_pairwise ..)
    (Lexer.tokens_pairwise ..)
  have hparse := Program.parse_alike htokens he halike
  refine (hparse.mapError ?_).bind fun {p p'} hp => ?_
  · rintro (e | e) (e' | e') h
    · exact congrArg Error.lex (SourceError.lex.inj h)
    · simp [SourceError.Same, SourceError.unplaced] at h
    · simp [SourceError.Same, SourceError.unplaced] at h
    · exact congrArg Error.parse (SourceError.parse.inj h)
  refine ((Program.analyze_alike hp).mapError ?_).bind fun {r r'} hr => ?_
  · exact fun h => congrArg Error.semantic h
  refine (Codegen.generate_alike ho hlines hr hp).mapError ?_
  exact fun h => congrArg Error.codegen h

private theorem compile_of_tabWidth {w w' : Nat} {debugLines : Bool} {maxSections : UInt16}
    {image : Image} (h : compile ⟨w, debugLines, maxSections⟩ source = .ok image) :
    compile ⟨w', debugLines, maxSections⟩ source = .ok image := by
  obtain ⟨p, hparse, -⟩ := Sequencing.except_bind_eq_ok.mp h
  obtain ⟨ts, e, htokens, he⟩ :=
    Program.tokens_of_parse (Sequencing.except_mapError_eq_ok.mp hparse)
  have hsame : (Cursor.ofText source.toList w).Same (Cursor.ofText source.toList w') := ⟨rfl, rfl⟩
  have halike : ExceptAlike (fun e e' => e.unplaced = e'.unplaced) Eq
      (compile ⟨w, debugLines, maxSections⟩ source)
      (compile ⟨w', debugLines, maxSections⟩ source) :=
    compile_alike ⟨rfl, rfl⟩ (fun _ => trivial) htokens he hsame.tokens
  rw [h] at halike
  generalize compile ⟨w', debugLines, maxSections⟩ source = result at halike
  cases halike with
  | ok himage => rw [himage]

/--
**The layout of a text does not show in its image.**  Texts with the same tokens have the same
image without line tables, or else the same error up to its place; and the tab width of a text
does not show in its image at all.
-/
theorem compile_eq_of_tokens_eq :
    (∀ (source source' : String) (w w' : Nat) (maxSections : UInt16) (ts ts' : List Token)
        (l l' : Lexer),
      (Lexer.ofString source w).drain = (ts, none, l) →
      (Lexer.ofString source' w').drain = (ts', none, l') →
      ts.map (fun t => (t.kind, t.lexeme)) = ts'.map (fun t => (t.kind, t.lexeme)) →
      (compile ⟨w, false, maxSections⟩ source).mapError Error.unplaced =
        (compile ⟨w', false, maxSections⟩ source').mapError Error.unplaced) ∧
    ∀ (source : String) (w w' : Nat) (debugLines : Bool) (maxSections : UInt16) (image : Image),
      compile ⟨w, debugLines, maxSections⟩ source = .ok image ↔
        compile ⟨w', debugLines, maxSections⟩ source = .ok image := by
  refine ⟨?_, ?_⟩
  · intro source source' w w' maxSections ts ts' l l' hdrain hdrain' hmap
    obtain ⟨e, htokens, he, hlexeme⟩ := Lexer.tokens_of_drain hdrain
    obtain ⟨e', htokens', he', hlexeme'⟩ := Lexer.tokens_of_drain hdrain'
    have hsame : List.Forall₂ (Token.Same False) (Lexer.ofString source w).tokens
        (Lexer.ofString source' w').tokens := by
      rw [htokens, htokens']
      refine List.rel_append ?_ (.cons ⟨he.trans he'.symm, hlexeme.trans hlexeme'.symm, nofun⟩ .nil)
      rw [← List.forall₂_eq_eq_eq, List.forall₂_map_left_iff, List.forall₂_map_right_iff] at hmap
      exact hmap.imp fun _ _ h => ⟨(Prod.mk.inj h).1, (Prod.mk.inj h).2, nofun⟩
    have halike : ExceptAlike (fun e e' => e.unplaced = e'.unplaced) Eq
        (compile ⟨w, false, maxSections⟩ source) (compile ⟨w', false, maxSections⟩ source') :=
      compile_alike ⟨rfl, rfl⟩ nofun htokens he hsame
    exact halike.mapError_eq
  · intro source w w' debugLines maxSections image
    exact ⟨compile_of_tabWidth, compile_of_tabWidth⟩

/-- A loop on one line. -/
def narrow : String := "var n = 3; while n > 0 { n -= 1; }"

/-- The same loop with room around it. -/
def wide : String := "// count down\nvar n\t= 3;\n\nwhile n > 0\n\x7b\n\tn -= 1;\n\x7d\n"

/-- The two loops have the same image, and a tab width of eight changes nothing. -/
theorem narrow_compile_eq_wide :
    (compile ⟨4, false, 16⟩ narrow).mapError Error.unplaced =
        (compile ⟨8, false, 16⟩ wide).mapError Error.unplaced ∧
      (compile ⟨4, true, 16⟩ wide).isOk = true ∧
      ∀ image, compile ⟨4, true, 16⟩ wide = .ok image ↔ compile ⟨8, true, 16⟩ wide = .ok image := by
  have hnarrow : (Lexer.ofString narrow 4).drain.2.1 = none := by decide +kernel
  have hwide : (Lexer.ofString wide 8).drain.2.1 = none := by decide +kernel
  have hsame : (Lexer.ofString narrow 4).drain.1.map (fun t => (t.kind, t.lexeme)) =
      (Lexer.ofString wide 8).drain.1.map fun t => (t.kind, t.lexeme) := by decide +kernel
  have hall : ∀ l : Lexer, l.drain.2.1 = none → l.drain = (l.drain.1, none, l.drain.2.2) :=
    fun l h => Prod.ext rfl (Prod.ext h rfl)
  have hok : (compile ⟨4, true, 16⟩ wide).isOk = true := by decide +kernel
  exact ⟨compile_eq_of_tokens_eq.1 narrow wide 4 8 16 _ _ _ _ (hall _ hnarrow) (hall _ hwide) hsame,
    hok, compile_eq_of_tokens_eq.2 wide 4 8 true 16⟩

end Compiler

end StackCode
