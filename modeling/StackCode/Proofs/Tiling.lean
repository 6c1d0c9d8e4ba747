/-
Tokens tile the text.

A text that is read to its end falls into tokens and what stands between them: blanks,
and comments that run up to the end of their lines.  Nothing is lost and nothing is
read twice.  A cursor keeps its place as it goes, one character at a time; here the
place of a token is read off the text before it, without going along: its line is one
more than the number of line feeds, and its column is counted over what stands before
it on its own line.

A byte-order mark at the very start is no part of what is tiled, and takes no column.

Places are counted without a limit.  `Cursor.spans_fit` says for which texts counters of 32 bits
are as good.
-/
import Mathlib.Data.List.DropRight
import StackCode.Proofs.Spelling

namespace StackCode

/-! ### Places read off the text before them

`Place.after` goes along a text.  `behind` does not: it counts line feeds and looks at the
last line alone.  The two agree from the start of a text on, and `after_start` says so by
taking characters off the end.
-/

namespace Place

/-- The column behind a character that ends no line. -/
def nextColumn (w col : Nat) (c : Char) : Nat :=
  if c = '\t' then ((col - 1) / w + 1) * w + 1 else col + c.utf8Size

/-- The part of a text that stands on its last line. -/
def lastLine (text : List Char) : List Char := text.rtakeWhile (· != '\n')

/-- The place behind a text: its line feeds are counted, and the columns of its last line. -/
def behind (w : Nat) (text : List Char) : Place :=
  ⟨1 + text.count '\n', (lastLine text).foldl (nextColumn w) 1⟩

/-- Going along a text character by character leads to the place behind it. -/
theorem after_start (w : Nat) (text : List Char) : start.after w text = behind w text := by
  induction text using List.reverseRecOn with
  | nil => rfl
  | append_singleton text c ih =>
      rw [after_append, ih, after_cons, after_nil]
      unfold next behind lastLine
      rw [List.count_append, List.count_singleton, List.rtakeWhile_concat]
      by_cases hline : c = '\n'
      · simp [hline, Nat.add_assoc]
      · have hfeed : (c == '\n') = false := beq_false_of_ne hline
        have hkeep : (c != '\n') = true := bne_iff_ne.mpr hline
        simp only [hline, hfeed, hkeep, if_true, if_false, Bool.false_eq_true, List.foldl_append,
          List.foldl_cons, List.foldl_nil, nextColumn, Nat.add_zero]
        by_cases htab : c = '\t'
        · rw [if_pos htab, if_pos htab]
        · rw [if_neg htab, if_neg htab]

end Place

/-! ### What stands between tokens

`skipTriviaFrom` has a flag for being inside a comment, and `Skipped` has a case for each
value of it.  `Trivia` knows what follows: whether two strokes and what is behind them are a
comment that is over depends on the line ending there.
-/

/-- The text is over, or the line is. -/
def EndsLine (text : List Char) : Prop := text = [] ∨ ∃ more, text = '\n' :: more

/-- Blanks and comments in front of `rest`.  A comment goes on up to the end of its line. -/
inductive Trivia (rest : List Char) : List Char → Prop where
  | nil : Trivia rest []
  | blank {c : Char} {gap : List Char} (hc : c = ' ' ∨ c = '\t' ∨ c = '\r' ∨ c = '\n')
      (h : Trivia rest gap) : Trivia rest (c :: gap)
  | comment {body gap : List Char} (hbody : '\n' ∉ body) (hstop : EndsLine (gap ++ rest))
      (h : Trivia rest gap) : Trivia rest ('/' :: '/' :: (body ++ gap))

namespace Cursor

/-- What is skipped in front of `rest`: first the end of a comment, if one is under way. -/
def Skipped (inComment : Bool) (rest gap : List Char) : Prop :=
  if inComment then
    ∃ body more, gap = body ++ more ∧ '\n' ∉ body ∧ EndsLine (more ++ rest) ∧ Trivia rest more
  else Trivia rest gap

private theorem skipTriviaFrom_spec (w : Nat) (inComment : Bool) (p : Place) (cs : List Char) :
    ∃ gap, cs = gap ++ (skipTriviaFrom w inComment p cs).2 ∧
      (skipTriviaFrom w inComment p cs).1 = p.after w gap ∧
      Skipped inComment (skipTriviaFrom w inComment p cs).2 gap := by
  fun_induction skipTriviaFrom w inComment p cs with
  | case1 inComment p =>
      refine ⟨[], rfl, rfl, ?_⟩
      cases inComment with
      | false => exact .nil
      | true => exact ⟨[], [], rfl, by simp, .inl rfl, .nil⟩
  | case2 p c cs ih =>
      obtain ⟨gap, hcs, hplace, hskipped⟩ := ih
      refine ⟨c :: gap, congrArg (c :: ·) hcs, hplace, ?_⟩
      by_cases hline : c = '\n'
      · -- The comment ends here, and the line feed is a blank behind it.
        subst hline
        exact ⟨[], '\n' :: gap, rfl, by simp, .inr ⟨_, rfl⟩, .blank (by simp) hskipped⟩
      · have hgoes : (c != '\n') = true := by simpa using hline
        rw [hgoes] at hskipped hcs
        obtain ⟨body, more, rfl, hbody, hstop, hmore⟩ := hskipped
        rw [hgoes]
        exact ⟨c :: body, more, rfl, by simp [hbody, Ne.symm hline], hstop, hmore⟩
  | case3 p c cs hblank ih =>
      obtain ⟨gap, hcs, hplace, hskipped⟩ := ih
      refine ⟨c :: gap, congrArg (c :: ·) hcs, hplace, .blank ?_ hskipped⟩
      simpa [isBlank, or_assoc] using hblank
  | case4 p c cs _ hcomment ih =>
      obtain ⟨gap, hcs, hplace, body, more, rfl, hbody, hstop, hmore⟩ := ih
      obtain ⟨rfl, hhead⟩ := hcomment
      refine ⟨'/' :: (body ++ more), congrArg ('/' :: ·) hcs, hplace, ?_⟩
      -- The second stroke is in the comment, because a line does not end before it.
      rw [hcs] at hhead
      cases body with
      | nil =>
          rw [List.nil_append] at hhead
          rcases hstop with hnil | ⟨_, hline⟩
          · simp [hnil] at hhead
          · simp [hline] at hhead
      | cons d body =>
          obtain rfl : d = '/' := by simpa using hhead
          exact .comment (fun hmem => hbody (List.mem_cons_of_mem _ hmem)) hstop hmore
  | case5 p c cs _ _ => exact ⟨[], rfl, rfl, .nil⟩

/-- A cursor skips what stands before the next token, and keeps its place on the way. -/
theorem skipTrivia_spec (c : Cursor) :
    ∃ gap, c.rest = gap ++ c.skipTrivia.rest ∧
      c.skipTrivia.place = c.place.after c.tabWidth gap ∧ Trivia c.skipTrivia.rest gap :=
  skipTriviaFrom_spec c.tabWidth false c.place c.rest

end Cursor

/-! ### Tokens in their places

`Tiled` carries the text before along, since places are counted from its start.  The last
token is the end, with an empty lexeme.
-/

/-- The token stands where a text before it ends, and is as long as its lexeme. -/
structure Token.StandsBehind (w : Nat) (before : List Char) (t : Token) : Prop where
  line : t.span.line = 1 + before.count '\n'
  col : t.span.col = (Place.lastLine before).foldl (Place.nextColumn w) 1
  len : t.span.len = t.lexeme.utf8ByteSize

/--
The tokens, with blanks and comments between them, are all of `rest`, and each of them
stands behind `before` and what comes before it in `rest`.  The last one is the end.
-/
inductive Tiled (w : Nat) : (before rest : List Char) → List Token → Prop where
  | toEnd {before gap : List Char} {t : Token} (hgap : Trivia [] gap) (hkind : t.kind = .eof)
      (hlexeme : t.lexeme = "") (hplace : t.StandsBehind w (before ++ gap)) :
      Tiled w before gap [t]
  | token {before gap rest : List Char} {t : Token} {ts : List Token}
      (hgap : Trivia (t.lexeme.toList ++ rest) gap)
      (htoken : Lexeme.IsToken t.kind t.lexeme.toList)
      (hplace : t.StandsBehind w (before ++ gap))
      (hrest : Tiled w (before ++ gap ++ t.lexeme.toList) rest ts) :
      Tiled w before (gap ++ (t.lexeme.toList ++ rest)) (t :: ts)

namespace Cursor

/-- What was scanned: a gap, and behind it a token or the end of the text. -/
theorem scan_spec {c c' : Cursor} {t : Token} (h : c.scan = (.ok t, c')) :
    ∃ gap, c.rest = gap ++ (t.lexeme.toList ++ c'.rest) ∧
      Trivia (t.lexeme.toList ++ c'.rest) gap ∧
      t.span = c.skipTrivia.spanOf t.lexeme ∧
      c.skipTrivia.place = c.place.after c.tabWidth gap ∧
      c'.place = c.place.after c.tabWidth (gap ++ t.lexeme.toList) ∧ c'.tabWidth = c.tabWidth ∧
      (t.kind = .eof ∧ t.lexeme = "" ∧ c'.rest = [] ∨ Lexeme.IsToken t.kind t.lexeme.toList) := by
  obtain ⟨gap, hrest, hplace, hgap⟩ := c.skipTrivia_spec
  simp only [scan, scanHere] at h
  split at h
  · rename_i hread
    have hnil := Lexeme.eq_nil_of_read hread
    simp only [Prod.mk.injEq, Except.ok.injEq] at h
    obtain ⟨rfl, rfl⟩ := h
    refine ⟨gap, hrest, hgap, rfl, hplace, ?_, rfl, .inl ⟨rfl, rfl, hnil⟩⟩
    rw [hplace]
    exact congrArg (c.place.after c.tabWidth) (List.append_nil gap).symm
  · rename_i kind text rest hread
    obtain ⟨happend, -⟩ := Lexeme.append_of_read hread
    simp only [Prod.mk.injEq, Except.ok.injEq] at h
    obtain ⟨rfl, rfl⟩ := h
    rw [String.toList_ofList]
    refine ⟨gap, ?_, ?_, rfl, hplace, ?_, rfl, .inr (Lexeme.isToken_of_read hread)⟩
    · rw [hrest, ← happend]
      rfl
    · rw [← happend] at hgap
      exact hgap
    · rw [Place.after_append, ← hplace]
      rfl
  · simp at h
  · simp at h

/-- A token that was scanned stands behind the text that was read before it. -/
theorem standsBehind_of_scan {c : Cursor} {t : Token} {before gap : List Char}
    (hbefore : c.place = Place.start.after c.tabWidth before)
    (hspan : t.span = c.skipTrivia.spanOf t.lexeme)
    (hplace : c.skipTrivia.place = c.place.after c.tabWidth gap) :
    t.StandsBehind c.tabWidth (before ++ gap) := by
  have hbehind : c.skipTrivia.place = Place.behind c.tabWidth (before ++ gap) := by
    rw [hplace, hbefore, ← Place.after_append, Place.after_start]
  refine ⟨?_, ?_, ?_⟩
  · rw [hspan]
    exact congrArg Place.line hbehind
  · rw [hspan]
    exact congrArg Place.col hbehind
  · rw [hspan]
    rfl

/-- **The tokens from a cursor on tile what is left of the text, if they come to its end.** -/
theorem tiled_tokens (c : Cursor) : ∀ {before : List Char} {ts : List Token} {e : Token},
    c.place = Place.start.after c.tabWidth before → c.tokens = ts ++ [e] → e.kind = .eof →
      Tiled c.tabWidth before c.rest c.tokens := by
  fun_induction tokens c with
  | case1 =>
      intro before ts e _ h
      simp at h
  | case2 c t c' hscan hk =>
      intro before ts e hbefore _ _
      obtain ⟨gap, hrest, hgap, hspan, hplace, -, -, hcases⟩ := scan_spec hscan
      have hstands := standsBehind_of_scan hbefore hspan hplace
      rcases hcases with ⟨-, hlexeme, hnil⟩ | htoken
      · have hempty : t.lexeme.toList ++ c'.rest = [] := by simp [hlexeme, hnil]
        rw [hempty, List.append_nil] at hrest
        rw [hempty] at hgap
        rw [hrest]
        exact .toEnd hgap hk hlexeme hstands
      · -- A token that was read off the text is never the end.
        exact absurd hk (Lexeme.append_of_read htoken.read_eq).2
  | case3 c t c' hscan hk ih =>
      intro before ts e hbefore htokens he
      obtain ⟨gap, hrest, hgap, hspan, hplace, hplace', htab, hcases⟩ := scan_spec hscan
      have hstands := standsBehind_of_scan hbefore hspan hplace
      have htoken : Lexeme.IsToken t.kind t.lexeme.toList := by
        rcases hcases with ⟨heof, -, -⟩ | htoken
        · exact absurd heof hk
        · exact htoken
      have hbefore' : c'.place =
          Place.start.after c'.tabWidth (before ++ gap ++ t.lexeme.toList) := by
        rw [hplace', hbefore, htab, ← Place.after_append, List.append_assoc]
      cases ts with
      | nil =>
          obtain ⟨rfl, -⟩ := List.cons.inj htokens
          exact absurd he hk
      | cons u ts =>
          have htiled := ih hbefore' (List.cons.inj htokens).2 he
          rw [htab] at htiled
          rw [hrest]
          exact .token hgap htoken hstands htiled

/-- A text is what is read of it, with at most a byte-order mark before that. -/
theorem dropMark_spec (text : List Char) :
    ∃ mark, text = mark ++ dropMark text ∧ (mark = [] ∨ mark = [byteOrderMark]) := by
  cases text with
  | nil => exact ⟨[], rfl, .inl rfl⟩
  | cons c cs =>
      by_cases hmark : c = byteOrderMark
      · rw [dropMark, if_pos hmark]
        exact ⟨[c], rfl, .inr (by rw [hmark])⟩
      · rw [dropMark, if_neg hmark]
        exact ⟨[], rfl, .inl rfl⟩

/-! ### How far places go

Lines and columns are natural numbers, and so nothing is said above about counters that
overflow.  That costs nothing for texts of an ordinary size.  A character takes a place
further by one line, or by as many columns as it has bytes, or by the width of a tab, so all
places in a text are below a bound that only depends on its size and on the tab width.
-/

/-- No place is further on than the bytes before it, each as wide as a tab. -/
theorem line_add_col_after_le {w : Nat} (hw : 0 < w) (cs : List Char) : ∀ p : Place, 1 ≤ p.col →
    1 ≤ (p.after w cs).col ∧ (p.after w cs).line + (p.after w cs).col ≤
      p.line + p.col + w * (String.ofList cs).utf8ByteSize := by
  induction cs with
  | nil =>
      intro p hp
      exact ⟨hp, Nat.le_add_right _ _⟩
  | cons c cs ih =>
      intro p hp
      have hstep : 1 ≤ (p.next w c).col ∧
          (p.next w c).line + (p.next w c).col ≤ p.line + p.col + w * c.utf8Size := by
        have hbytes : w ≤ w * c.utf8Size := Nat.le_mul_of_pos_right w c.utf8Size_pos
        have hsize : c.utf8Size ≤ w * c.utf8Size := Nat.le_mul_of_pos_left _ hw
        unfold Place.next
        split
        · exact ⟨Nat.le_refl 1, by dsimp only; omega⟩
        split
        · have hdiv := Nat.div_mul_le_self (p.col - 1) w
          rw [Nat.add_mul, Nat.one_mul]
          exact ⟨Nat.le_add_left 1 _, by dsimp only; omega⟩
        · exact ⟨by dsimp only; omega, by dsimp only; omega⟩
      obtain ⟨hcol, hle⟩ := ih (p.next w c) hstep.1
      refine ⟨hcol, ?_⟩
      rw [Place.after_cons, String.ofList_cons, String.utf8ByteSize_append,
        String.utf8ByteSize_singleton, Nat.mul_add]
      omega

theorem utf8ByteSize_append (cs ds : List Char) : (String.ofList (cs ++ ds)).utf8ByteSize =
    (String.ofList cs).utf8ByteSize + (String.ofList ds).utf8ByteSize := by
  rw [String.ofList_append, String.utf8ByteSize_append]

/-- No token is further on than the bytes up to its end. -/
theorem line_add_stop_le_of_mem (c : Cursor) : 0 < c.tabWidth → 1 ≤ c.place.col →
    ∀ t ∈ c.tokens, t.span.line + t.span.stop ≤
      c.place.line + c.place.col + c.tabWidth * (String.ofList c.rest).utf8ByteSize := by
  -- The bound is on place and remaining bytes together, and no token makes it larger.
  have hscanned : ∀ {c c' : Cursor} {t : Token}, c.scan = (.ok t, c') → 0 < c.tabWidth →
      1 ≤ c.place.col → 1 ≤ c'.place.col ∧ c'.tabWidth = c.tabWidth ∧
        t.span.line + t.span.stop ≤ c.place.line + c.place.col +
          c.tabWidth * (String.ofList c.rest).utf8ByteSize ∧
        c'.place.line + c'.place.col + c.tabWidth * (String.ofList c'.rest).utf8ByteSize ≤
          c.place.line + c.place.col + c.tabWidth * (String.ofList c.rest).utf8ByteSize := by
    intro c c' t hscan hw hcol
    obtain ⟨gap, hrest, -, hspan, hplace, hplace', htab, -⟩ := scan_spec hscan
    obtain ⟨-, hgap⟩ := line_add_col_after_le hw gap c.place hcol
    obtain ⟨hcol', hafter⟩ :=
      line_add_col_after_le hw (gap ++ t.lexeme.toList) c.place hcol
    rw [← hplace] at hgap
    rw [← hplace'] at hcol' hafter
    have hlexeme : t.lexeme.utf8ByteSize ≤ c.tabWidth * t.lexeme.utf8ByteSize :=
      Nat.le_mul_of_pos_left _ hw
    rw [hrest, hspan]
    simp only [utf8ByteSize_append, String.ofList_toList, Nat.mul_add] at hafter ⊢
    refine ⟨hcol', htab, ?_, by omega⟩
    simp only [spanOf, Span.stop]
    omega
  fun_induction tokens c with
  | case1 => simp
  | case2 c t c' hscan hk =>
      intro hw hcol u hu
      obtain rfl := List.mem_singleton.mp hu
      exact (hscanned hscan hw hcol).2.2.1
  | case3 c t c' hscan hk ih =>
      intro hw hcol u hu
      obtain ⟨hcol', htab, htoken, hbound⟩ := hscanned hscan hw hcol
      rcases List.mem_cons.mp hu with rfl | hu
      · exact htoken
      · have hle := ih (htab ▸ hw) hcol' u hu
        rw [htab] at hle
        omega

/-- **In a text of less than four gigabytes over the tab width every token fits into 32 bits.** -/
theorem spans_fit {text : List Char} {tabWidth : Nat}
    (hsize : max tabWidth 1 * (String.ofList text).utf8ByteSize + 2 < 2 ^ 32) :
    ∀ t ∈ (ofText text tabWidth).tokens, t.span.line < 2 ^ 32 ∧ t.span.stop < 2 ^ 32 := by
  intro t ht
  have hw : 0 < max tabWidth 1 := by omega
  have hle : t.span.line + t.span.stop ≤
      2 + max tabWidth 1 * (String.ofList (dropMark text)).utf8ByteSize :=
    line_add_stop_le_of_mem (ofText text tabWidth) hw (Nat.le_refl 1) t ht
  obtain ⟨mark, hmark, -⟩ := dropMark_spec text
  have hbytes : (String.ofList (dropMark text)).utf8ByteSize ≤
      (String.ofList text).utf8ByteSize := by
    conv_rhs => rw [hmark, utf8ByteSize_append]
    exact Nat.le_add_left _ _
  have hscaled := Nat.mul_le_mul_left (max tabWidth 1) hbytes
  omega

end Cursor

namespace Lexer

/--
**Tokens tile the text they are read from.**  If a text is read to its end without an
error, then behind an optional byte-order mark it is made of the tokens in their order,
with only blanks and comments between them.  Every token has the line and the column
that the text before it gives, and the length of its lexeme.  The end of the text has
the place behind all of it.
-/
theorem tiled_of_drain {source : String} {tabWidth : Nat} {ts : List Token} {l : Lexer}
    (h : (ofString source tabWidth).drain = (ts, none, l)) :
    ∃ last mark text, next l = .ok last l ∧ source.toList = mark ++ text ∧
      (mark = [] ∨ mark = [Cursor.byteOrderMark]) ∧
      Tiled (max tabWidth 1) [] text (ts ++ [last]) := by
  have hbound : (ofString source tabWidth).bound =
      (Cursor.ofText source.toList tabWidth).rest.length := Nat.zero_add _
  obtain ⟨last, hnext⟩ := exists_next_of_drainFrom _ (by rw [hbound]; exact Nat.lt_succ_self _) h
  obtain ⟨htokens, hlast⟩ := drain_eq_iff.mp ⟨l, h, hnext⟩
  obtain ⟨mark, hmark, hcases⟩ := Cursor.dropMark_spec source.toList
  rw [tokens_ofText] at htokens
  have hstart : (Cursor.ofText source.toList tabWidth).place =
      Place.start.after (max tabWidth 1) [] := rfl
  have htiled := Cursor.tiled_tokens _ hstart htokens hlast
  rw [htokens] at htiled
  exact ⟨last, mark, _, hnext, hmark, hcases, htiled⟩

/--
A byte-order mark, a tab before a token, a comment with letters of two bytes, and a
line that ends with a carriage return.
-/
def scattered : String := "\uFEFFr1\t= 0x1F;\t// été\r\n\n  x_1 <<<= r1;"

/-- The tokens of the sample, each with its line, column and length. -/
theorem scattered_tiled :
    ∃ ts last mark text,
      ts.map (fun t => (t.lexeme, t.span)) =
        [("r1", ⟨1, 1, 2⟩), ("=", ⟨1, 5, 1⟩), ("0x1F", ⟨1, 7, 4⟩), (";", ⟨1, 11, 1⟩),
          ("x_1", ⟨3, 3, 3⟩), ("<<<=", ⟨3, 7, 4⟩), ("r1", ⟨3, 12, 2⟩), (";", ⟨3, 14, 1⟩)] ∧
      scattered.toList = mark ++ text ∧ (mark = [] ∨ mark = [Cursor.byteOrderMark]) ∧
      Tiled 4 [] text (ts ++ [last]) := by
  have hrun : (ofString scattered 4).drain.2.1 = none ∧
      (ofString scattered 4).drain.1.map (fun t => (t.lexeme, t.span)) =
        [("r1", ⟨1, 1, 2⟩), ("=", ⟨1, 5, 1⟩), ("0x1F", ⟨1, 7, 4⟩), (";", ⟨1, 11, 1⟩),
          ("x_1", ⟨3, 3, 3⟩), ("<<<=", ⟨3, 7, 4⟩), ("r1", ⟨3, 12, 2⟩), (";", ⟨3, 14, 1⟩)] := by
    decide +kernel
  obtain ⟨hnone, hspans⟩ := hrun
  have hdrain : (ofString scattered 4).drain =
      ((ofString scattered 4).drain.1, none, (ofString scattered 4).drain.2.2) := by
    rw [← hnone]
  obtain ⟨last, mark, text, -, hmark, hcases, htiled⟩ := tiled_of_drain hdrain
  exact ⟨_, last, mark, text, hspans, hmark, hcases, htiled⟩

end Lexer

end StackCode
