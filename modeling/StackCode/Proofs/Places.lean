/-
Tokens stand in order.

Places are compared by line and then by column (`Place.key`).  Every character that the
cursor passes moves it strictly forward: a line feed to the next line, a tab to a later
column because tab stops are at least one column apart, any other character by its length
(`key_lt_next`).  So a token starts at or after the place where the last one ended, and ends
after it starts unless it is the end of the text (`Token.Precedes`).

The same is said of a token stream with tokens waiting in front of the cursor.
`Lexer.Ordered` is the invariant, and `Lexer.front` is the place that everything still to be
taken stands at or after.
-/
import Mathlib.Data.Prod.Lex
import StackCode.Lexer
import StackCode.Proofs.Lexemes
import StackCode.Proofs.Sequencing

namespace StackCode

open Sequencing

/-- Where a span starts, ordered by line and then by column. -/
def Span.key (s : Span) : ℕ ×ₗ ℕ := toLex (s.line, s.col)

namespace Place

/-- A place, ordered by line and then by column. -/
def key (p : Place) : ℕ ×ₗ ℕ := toLex (p.line, p.col)

/-- The next tab stop is behind the column. -/
theorem lt_tabStop {w : Nat} (hw : 0 < w) (col : Nat) : col < ((col - 1) / w + 1) * w + 1 := by
  have hdiv := Nat.div_add_mod (col - 1) w
  have hmod := Nat.mod_lt (col - 1) hw
  rw [Nat.add_mul, Nat.one_mul, Nat.mul_comm]
  omega

/-- A character moves the place forward: `Place.next` has a larger `key`. -/
theorem key_lt_next {w : Nat} (hw : 0 < w) (p : Place) (c : Char) : p.key < (p.next w c).key := by
  unfold next
  split
  · exact Prod.Lex.toLex_lt_toLex.mpr (Or.inl (Nat.lt_succ_self _))
  split
  · exact Prod.Lex.toLex_lt_toLex.mpr (Or.inr ⟨rfl, lt_tabStop hw _⟩)
  · exact Prod.Lex.toLex_lt_toLex.mpr (Or.inr ⟨rfl, Nat.lt_add_of_pos_right c.utf8Size_pos⟩)

theorem key_le_after {w : Nat} (hw : 0 < w) (cs : List Char) :
    ∀ p : Place, p.key ≤ (p.after w cs).key := by
  induction cs with
  | nil => intro p; exact le_refl _
  | cons c cs ih => intro p; exact (key_lt_next hw p c).le.trans (ih _)

/-- A text that is not empty moves the place forward, by `key_lt_next` for its first character. -/
theorem key_lt_after {w : Nat} (hw : 0 < w) (p : Place) {cs : List Char} (h : cs ≠ []) :
    p.key < (p.after w cs).key := by
  cases cs with
  | nil => exact absurd rfl h
  | cons c cs => exact (key_lt_next hw p c).trans_le (key_le_after hw cs _)

end Place

/-! ### Scanning

A token has at least one character, so the cursor is strictly behind its start.  Blanks in
front of it move the cursor too, which is why a token starts at the cursor or behind it.
-/

/-- A token takes at least one character. -/
theorem Lexeme.ne_nil_of_read {cs text rest : List Char} {kind : TokenKind}
    (h : read cs = .token kind text rest) : text ≠ [] := by
  cases read_eq_iff.mp h with
  | decimal | radix | word => exact List.cons_ne_nil _ _
  | @mark m =>
      obtain ⟨c, cs, hm, -, -⟩ := m.spelling_eq_cons
      rw [hm]
      exact List.cons_ne_nil _ _

/-- The token starts at or before a place, and before it unless it is the end of the text. -/
def Token.Precedes (t : Token) (k : ℕ ×ₗ ℕ) : Prop :=
  t.span.key ≤ k ∧ (t.kind ≠ .eof → t.span.key < k)

theorem Token.Precedes.trans {t : Token} {k k' : ℕ ×ₗ ℕ} (h : t.Precedes k) (hk : k ≤ k') :
    t.Precedes k' := ⟨h.1.trans hk, fun ht => (h.2 ht).trans_le hk⟩

namespace Cursor

private theorem skipTriviaFrom_le {w : Nat} (hw : 0 < w) (inComment : Bool) (p : Place)
    (cs : List Char) :
    p.key ≤ (skipTriviaFrom w inComment p cs).1.key := by
  fun_induction skipTriviaFrom w inComment p cs with
  | case1 => exact le_refl _
  | case2 p c cs ih => exact (Place.key_lt_next hw p c).le.trans ih
  | case3 p c cs _ ih => exact (Place.key_lt_next hw p c).le.trans ih
  | case4 p c cs _ _ ih => exact (Place.key_lt_next hw p c).le.trans ih
  | case5 => exact le_refl _

@[simp] theorem skipTrivia_tabWidth (c : Cursor) : c.skipTrivia.tabWidth = c.tabWidth := rfl

theorem skipTrivia_le {c : Cursor} (hw : 0 < c.tabWidth) : c.place.key ≤ c.skipTrivia.place.key :=
  skipTriviaFrom_le hw false c.place c.rest

/-- A token of `scanHere` starts at the cursor, which is behind it afterwards. -/
theorem scanHere_ordered {c c' : Cursor} {t : Token} (hw : 0 < c.tabWidth)
    (h : c.scanHere = (.ok t, c')) :
    t.span.key = c.place.key ∧ t.Precedes c'.place.key ∧ c'.tabWidth = c.tabWidth := by
  simp only [scanHere] at h
  split at h
  · simp only [Prod.mk.injEq, Except.ok.injEq] at h
    obtain ⟨rfl, rfl⟩ := h
    exact ⟨rfl, ⟨le_refl _, fun hk => absurd rfl hk⟩, rfl⟩
  · rename_i kind text rest hread
    simp only [Prod.mk.injEq, Except.ok.injEq] at h
    obtain ⟨rfl, rfl⟩ := h
    have hlt := Place.key_lt_after hw c.place (Lexeme.ne_nil_of_read hread)
    exact ⟨rfl, ⟨hlt.le, fun _ => hlt⟩, rfl⟩
  · simp at h
  · simp at h

/-- **A scanned token lies between the cursor before it and the cursor after it.** -/
theorem scan_ordered {c c' : Cursor} {t : Token} (hw : 0 < c.tabWidth)
    (h : c.scan = (.ok t, c')) :
    c.place.key ≤ t.span.key ∧ t.Precedes c'.place.key ∧ c'.tabWidth = c.tabWidth := by
  obtain ⟨hstart, hstop, htab⟩ := scanHere_ordered (c := c.skipTrivia) hw h
  exact ⟨hstart ▸ skipTrivia_le hw, hstop, htab⟩

end Cursor

/-! ### Token streams

Tokens that wait are in the order of the text, and the text goes on behind the last of them.
Putting a token back needs that it precedes the front, which is what taking it has left
behind.
-/

namespace Lexer

/-- Where the first of some tokens starts, or `stop` if there are none. -/
def frontOf (ts : List Token) (stop : ℕ ×ₗ ℕ) : ℕ ×ₗ ℕ :=
  match ts with
  | [] => stop
  | t :: _ => t.span.key

/-- Each token precedes the next one, and the last one precedes `stop`. -/
def Leads : List Token → ℕ ×ₗ ℕ → Prop
  | [], _ => True
  | t :: rest, stop => t.Precedes (frontOf rest stop) ∧ Leads rest stop

/--
The place that everything still to be taken stands at or after: that of the first token
`ahead`, or the cursor's.
-/
def front (l : Lexer) : ℕ ×ₗ ℕ := frontOf l.ahead l.cursor.place.key

/-- Tokens are waiting in the order of the text, and the text goes on behind them. -/
structure Ordered (l : Lexer) : Prop where
  /-- Tab stops are at least one column apart. -/
  tabs : 0 < l.cursor.tabWidth
  leads : Leads l.ahead l.cursor.place.key

theorem ordered_ofText (text : List Char) (tabWidth : Nat) : (ofText text tabWidth).Ordered :=
  ⟨Nat.lt_of_lt_of_le Nat.zero_lt_one (Nat.le_max_right _ _), trivial⟩

theorem scan_ordered {l l' : Lexer} {t : Token} (hl : l.Ordered) (h : scan l = .ok t l') :
    l.cursor.place.key ≤ t.span.key ∧ t.Precedes l'.cursor.place.key ∧
      l'.ahead = l.ahead ∧ 0 < l'.cursor.tabWidth := by
  simp only [scan] at h
  split at h
  · rename_i t c hscan
    simp only [EStateM.Result.ok.injEq] at h
    obtain ⟨rfl, rfl⟩ := h
    obtain ⟨hle, hprec, htab⟩ := Cursor.scan_ordered hl.tabs hscan
    exact ⟨hle, hprec, rfl, by rw [htab]; exact hl.tabs⟩
  · simp at h

/-- Taking a token with `next` leaves a stream that starts behind it. -/
theorem next_ordered {l l' : Lexer} {t : Token} (hl : l.Ordered) (h : next l = .ok t l') :
    l'.Ordered ∧ l.front ≤ t.span.key ∧ t.Precedes l'.front := by
  obtain ⟨ahead, cursor⟩ := l
  cases ahead with
  | nil =>
      obtain ⟨hle, hprec, hahead, htab⟩ := scan_ordered hl h
      refine ⟨⟨htab, ?_⟩, hle, ?_⟩
      · rw [hahead]
        trivial
      · rw [front, hahead]
        exact hprec
  | cons u rest =>
      simp only [next, EStateM.Result.ok.injEq] at h
      obtain ⟨rfl, rfl⟩ := h
      exact ⟨⟨hl.tabs, hl.leads.2⟩, le_refl _, hl.leads.1⟩

/-- A token that `peek` looked at waits at the head of the stream. -/
theorem peek_ordered {l l' : Lexer} {t : Token} (hl : l.Ordered) (h : peek l = .ok t l') :
    l'.Ordered ∧ l.front ≤ l'.front ∧ ∃ rest, l'.ahead = t :: rest := by
  obtain ⟨ahead, cursor⟩ := l
  cases ahead with
  | nil =>
      simp only [peek, peekNth, List.getElem?_nil, List.length_nil, Nat.sub_zero, readAheadMany,
        readAhead, bind_eq_ok, modify_eq_ok, pure_eq_ok] at h
      obtain ⟨u, m, hscan, -, -, rfl, rfl, rfl⟩ := h
      obtain ⟨hle, hprec, hahead, htab⟩ := scan_ordered hl hscan
      have hone : m.ahead ++ [u] = [u] := by rw [hahead]; rfl
      refine ⟨⟨htab, ?_⟩, ?_, [], hone⟩
      · show Leads (m.ahead ++ [u]) m.cursor.place.key
        rw [hone]
        exact ⟨hprec, trivial⟩
      · show cursor.place.key ≤ frontOf (m.ahead ++ [u]) m.cursor.place.key
        rw [hone]
        exact hle
  | cons u rest =>
      simp only [peek, peekNth, List.getElem?_cons_zero, EStateM.Result.ok.injEq] at h
      obtain ⟨rfl, rfl⟩ := h
      exact ⟨hl, le_refl _, rest, rfl⟩

/-- A token may be put back by `pushBack` in front of what it `Precedes`. -/
theorem pushBack_ordered {l l' : Lexer} {t : Token} {u : Unit} (hl : l.Ordered)
    (ht : t.Precedes l.front) (h : pushBack t l = .ok u l') :
    l'.Ordered ∧ l'.front = t.span.key := by
  simp only [pushBack, modify_eq_ok] at h
  subst h
  exact ⟨⟨hl.tabs, ht, hl.leads⟩, rfl⟩

end Lexer

end StackCode
