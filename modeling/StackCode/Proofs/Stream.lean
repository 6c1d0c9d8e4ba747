/-
A token stream as the list of its tokens.

The lexer reads a text as it is asked to, and keeps tokens that were looked at or
put back in front of its cursor.  None of this can be told from outside: all that
matters of a stream is which tokens it will give.  `Lexer.tokens` lists them, the end
of the text as the last one.  Where the text has a bad character the list stops
short of it, and has no end.

Looking ahead leaves the list as it is, taking a token takes it off the front, and
putting one back puts it there.  Nothing later has to know how a stream is kept.
-/
import StackCode.Proofs.Places

namespace StackCode

open Sequencing

/-! ### Reading a token takes it off the text

`Lexeme.read` never goes back and never skips.  A token has at least one character, and its
kind is not that of the end, which only the empty text has.
-/

namespace Lexeme

/-- A word is neither the end of the text nor an integer. -/
theorem kind_ofWord_ne (word : String) :
    TokenKind.ofWord word ≠ .eof ∧ TokenKind.ofWord word ≠ .integer := by
  unfold TokenKind.ofWord TokenKind.ofReserved?
  split
  · simp
  split
  · simp
  cases Register.ofName? word with
  | none => simp
  | some r => simp

/-- A token that `read` gives and what follows it are the text, and a token is never the end. -/
theorem append_of_read {cs text rest : List Char} {kind : TokenKind}
    (h : read cs = .token kind text rest) : text ++ rest = cs ∧ kind ≠ .eof := by
  cases read_eq_iff.mp h with
  | decimal | radix | mark => exact ⟨rfl, by simp⟩
  | word => exact ⟨rfl, (kind_ofWord_ne _).1⟩

/-- What is incomplete does not end with a blank. -/
theorem append_of_read_incomplete {cs text rest : List Char} {expected : String}
    (h : read cs = .incomplete expected text rest) :
    text ++ rest = cs ∧ ∃ c, text.getLast? = some c ∧ c ≠ '\r' := by
  cases read_eq_iff.mp h with
  | @bareRadix x _ _ hx => exact ⟨rfl, x, rfl, hx.letter_plain.2.1.2.2.2⟩
  | bang => exact ⟨rfl, '!', rfl, by decide⟩

/-- A `stray` character is the first of the text. -/
theorem eq_cons_of_read_stray {cs rest : List Char} {ch : Char}
    (h : read cs = .stray ch rest) : cs = ch :: rest := by
  cases read_eq_iff.mp h
  rfl

/-- Only the empty text starts with nothing. -/
theorem eq_nil_of_read {cs : List Char} (h : read cs = .nothing) : cs = [] := by
  cases read_eq_iff.mp h
  rfl

end Lexeme

/-! ### From a cursor on

`tokens` is defined by scanning, and comes to an end since each token makes the text shorter
(`length_lt_of_scan`).  Scanned again at the end, a cursor stays where it is.
-/

namespace Cursor

private theorem skipTriviaFrom_length_le (w : Nat) (inComment : Bool) (p : Place) (cs : List Char) :
    (skipTriviaFrom w inComment p cs).2.length ≤ cs.length := by
  fun_induction skipTriviaFrom w inComment p cs with
  | case1 => exact Nat.le_refl _
  | case2 p c cs ih => exact Nat.le_succ_of_le ih
  | case3 p c cs _ ih => exact Nat.le_succ_of_le ih
  | case4 p c cs _ _ ih => exact Nat.le_succ_of_le ih
  | case5 => exact Nat.le_refl _

/-- A cursor that was scanned to a token stands at the end, or has less left to read. -/
theorem scan_eq_ok {c c' : Cursor} {t : Token} (h : c.scan = (.ok t, c')) :
    (t.kind = .eof ∧ c'.scan = (.ok t, c')) ∨
      ∃ cs text, Lexeme.read cs = .token t.kind text c'.rest ∧ t.lexeme = String.ofList text ∧
        cs.length ≤ c.rest.length := by
  have hrest : c.skipTrivia.rest.length ≤ c.rest.length := skipTriviaFrom_length_le ..
  simp only [scan, scanHere] at h
  split at h
  · rename_i hread
    simp only [Prod.mk.injEq, Except.ok.injEq] at h
    obtain ⟨rfl, rfl⟩ := h
    left
    have hnil := Lexeme.eq_nil_of_read hread
    have hstay : c.skipTrivia.skipTrivia = c.skipTrivia := by
      generalize c.skipTrivia = d at hnil
      obtain ⟨rest, place, w⟩ := d
      obtain rfl : rest = [] := hnil
      rfl
    refine ⟨rfl, ?_⟩
    rw [scan, hstay, scanHere, hnil]
    rfl
  · rename_i kind text rest hread
    simp only [Prod.mk.injEq, Except.ok.injEq] at h
    obtain ⟨rfl, rfl⟩ := h
    exact .inr ⟨_, text, hread, rfl, hrest⟩
  · simp at h
  · simp at h

theorem length_lt_of_scan {c c' : Cursor} {t : Token} (h : c.scan = (.ok t, c'))
    (ht : t.kind ≠ .eof) : c'.rest.length < c.rest.length := by
  rcases scan_eq_ok h with ⟨hk, -⟩ | ⟨cs, text, hread, -, hle⟩
  · exact absurd hk ht
  · have hne := Lexeme.ne_nil_of_read hread
    have happend := congrArg List.length (Lexeme.append_of_read hread).1
    have hpos := List.length_pos_iff.mpr hne
    rw [List.length_append] at happend
    omega

/-- The tokens from a cursor on with the end of the text, as far as they can be read. -/
def tokens (c : Cursor) : List Token :=
  match _h : c.scan with
  | (.error _, _) => []
  | (.ok t, c') => if _ht : t.kind = .eof then [t] else t :: tokens c'
termination_by c.rest.length
decreasing_by exact length_lt_of_scan ‹_› ‹_›

variable {c c' : Cursor} {t : Token}

theorem tokens_of_scan_error {e : LexError} (h : c.scan = (.error e, c')) : c.tokens = [] := by
  rw [tokens]
  split
  · rfl
  · rename_i hscan
    rw [h] at hscan
    simp at hscan

theorem tokens_of_scan (h : c.scan = (.ok t, c')) :
    c.tokens = if t.kind = .eof then [t] else t :: c'.tokens := by
  rw [tokens]
  split
  · rename_i hscan
    rw [h] at hscan
    simp at hscan
  · rename_i u d hscan
    rw [h] at hscan
    simp only [Prod.mk.injEq, Except.ok.injEq] at hscan
    obtain ⟨rfl, rfl⟩ := hscan
    split <;> rfl

/-- There are no more tokens than characters, the end apart. -/
theorem length_tokens_le (c : Cursor) : c.tokens.length ≤ c.rest.length + 1 := by
  fun_induction tokens c with
  | case1 => simp
  | case2 => simp
  | case3 c t c' hscan ht ih =>
      have hlt := length_lt_of_scan hscan ht
      rw [List.length_cons]
      omega

/-- Every token but the end was read off some text by `Lexeme.read`. -/
theorem read_of_mem_tokens (c : Cursor) : ∀ t ∈ c.tokens,
    t.kind = .eof ∨ ∃ cs rest, Lexeme.read cs = .token t.kind t.lexeme.toList rest := by
  fun_induction tokens c with
  | case1 => simp
  | case2 c t _ _ hk => simp [hk]
  | case3 c t c' hscan ht ih =>
      intro u hu
      rcases List.mem_cons.mp hu with rfl | hu
      · rcases scan_eq_ok hscan with ⟨hk, -⟩ | ⟨cs, text, hread, hlexeme, -⟩
        · exact absurd hk ht
        · refine .inr ⟨cs, c'.rest, ?_⟩
          rw [hlexeme, String.toList_ofList]
          exact hread
      · exact ih u hu

/-- The end of a text has no text of its own. -/
theorem lexeme_of_mem_tokens (c : Cursor) : ∀ t ∈ c.tokens, t.kind = .eof → t.lexeme = "" := by
  have hscan : ∀ {c c' : Cursor} {t : Token}, c.scan = (.ok t, c') → t.kind = .eof →
      t.lexeme = "" := by
    intro c c' t h hk
    simp only [Cursor.scan, scanHere] at h
    split at h
    · simp only [Prod.mk.injEq, Except.ok.injEq] at h
      rw [← h.1]
    · rename_i hread
      simp only [Prod.mk.injEq, Except.ok.injEq] at h
      rw [← h.1] at hk
      exact absurd hk (Lexeme.append_of_read hread).2
    · simp at h
    · simp at h
  fun_induction Cursor.tokens c with
  | case1 => simp
  | case2 c t d h _ =>
      intro u hu
      obtain rfl := List.mem_singleton.mp hu
      exact hscan h
  | case3 c t d h ht ih =>
      intro u hu
      rcases List.mem_cons.mp hu with rfl | hu
      · exact hscan h
      · exact ih u hu

/-- Nothing stands behind the end of the text. -/
theorem tokens_eof (c : Cursor) : ∀ {ts rest : List Token} {e : Token},
    c.tokens = ts ++ e :: rest → e.kind = .eof → rest = [] := by
  fun_induction tokens c with
  | case1 =>
      intro ts rest e h _
      simp at h
  | case2 c t _ _ hk =>
      intro ts rest e h _
      cases ts with
      | nil => exact (List.cons.inj h).2.symm
      | cons u ts => simp at h
  | case3 c t c' hscan hk ih =>
      intro ts rest e h he
      cases ts with
      | nil =>
          obtain ⟨rfl, -⟩ := List.cons.inj h
          exact absurd he hk
      | cons u ts => exact ih (List.cons.inj h).2 he

/-- Tokens stand at or after the cursor. -/
theorem place_le_of_mem_tokens (c : Cursor) (hw : 0 < c.tabWidth) :
    ∀ t ∈ c.tokens, c.place.key ≤ t.span.key := by
  fun_induction tokens c with
  | case1 => simp
  | case2 c t c' hscan hk =>
      intro u hu
      obtain rfl := List.mem_singleton.mp hu
      exact (scan_ordered hw hscan).1
  | case3 c t c' hscan ht ih =>
      intro u hu
      obtain ⟨hle, hprec, htab⟩ := scan_ordered hw hscan
      rcases List.mem_cons.mp hu with rfl | hu
      · exact hle
      · exact hle.trans (hprec.1.trans (ih (by rw [htab]; exact hw) u hu))

/-- **Each token starts after the one before it.** -/
theorem tokens_pairwise (c : Cursor) (hw : 0 < c.tabWidth) :
    c.tokens.Pairwise fun t u => t.span.key < u.span.key := by
  fun_induction tokens c with
  | case1 => exact .nil
  | case2 => exact List.pairwise_singleton ..
  | case3 c t c' hscan ht ih =>
      obtain ⟨-, hprec, htab⟩ := scan_ordered hw hscan
      have hw' : 0 < c'.tabWidth := by rw [htab]; exact hw
      refine .cons ?_ (ih hw')
      intro u hu
      exact (hprec.2 ht).trans_le (c'.place_le_of_mem_tokens hw' u hu)

end Cursor

/-! ### Streams with tokens waiting

The parser sees a `Lexer`, which may hold tokens that were looked at.  The lemmas come in
pairs: what `next` or `peek` answers is the first of `tokens`, and if there is a first one
they answer with it.
-/

namespace Lexer

/-- The tokens that are waiting and then those of the text, up to the end. -/
def tokensBehind (c : Cursor) : List Token → List Token
  | [] => c.tokens
  | t :: ahead => if t.kind = .eof then [t] else t :: tokensBehind c ahead

/-- The tokens that a stream will give with the end of the text, as far as they can be read. -/
def tokens (l : Lexer) : List Token := tokensBehind l.cursor l.ahead

theorem tokens_ofText (text : List Char) (tabWidth : Nat) :
    (ofText text tabWidth).tokens = (Cursor.ofText text tabWidth).tokens := rfl

private theorem length_tokensBehind_le (c : Cursor) (ahead : List Token) :
    (tokensBehind c ahead).length ≤ ahead.length + c.rest.length + 1 := by
  induction ahead with
  | nil =>
      rw [List.length_nil, Nat.zero_add]
      exact c.length_tokens_le
  | cons t ahead ih =>
      rw [tokensBehind]
      split
      · simp
      · simp only [List.length_cons]
        omega

/-- The stream has at most as many tokens as its bound says, the end apart. -/
theorem length_tokens_le (l : Lexer) : l.tokens.length ≤ l.bound + 1 :=
  length_tokensBehind_le l.cursor l.ahead

variable {l l' : Lexer} {t : Token}

theorem scan_eq (l : Lexer) :
    scan l = match l.cursor.scan with
      | (.ok t, c) => .ok t { l with cursor := c }
      | (.error e, c) => .error e { l with cursor := c } := rfl

/-- Taking a token with `next` takes it off the list. -/
theorem tokens_of_next (h : next l = .ok t l') :
    ∃ rest, l.tokens = t :: rest ∧ (t.kind ≠ .eof → l'.tokens = rest) := by
  obtain ⟨ahead, c⟩ := l
  cases ahead with
  | nil =>
      simp only [next, scan_eq] at h
      split at h
      · rename_i u c' hscan
        simp only [EStateM.Result.ok.injEq] at h
        obtain ⟨rfl, rfl⟩ := h
        show ∃ rest, c.tokens = u :: rest ∧ (u.kind ≠ .eof → c'.tokens = rest)
        rw [Cursor.tokens_of_scan hscan]
        by_cases hk : u.kind = .eof
        · rw [if_pos hk]
          exact ⟨[], rfl, fun hne => absurd hk hne⟩
        · rw [if_neg hk]
          exact ⟨_, rfl, fun _ => rfl⟩
      · simp at h
  | cons u ahead =>
      simp only [next, EStateM.Result.ok.injEq] at h
      obtain ⟨rfl, rfl⟩ := h
      show ∃ rest, tokensBehind c (u :: ahead) = u :: rest ∧
        (u.kind ≠ .eof → tokensBehind c ahead = rest)
      rw [tokensBehind]
      by_cases hk : u.kind = .eof
      · rw [if_pos hk]
        exact ⟨[], rfl, fun hne => absurd hk hne⟩
      · rw [if_neg hk]
        exact ⟨_, rfl, fun _ => rfl⟩

/-- The first token of the list can be taken. -/
theorem next_of_tokens {rest : List Token} (h : l.tokens = t :: rest) :
    ∃ l', next l = .ok t l' := by
  cases hnext : next l with
  | ok u l' =>
      obtain ⟨rest', htokens, -⟩ := tokens_of_next hnext
      rw [h] at htokens
      obtain ⟨rfl, -⟩ := List.cons.inj htokens
      exact ⟨l', rfl⟩
  | error e l' =>
      exfalso
      obtain ⟨ahead, c⟩ := l
      cases ahead with
      | nil =>
          simp only [next, scan_eq] at hnext
          split at hnext
          · simp at hnext
          · rename_i e c' hscan
            have hnil : c.tokens = [] := Cursor.tokens_of_scan_error hscan
            have hcons : c.tokens = t :: rest := h
            rw [hnil] at hcons
            simp at hcons
      | cons u ahead => simp [next] at hnext

/-- A token that has to be scanned to be looked at is waiting afterwards. -/
theorem peek_nil_eq_ok {c : Cursor} :
    peek ⟨[], c⟩ = .ok t l' ↔ ∃ c', c.scan = (.ok t, c') ∧ ⟨[t], c'⟩ = l' := by
  have hpeek : peek ⟨[], c⟩ = readAhead ⟨[], c⟩ := rfl
  simp only [hpeek, readAhead, bind_eq_ok, modify_eq_ok, pure_eq_ok, scan_eq]
  rcases c.scan with ⟨e | u, c'⟩
  · simp
  · constructor
    · rintro ⟨_, _, ⟨rfl, rfl⟩, _, _, rfl, rfl, rfl⟩
      exact ⟨c', rfl, rfl⟩
    · rintro ⟨_, ⟨rfl, rfl⟩, rfl⟩
      exact ⟨_, _, rfl, ⟨⟩, _, rfl, rfl, rfl⟩

/-- Looking at a token with `peek` leaves the list as it is. -/
theorem tokens_of_peek (h : peek l = .ok t l') :
    l'.tokens = l.tokens ∧ ∃ rest, l.tokens = t :: rest := by
  obtain ⟨ahead, c⟩ := l
  cases ahead with
  | nil =>
      obtain ⟨c', hscan, rfl⟩ := peek_nil_eq_ok.mp h
      have htokens : tokens ⟨[], c⟩ = tokens ⟨[t], c'⟩ := Cursor.tokens_of_scan hscan
      refine ⟨htokens.symm, ?_⟩
      rw [htokens, tokens, tokensBehind]
      split <;> simp
  | cons u ahead =>
      simp only [peek, peekNth, List.getElem?_cons_zero, EStateM.Result.ok.injEq] at h
      obtain ⟨rfl, rfl⟩ := h
      refine ⟨rfl, ?_⟩
      rw [tokens, tokensBehind]
      split <;> simp

/-- The first token of the list can be looked at. -/
theorem peek_of_tokens {rest : List Token} (h : l.tokens = t :: rest) :
    ∃ l', peek l = .ok t l' := by
  obtain ⟨ahead, c⟩ := l
  cases ahead with
  | nil =>
      obtain ⟨l', hnext⟩ := next_of_tokens h
      simp only [next, scan_eq] at hnext
      split at hnext
      · rename_i u c' hscan
        simp only [EStateM.Result.ok.injEq] at hnext
        obtain ⟨rfl, -⟩ := hnext
        exact ⟨_, peek_nil_eq_ok.mpr ⟨c', hscan, rfl⟩⟩
      · simp at hnext
  | cons u ahead =>
      rw [tokens, tokensBehind] at h
      have hu : u = t := by
        split at h <;> exact (List.cons.inj h).1
      exact ⟨⟨u :: ahead, c⟩, by rw [hu]; rfl⟩

/-- A token that `pushBack` puts back stands in front. -/
theorem tokens_of_pushBack {u : Unit} (h : pushBack t l = .ok u l') (ht : t.kind ≠ .eof) :
    l'.tokens = t :: l.tokens := by
  simp only [pushBack, modify_eq_ok] at h
  subst h
  show tokensBehind l.cursor (t :: l.ahead) = _
  rw [tokensBehind, if_neg ht]
  rfl

/-! ### Reading a whole text

`drain` is reading without a parser.  It stops at the first error or at the end; where it
comes to the end, what it has collected are the tokens without the last.
-/

theorem step_of_scan_error {c c' : Cursor} {e : LexError} (h : c.scan = (.error e, c')) :
    step ⟨[], c⟩ = (some (.error e), ⟨[], c'.toEnd⟩) := by
  simp only [step, next, scan_eq, h]

private theorem step_of_scan {c c' : Cursor} (h : c.scan = (.ok t, c')) :
    step ⟨[], c⟩ = (if t.kind = .eof then none else some (.ok t), ⟨[], c'⟩) := by
  simp only [step, next, scan_eq, h]
  split <;> rfl

/-- A cursor that came to the end stays there, so that the end can be read again. -/
theorem next_of_scan_eof {c c' : Cursor} (h : c.scan = (.ok t, c')) (hk : t.kind = .eof) :
    next ⟨[], c'⟩ = .ok t ⟨[], c'⟩ := by
  rcases Cursor.scan_eq_ok h with ⟨-, hstay⟩ | ⟨cs, text, hread, -⟩
  · simp only [next, scan_eq, hstay]
  · exact absurd hk (Lexeme.append_of_read hread).2

/-- `drainFrom` puts the tokens of a text that has an end behind those that it was given. -/
theorem drainFrom_eq_iff (fuel : Nat) :
    ∀ {done out : List Token} {c : Cursor} {e : Token}, c.rest.length < fuel →
      ((∃ l, drainFrom done fuel ⟨[], c⟩ = (out, none, l) ∧ next l = .ok e l) ↔
        ∃ ts, out = done.reverse ++ ts ∧ c.tokens = ts ++ [e] ∧ e.kind = .eof) := by
  induction fuel with
  | zero =>
      intro done out c e h
      omega
  | succ fuel ih =>
      intro done out c e hfuel
      rw [drainFrom]
      rcases hscan : c.scan with ⟨err | t, c'⟩
      · rw [step_of_scan_error hscan, Cursor.tokens_of_scan_error hscan]
        simp
      rw [step_of_scan hscan, Cursor.tokens_of_scan hscan]
      by_cases hk : t.kind = .eof
      · -- Draining stops here, and asked again the stream gives the same end.
        have hagain := next_of_scan_eof hscan hk
        simp only [if_pos hk, Prod.mk.injEq, true_and]
        constructor
        · rintro ⟨_, ⟨rfl, rfl⟩, hnext⟩
          rw [hagain] at hnext
          simp only [EStateM.Result.ok.injEq, and_true] at hnext
          subst hnext
          exact ⟨[], by simp, rfl, hk⟩
        · rintro ⟨ts, rfl, hts, -⟩
          obtain ⟨rfl, rfl⟩ : ts = [] ∧ t = e := by
            cases ts with
            | nil => exact ⟨rfl, (List.cons.inj hts).1⟩
            | cons u ts => simp at hts
          exact ⟨_, ⟨by simp, rfl⟩, hagain⟩
      · -- One token less is left, and one step of fuel less is needed.
        have hlt := Cursor.length_lt_of_scan hscan hk
        simp only [if_neg hk]
        rw [ih (by omega)]
        constructor
        · rintro ⟨ts, rfl, hts, he⟩
          exact ⟨t :: ts, by simp, by simp [hts], he⟩
        · rintro ⟨ts, rfl, hts, he⟩
          cases ts with
          | nil =>
              obtain ⟨rfl, -⟩ := List.cons.inj hts
              exact absurd he hk
          | cons u ts =>
              obtain ⟨rfl, hrest⟩ := List.cons.inj hts
              exact ⟨ts, by simp, hrest, he⟩

/-- Draining without an error comes to the end. -/
theorem exists_next_of_drainFrom (fuel : Nat) :
    ∀ {done out : List Token} {c : Cursor} {l : Lexer}, c.rest.length < fuel →
      drainFrom done fuel ⟨[], c⟩ = (out, none, l) → ∃ e, next l = .ok e l := by
  induction fuel with
  | zero =>
      intro done out c l hfuel
      omega
  | succ fuel ih =>
      intro done out c l hfuel h
      rw [drainFrom] at h
      rcases hscan : c.scan with ⟨e | t, d⟩
      · simp [step_of_scan_error hscan] at h
      rw [step_of_scan hscan] at h
      by_cases hk : t.kind = .eof
      · simp only [if_pos hk, Prod.mk.injEq, true_and] at h
        obtain ⟨-, rfl⟩ := h
        exact ⟨t, next_of_scan_eof hscan hk⟩
      · simp only [if_neg hk] at h
        have hlt := Cursor.length_lt_of_scan hscan hk
        exact ih (by omega) h

/-- **A text is read to its end just when its tokens have one.** -/
theorem drain_eq_iff {text : List Char} {w : Nat} {ts : List Token} {e : Token} :
    (∃ l, (ofText text w).drain = (ts, none, l) ∧ next l = .ok e l) ↔
      (ofText text w).tokens = ts ++ [e] ∧ e.kind = .eof := by
  have hbound : (ofText text w).bound = (Cursor.ofText text w).rest.length := Nat.zero_add _
  rw [drain, hbound, tokens_ofText, ofText, drainFrom_eq_iff _ (Nat.lt_succ_self _)]
  simp

end Lexer

end StackCode
