/-
Looking ahead and putting back cannot be told from reading a list.

A stream can be asked for its next token, for a look at a token some places ahead, and to
take back the token that was taken last.  Behind this are tokens in a queue, `Lexer.ahead`,
filled at its end by looking ahead and at its front by putting back, and a text of which
nothing is known.

Seen from outside there is a list and a place in it.  The list is `Lexer.answer`: what a
stream that is only asked for its next token gives, one after another.  These are tokens and
then the end of the text for ever, or tokens and then the first error (`answer_eq_getD`).
Taking a token moves the place forward, putting one back moves it back, and looking does not
move it.  `Request.onList` is this reading of a request.

What is behind is tied to what is seen by `Session.At`: the answers that the stream will
give from now on are those of the list from the place on, and the tokens that were taken are
those before the place.  Every request keeps it (`serve_agrees`), and so does any number of
them (`answers_eq`).
-/
import StackCode.Proofs.Stream

namespace StackCode

open Sequencing

namespace Lexer

/-! ### Answers

`answer l n` is defined by making `n + 1` requests, so it does not say where the tokens come
from.  A token that waits in `ahead` is an answer as it stands (`answer_of_getElem?`), and
what is behind the queue is answered by the text alone (`answer_append`).  Reading ahead
moves the border between queue and text and must not be seen: `readAhead_answers` is the one
lemma where a scan is made, and `Looks` is what it comes to for every way of looking.
-/

/-- The answer to the last of `n + 1` requests for the next token, or the first error. -/
def answer (l : Lexer) : Nat → Except LexError Token
  | 0 =>
    match next l with
    | .ok t _ => .ok t
    | .error e _ => .error e
  | n + 1 =>
    match next l with
    | .ok _ l' => answer l' n
    | .error e _ => .error e

variable {l l' : Lexer} {t : Token} {e : LexError} {c c' : Cursor} {ahead : List Token}

private theorem answer_zero_of_next (h : next l = .ok t l') : l.answer 0 = .ok t := by
  simp only [answer, h]

private theorem answer_succ_of_next (h : next l = .ok t l') (n : Nat) :
    l.answer (n + 1) = l'.answer n := by
  simp only [answer, h]

private theorem answer_of_next_error (h : next l = .error e l') (n : Nat) :
    l.answer n = .error e := by
  cases n <;> simp only [answer, h]

private theorem next_cons : next ⟨t :: ahead, c⟩ = .ok t ⟨ahead, c⟩ := rfl

@[simp] theorem answer_cons_zero : answer ⟨t :: ahead, c⟩ 0 = .ok t :=
  answer_zero_of_next next_cons

@[simp] theorem answer_cons_succ (n : Nat) :
    answer ⟨t :: ahead, c⟩ (n + 1) = answer ⟨ahead, c⟩ n :=
  answer_succ_of_next next_cons n

/-- Tokens that are waiting are given before what is behind them. -/
theorem answer_append (ahead more : List Token) (n : Nat) :
    answer ⟨ahead ++ more, c⟩ (ahead.length + n) = answer ⟨more, c⟩ n := by
  induction ahead with
  | nil => rw [List.nil_append, List.length_nil, Nat.zero_add]
  | cons t ahead ih =>
      rw [List.cons_append, List.length_cons, Nat.succ_add, answer_cons_succ, ih]

/-- A token that is waiting is the answer at its place. -/
private theorem answer_of_getElem? : ∀ {ahead : List Token} {n : Nat}, ahead[n]? = some t →
    answer ⟨ahead, c⟩ n = .ok t
  | [], _, h => by simp at h
  | u :: ahead, 0, h => by
      obtain rfl : u = t := by simpa using h
      exact answer_cons_zero
  | u :: ahead, n + 1, h => by
      rw [answer_cons_succ]
      exact answer_of_getElem? (by simpa using h)

/-- What is waiting in front does not matter if what follows gives the same answers. -/
theorem answer_congr {more more' : List Token}
    (h : ∀ n, answer ⟨more, c⟩ n = answer ⟨more', c'⟩ n) :
    ∀ (ahead : List Token) (n : Nat), answer ⟨ahead ++ more, c⟩ n = answer ⟨ahead ++ more', c'⟩ n
  | [], n => h n
  | t :: ahead, 0 => by
      rw [List.cons_append, List.cons_append, answer_cons_zero, answer_cons_zero]
  | t :: ahead, n + 1 => by
      rw [List.cons_append, List.cons_append, answer_cons_succ, answer_cons_succ]
      exact answer_congr h ahead n

private theorem next_of_scan (h : c.scan = (.ok t, c')) : next ⟨[], c⟩ = .ok t ⟨[], c'⟩ := by
  simp only [next, scan_eq, h]

private theorem next_of_scan_error (h : c.scan = (.error e, c')) :
    next ⟨[], c⟩ = .error e ⟨[], c'⟩ := by
  simp only [next, scan_eq, h]

/-- Reading a token ahead leaves the answers as they are, and gives the first one behind. -/
theorem readAhead_answers (l : Lexer) :
    (∃ t l', readAhead l = .ok t l' ∧ l'.ahead.length = l.ahead.length + 1 ∧
      l.answer l.ahead.length = .ok t ∧ ∀ n, l'.answer n = l.answer n) ∨
    ∃ e l', readAhead l = .error e l' ∧ ∀ n, l.answer (l.ahead.length + n) = .error e := by
  obtain ⟨ahead, c⟩ := l
  -- What is read ahead stands behind everything that waits already.
  have hbehind : ∀ n, answer ⟨ahead, c⟩ (ahead.length + n) = answer ⟨[], c⟩ n := by
    intro n
    rw [← answer_append ahead [] n, List.append_nil]
  rcases hscan : c.scan with ⟨e | t, c'⟩
  · refine .inr ⟨e, ⟨ahead, c'⟩, ?_, fun n => ?_⟩
    · simp only [readAhead, scan, bind, EStateM.bind, hscan]
    · rw [hbehind, answer_of_next_error (next_of_scan_error hscan)]
  · refine .inl ⟨t, ⟨ahead ++ [t], c'⟩, ?_, by simp, ?_, fun n => ?_⟩
    · have hread : scan ⟨ahead, c⟩ = .ok t ⟨ahead, c'⟩ := by simp only [scan, hscan]
      exact bind_of_ok hread
    · have hfirst := hbehind 0
      rw [Nat.add_zero] at hfirst
      rw [hfirst, answer_zero_of_next (next_of_scan hscan)]
    · -- To scan now and have the token wait is to scan later; the rest is `answer_congr`.
      have hsame : ∀ n, answer ⟨[t], c'⟩ n = answer ⟨[], c⟩ n := by
        intro n
        cases n with
        | zero => rw [answer_cons_zero, answer_zero_of_next (next_of_scan hscan)]
        | succ n => rw [answer_cons_succ, answer_succ_of_next (next_of_scan hscan)]
      rw [answer_congr hsame, List.append_nil]

/-- Looking at a token gives an answer of the stream, and leaves all answers as they are. -/
def Looks (n : Nat) (look : Lexing Token) (l : Lexer) : Prop :=
  (∃ t l', look l = .ok t l' ∧ l.answer n = .ok t ∧ ∀ i, l'.answer i = l.answer i) ∨
    ∃ e l', look l = .error e l' ∧ l.answer n = .error e

private theorem readAheadMany_looks (n : Nat) :
    ∀ l : Lexer, Looks (l.ahead.length + n) (readAheadMany n) l := by
  induction n with
  | zero =>
      intro l
      rcases readAhead_answers l with ⟨t, l', hread, -, hanswer, hsame⟩ | ⟨e, l', hread, herror⟩
      · exact .inl ⟨t, l', hread, hanswer, hsame⟩
      · exact .inr ⟨e, l', hread, herror 0⟩
  | succ n ih =>
      intro l
      rcases readAhead_answers l with ⟨t, m, hread, hlength, -, hsame⟩ | ⟨e, l', hread, herror⟩
      · have hmany : readAheadMany (n + 1) l = readAheadMany n m := bind_of_ok hread
        have hplace : m.ahead.length + n = l.ahead.length + (n + 1) := by omega
        have hlooks := ih m
        rw [Looks, hplace] at hlooks
        rw [Looks, hmany, ← hsame]
        simpa only [hsame] using hlooks
      · refine .inr ⟨e, l', ?_, herror (n + 1)⟩
        simp only [readAheadMany, bind, EStateM.bind, hread]

private theorem peekNth_looks (n : Nat) (l : Lexer) : Looks n (peekNth n) l := by
  cases hwaiting : l.ahead[n]? with
  | some t =>
      refine .inl ⟨t, l, ?_, answer_of_getElem? hwaiting, fun _ => rfl⟩
      simp only [peekNth, hwaiting]
  | none =>
      have hplace : l.ahead.length + (n - l.ahead.length) = n := by
        have hge := List.getElem?_eq_none_iff.mp hwaiting
        omega
      have hmany : peekNth n l = readAheadMany (n - l.ahead.length) l := by
        simp only [peekNth, hwaiting]
      have hlooks := readAheadMany_looks (n - l.ahead.length) l
      rw [hplace] at hlooks
      rw [Looks, hmany]
      exact hlooks

/-- A text gives tokens, and then its end for ever or its first error. -/
theorem answer_eq_getD (c : Cursor) : ∃ (ts : List Token) (last : Except LexError Token),
    (∀ t ∈ ts, t.kind ≠ .eof) ∧ (∀ t, last = .ok t → t.kind = .eof) ∧
      ∀ n, answer ⟨[], c⟩ n = (ts.map Except.ok).getD n last := by
  -- `Cursor.tokens` scans as often as there are tokens, and its three cases are the three ways
  -- a scan can end.
  fun_induction Cursor.tokens c with
  | case1 c e c' hscan =>
      exact ⟨[], .error e, by simp, by simp, answer_of_next_error (next_of_scan_error hscan)⟩
  | case2 c t c' hscan hk =>
      refine ⟨[], .ok t, by simp, ?_, fun n => ?_⟩
      · intro u hu
        rwa [← Except.ok.inj hu]
      · -- The cursor stays at the end, so every request finds the same state.
        have hstay := next_of_scan_eof hscan hk
        have hend : ∀ n, answer ⟨[], c'⟩ n = .ok t := by
          intro n
          induction n with
          | zero => exact answer_zero_of_next hstay
          | succ n ih => rw [answer_succ_of_next hstay, ih]
        cases n with
        | zero => exact answer_zero_of_next (next_of_scan hscan)
        | succ n => rw [answer_succ_of_next (next_of_scan hscan), hend]; rfl
  | case3 c t c' hscan hk ih =>
      obtain ⟨ts, last, hts, hlast, hanswer⟩ := ih
      refine ⟨t :: ts, last, ?_, hlast, fun n => ?_⟩
      · intro u hu
        rcases List.mem_cons.mp hu with rfl | hu
        · exact hk
        · exact hts u hu
      · cases n with
        | zero => exact answer_zero_of_next (next_of_scan hscan)
        | succ n => rw [answer_succ_of_next (next_of_scan hscan), hanswer]; rfl

/-! ### Requests

Two ways of serving the same requests are compared: `Session.serve` does what the stream
does, and `Request.onList` reads the list.  Both are run by `answers`, which stops at the
first error, since what a stream holds after an error is a matter of its own.  Putting back
is restricted to what a caller can mean by it, the latest token that is not back yet; where
there is none both sides do nothing.
-/

/-- What can be asked of a stream. -/
inductive Request where
  | next
  | peek
  | peekNth (n : Nat)
  /-- Take back the token that was taken last and is not back yet. -/
  | pushBack
deriving DecidableEq, Repr

/-- A stream with the tokens that were taken from it and are not back yet, the latest first. -/
structure Session where
  lexer : Lexer
  taken : List Token

namespace Session

/-- Look at a token, which leaves those that were taken as they are. -/
def look (s : Session) (step : Lexing Token) : Except LexError (Option Token × Session) :=
  match step s.lexer with
  | .ok t l => .ok (some t, ⟨l, s.taken⟩)
  | .error e _ => .error e

/-- Do what is asked.  Where no token was taken there is none to take back. -/
def serve : Request → Session → Except LexError (Option Token × Session)
  | .next, s =>
    match Lexer.next s.lexer with
    | .ok t l => .ok (some t, ⟨l, t :: s.taken⟩)
    | .error e _ => .error e
  | .peek, s => s.look Lexer.peek
  | .peekNth n, s => s.look (Lexer.peekNth n)
  | .pushBack, ⟨l, []⟩ => .ok (none, ⟨l, []⟩)
  | .pushBack, ⟨l, t :: taken⟩ =>
    match Lexer.pushBack t l with
    | .ok _ l' => .ok (none, ⟨l', taken⟩)
    | .error e _ => .error e

end Session

/-- Do what is asked of a list, at a place in it. -/
def Request.onList (list : Nat → Except LexError Token) :
    Request → Nat → Except LexError (Option Token × Nat)
  | .next, k => (list k).map fun t => (some t, k + 1)
  | .peek, k => (list k).map fun t => (some t, k)
  | .peekNth n, k => (list (k + n)).map fun t => (some t, k)
  | .pushBack, k => .ok (none, k - 1)

/-- What is answered to one request after another, up to the first error. -/
def answers {σ : Type} (serve : Request → σ → Except LexError (Option Token × σ)) :
    List Request → σ → List (Except LexError (Option Token))
  | [], _ => []
  | r :: requests, s =>
    match serve r s with
    | .ok (a, s') => .ok a :: answers serve requests s'
    | .error e => [.error e]

/-- The stream will answer as the list from the place on, and what was taken stands before it. -/
structure Session.At (s : Session) (list : Nat → Except LexError Token) (k : Nat) : Prop where
  coming : ∀ i, s.lexer.answer i = list (k + i)
  length : s.taken.length = k
  -- The latest token that was taken stands right before the place.
  taken : ∀ {i : Nat} {t : Token}, s.taken[i]? = some t → list (k - (i + 1)) = .ok t

namespace Session.At

variable {s : Session} {list : Nat → Except LexError Token} {k : Nat}

/-- At the start the list is what the stream will answer. -/
theorem start (l : Lexer) : At ⟨l, []⟩ l.answer 0 :=
  ⟨fun i => by rw [Nat.zero_add], rfl, by simp⟩

/-- Both fail with one error, or both answer alike and stay together. -/
def Agrees (list : Nat → Except LexError Token) (x : Except LexError (Option Token × Session))
    (y : Except LexError (Option Token × Nat)) : Prop :=
  (∃ e, x = .error e ∧ y = .error e) ∨
    ∃ a s' k', x = .ok (a, s') ∧ y = .ok (a, k') ∧ At s' list k'

private theorem next_agrees (h : s.At list k) :
    Agrees list (s.serve .next) (Request.next.onList list k) := by
  have hzero : s.lexer.answer 0 = list k := h.coming 0
  cases hnext : Lexer.next s.lexer with
  | error e l =>
      rw [answer_of_next_error hnext] at hzero
      refine .inl ⟨e, ?_, ?_⟩
      · simp only [serve, hnext]
      · rw [Request.onList, ← hzero]
        rfl
  | ok t l =>
      rw [answer_zero_of_next hnext] at hzero
      refine .inr ⟨some t, ⟨l, t :: s.taken⟩, k + 1, ?_, ?_, ?_, ?_, ?_⟩
      · simp only [serve, hnext]
      · rw [Request.onList, ← hzero]
        rfl
      · intro i
        rw [← answer_succ_of_next hnext, h.coming, Nat.add_right_comm]
        rfl
      · rw [List.length_cons, h.length]
      · intro i u hu
        cases i with
        | zero =>
            obtain rfl : t = u := by simpa using hu
            exact hzero.symm
        | succ i =>
            rw [Nat.add_sub_add_right]
            exact h.taken hu

private theorem look_agrees (h : s.At list k) {n : Nat} {look : Lexing Token}
    (hlook : Looks n look s.lexer) :
    Agrees list (s.look look) ((list (k + n)).map fun t => (some t, k)) := by
  rw [← h.coming]
  rcases hlook with ⟨t, l, hok, hanswer, hsame⟩ | ⟨e, l, herror, hanswer⟩
  · refine .inr ⟨some t, ⟨l, s.taken⟩, k, ?_, ?_, ?_, h.length, h.taken⟩
    · simp only [Session.look, hok]
    · rw [hanswer]
      rfl
    · intro i
      rw [hsame, h.coming]
  · refine .inl ⟨e, ?_, ?_⟩
    · simp only [Session.look, herror]
    · rw [hanswer]
      rfl

private theorem pushBack_agrees (h : s.At list k) :
    Agrees list (s.serve .pushBack) (Request.pushBack.onList list k) := by
  obtain ⟨l, taken⟩ := s
  obtain rfl : taken.length = k := h.length
  cases taken with
  | nil => exact .inr ⟨none, ⟨l, []⟩, 0, rfl, rfl, h⟩
  | cons t taken =>
      refine .inr ⟨none, ⟨⟨t :: l.ahead, l.cursor⟩, taken⟩, taken.length, rfl, rfl, ?_, rfl, ?_⟩
      · intro i
        cases i with
        | zero =>
            rw [answer_cons_zero]
            exact (h.taken (i := 0) rfl).symm
        | succ i =>
            rw [answer_cons_succ, Nat.add_left_comm, Nat.add_comm, ← List.length_cons]
            exact h.coming i
      · intro i u hu
        -- The tokens that are still out were one place further back before.
        have hbefore := h.taken (i := i + 1) hu
        rwa [List.length_cons, Nat.add_sub_add_right] at hbefore

/-- **Every request is answered as by the list.** -/
theorem serve_agrees (h : s.At list k) (r : Request) :
    Agrees list (s.serve r) (r.onList list k) := by
  cases r with
  | next => exact h.next_agrees
  | peek => exact h.look_agrees (peekNth_looks 0 s.lexer)
  | peekNth n => exact h.look_agrees (peekNth_looks n s.lexer)
  | pushBack => exact h.pushBack_agrees

/-- So are any number of requests, one after another. -/
theorem answers_eq (requests : List Request) :
    ∀ {s : Session} {k : Nat}, s.At list k →
      answers serve requests s = answers (Request.onList list) requests k := by
  induction requests with
  | nil => exact fun _ => rfl
  | cons r requests ih =>
      intro s k h
      rcases h.serve_agrees r with ⟨e, hx, hy⟩ | ⟨a, s', k', hx, hy, h'⟩
      · simp only [answers, hx, hy]
      · simp only [answers, hx, hy, ih h']

end Session.At

/--
**Lookahead and putting back are transparent.**  Ask the stream of a text for whatever one
likes, in any order.  Up to the first error it answers as a place in a list does, and fails
where the list has an error.  The list is what the stream gives when it is only asked for
its next token: tokens, and then the end of the text for ever or the first error.
-/
theorem requests_answered_by_list (text : List Char) (tabWidth : Nat) :
    (∃ (ts : List Token) (last : Except LexError Token),
      (∀ t ∈ ts, t.kind ≠ .eof) ∧ (∀ t, last = .ok t → t.kind = .eof) ∧
        ∀ n, (ofText text tabWidth).answer n = (ts.map Except.ok).getD n last) ∧
    ∀ requests : List Request,
      answers Session.serve requests ⟨ofText text tabWidth, []⟩ =
        answers (Request.onList (ofText text tabWidth).answer) requests 0 :=
  ⟨answer_eq_getD _, fun requests => Session.At.answers_eq requests (.start _)⟩

end Lexer

end StackCode
