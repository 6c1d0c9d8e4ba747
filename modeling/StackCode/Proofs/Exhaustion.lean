/-
Reading always comes to an end.

A stream that meets a bad character can go on behind it.  Whoever reads it and ignores the
errors relies on every one of them being behind the one before: an error that left the
cursor where it was would be met again and again.  So what has to be seen is that
`Cursor.scan` never stands still, whatever it finds.  It finds the end of the text, or it
takes at least one character off it, a lone exclamation mark and a radix without digits
included.  `Cursor.Advances` is this relation between two cursors, and `scan_advances` the
dichotomy.

Nothing is ever put back into the text.  Tokens that are put back wait in `Lexer.ahead`, in
front of it, and each of them is taken by one request.  What is waiting and what is left of
the text therefore bound together how long a stream can be read before its end is met.  This
is `Lexer.bound`, and `next_lowers` says that a request for the next token lowers it or
meets the end.

A stream that is read as a whole by `Lexer.step` stops at the first error.  It does so by
moving on to the end of the text, and this is only enough because nothing is waiting by then
(`step_toEnd`).

None of this depends on how the stream got where it is.  `InUse.run` does any number of
things with a stream, and what they cost is counted in characters: `act_spends` is the step,
`run_spends` the run.
-/
import Mathlib.Logic.Function.Iterate
import StackCode.Proofs.Tiling

namespace StackCode

open Sequencing

/-! ### A scan does not stand still

Between two cursors of one text nothing but the rest of the text matters here, so `Advances`
speaks of `rest` alone and leaves lines and columns out.  It goes through blanks on either
side (`after_suffix`, `before_suffix`), which is what lets a fact about `scanHere`, where no
blank is left, become one about `scan`.
-/

namespace Cursor

/-- At least one character was taken off the text between the two cursors, and none put back. -/
structure Advances (c c' : Cursor) : Prop where
  suffix : c'.rest <:+ c.rest
  shorter : c'.rest.length < c.rest.length

variable {c c' d : Cursor}

/-- Taking a text that is not empty off the front is an advance. -/
private theorem Advances.of_append {taken : List Char} (h : c.rest = taken ++ c'.rest)
    (hne : taken ≠ []) : c.Advances c' := by
  refine ⟨⟨taken, h.symm⟩, ?_⟩
  have hpos := List.length_pos_iff.mpr hne
  rw [h, List.length_append]
  omega

private theorem Advances.after_suffix (h : c.Advances c') (hd : c.rest <:+ d.rest) :
    d.Advances c' :=
  ⟨h.suffix.trans hd, Nat.lt_of_lt_of_le h.shorter hd.length_le⟩

private theorem Advances.before_suffix (h : c.Advances c') (hd : d.rest <:+ c'.rest) :
    c.Advances d :=
  ⟨hd.trans h.suffix, Nat.lt_of_le_of_lt hd.length_le h.shorter⟩

private theorem skipTrivia_suffix (c : Cursor) : c.skipTrivia.rest <:+ c.rest := by
  obtain ⟨gap, hrest, -⟩ := c.skipTrivia_spec
  exact ⟨gap, hrest.symm⟩

/-- Where there is no blank, the text is at its end or something is read off it. -/
theorem scanHere_advances (c : Cursor) :
    (∃ t, c.scanHere.1 = .ok t ∧ t.kind = .eof ∧ c.scanHere.2 = c) ∨
      c.Advances c.scanHere.2 := by
  rw [scanHere]
  cases hread : Lexeme.read c.rest with
  | nothing => exact .inl ⟨_, rfl, rfl, rfl⟩
  | token kind text rest =>
      obtain ⟨happend, -⟩ := Lexeme.append_of_read hread
      exact .inr (.of_append happend.symm (Lexeme.ne_nil_of_read hread))
  -- What is incomplete has at least the character that made it so, which stands last in the
  -- text that was read.
  | incomplete expected text rest =>
      obtain ⟨happend, last, hlast, -⟩ := Lexeme.append_of_read_incomplete hread
      refine .inr (.of_append happend.symm ?_)
      rintro rfl
      simp at hlast
  | stray ch rest =>
      have hcons : c.rest = [ch] ++ rest := Lexeme.eq_cons_of_read_stray hread
      exact .inr (.of_append hcons (by simp))

/-- **A scan finds the end of the text, or takes something off it.** -/
theorem scan_advances (c : Cursor) :
    (∃ t, c.scan.1 = .ok t ∧ t.kind = .eof ∧ c.scan.2 = c.skipTrivia) ∨ c.Advances c.scan.2 := by
  rcases c.skipTrivia.scanHere_advances with heof | hadvances
  · exact .inl heof
  · exact .inr (hadvances.after_suffix c.skipTrivia_suffix)

private theorem scan_suffix (c : Cursor) : c.scan.2.rest <:+ c.rest := by
  rcases c.scan_advances with ⟨_, -, -, hstay⟩ | hadvances
  · rw [hstay]
    exact c.skipTrivia_suffix
  · exact hadvances.suffix

/-- A scan that fails takes something off the text. -/
theorem advances_of_scan_error {e : LexError} (h : c.scan = (.error e, c')) : c.Advances c' := by
  rcases c.scan_advances with ⟨t, hok, -⟩ | hadvances
  · rw [h] at hok
    cases hok
  · rwa [h] at hadvances

private theorem dropMark_suffix (text : List Char) : dropMark text <:+ text := by
  obtain ⟨mark, htext, -⟩ := dropMark_spec text
  exact ⟨mark, htext.symm⟩

end Cursor

namespace Lexer

/-! ### Steps, failed or not

A step of type `Lexing` leaves a stream behind also where it fails, and whoever ignores an
error goes on with that stream.  `attempt` keeps both outcomes apart from the answer.
`Consumes` is what all steps on a stream have in common; it goes through `bind`, so for
`readAhead` and `peekNth` only the scan at their bottom has to be looked at.
-/

/-- What a step answers and the stream that it leaves behind, failed or not. -/
def attempt (x : Lexing Token) (l : Lexer) : Except LexError Token × Lexer :=
  match x l with
  | .ok t l' => (.ok t, l')
  | .error e l' => (.error e, l')

private theorem attempt_scan (l : Lexer) :
    attempt scan l = (l.cursor.scan.1, { l with cursor := l.cursor.scan.2 }) := by
  rw [attempt, scan_eq]
  rcases l.cursor.scan with ⟨e | t, c⟩ <;> rfl

/-- The step puts nothing back into the text, and takes something off it where it fails. -/
structure Consumes {α : Type} (x : Lexing α) : Prop where
  ok : ∀ {l l' : Lexer} {a : α}, x l = .ok a l' → l'.cursor.rest <:+ l.cursor.rest
  error : ∀ {l l' : Lexer} {e : LexError}, x l = .error e l' → l.cursor.Advances l'.cursor

namespace Consumes

variable {α β : Type}

theorem bind {x : Lexing α} {f : α → Lexing β} (hx : Consumes x) (hf : ∀ a, Consumes (f a)) :
    Consumes (x >>= f) := by
  refine ⟨fun h => ?_, fun h => ?_⟩
  · obtain ⟨a, m, h₁, h₂⟩ := bind_eq_ok.mp h
    exact ((hf a).ok h₂).trans (hx.ok h₁)
  · rcases bind_eq_error.mp h with h₁ | ⟨a, m, h₁, h₂⟩
    · exact hx.error h₁
    · exact ((hf a).error h₂).after_suffix (hx.ok h₁)

theorem pure (a : α) : Consumes (pure a) := by
  refine ⟨fun h => ?_, fun h => by cases h⟩
  obtain ⟨-, rfl⟩ := pure_eq_ok.mp h
  exact List.suffix_rfl

/-- Tokens that wait are no part of the text. -/
theorem modifyAhead (f : List Token → List Token) :
    Consumes (modify fun l => { l with ahead := f l.ahead }) := by
  refine ⟨fun h => ?_, fun h => by cases h⟩
  obtain rfl := modify_eq_ok.mp h
  exact List.suffix_rfl

end Consumes

/-- The one step that touches the text. -/
private theorem scan_consumes : Consumes scan := by
  refine ⟨fun {l l' t} h => ?_, fun {l l' e} h => ?_⟩
  · rw [scan_eq] at h
    split at h
    · rename_i u c hscan
      obtain ⟨-, rfl⟩ := EStateM.Result.ok.inj h
      have hsuffix := l.cursor.scan_suffix
      rwa [hscan] at hsuffix
    · cases h
  · rw [scan_eq] at h
    split at h
    · cases h
    · rename_i e' c hscan
      obtain ⟨-, rfl⟩ := EStateM.Result.error.inj h
      exact Cursor.advances_of_scan_error hscan

private theorem next_consumes : Consumes next := by
  refine ⟨fun {l l' t} h => ?_, fun {l l' e} h => ?_⟩
  · obtain ⟨_ | ⟨u, ahead⟩, c⟩ := l
    · exact scan_consumes.ok h
    · obtain ⟨-, rfl⟩ := EStateM.Result.ok.inj h
      exact List.suffix_rfl
  · obtain ⟨_ | ⟨u, ahead⟩, c⟩ := l
    · exact scan_consumes.error h
    · cases h

private theorem readAhead_consumes : Consumes readAhead :=
  scan_consumes.bind fun t => (Consumes.modifyAhead (· ++ [t])).bind fun _ => .pure t

private theorem readAheadMany_consumes (n : Nat) : Consumes (readAheadMany n) := by
  induction n with
  | zero => exact readAhead_consumes
  | succ n ih => exact readAhead_consumes.bind fun _ => ih

private theorem peekNth_consumes (n : Nat) : Consumes (peekNth n) := by
  refine ⟨fun {l l' t} h => ?_, fun {l l' e} h => ?_⟩
  · rw [peekNth] at h
    split at h
    · obtain ⟨-, rfl⟩ := EStateM.Result.ok.inj h
      exact List.suffix_rfl
    · exact (readAheadMany_consumes _).ok h
  · rw [peekNth] at h
    split at h
    · cases h
    · exact (readAheadMany_consumes _).error h

/-! ### Asking for the next token, over and over

The measure is `bound`, the number of tokens waiting plus the number of characters left.  A
request takes from the one or from the other.  So at most `bound` requests are made before
one of them is answered with the end of the text, and the induction in `exists_next_eof` is
on a number above the measure, for all streams at once.
-/

/-- The stream after a request for the next token, failed or not. -/
def afterNext (l : Lexer) : Lexer := (attempt next l).2

/-- A request for the next token meets the end, or there is less to be read after it. -/
theorem next_lowers (l : Lexer) :
    (∃ t, (attempt next l).1 = .ok t ∧ t.kind = .eof) ∨ l.afterNext.bound < l.bound := by
  obtain ⟨_ | ⟨t, ahead⟩, c⟩ := l
  · have hnext : attempt next ⟨[], c⟩ = (c.scan.1, ⟨[], c.scan.2⟩) := attempt_scan ⟨[], c⟩
    rw [afterNext, hnext]
    rcases c.scan_advances with ⟨t, hok, hkind, -⟩ | hadvances
    · exact .inl ⟨t, hok, hkind⟩
    · exact .inr (Nat.add_lt_add_left hadvances.shorter 0)
  · -- A token that is waiting is one less of them, whatever it is.
    right
    show ahead.length + c.rest.length < (ahead.length + 1) + c.rest.length
    omega

private theorem exists_next_eof (n : Nat) : ∀ l : Lexer, l.bound ≤ n →
    ∃ k ≤ l.bound, ∃ t, (attempt next (afterNext^[k] l)).1 = .ok t ∧ t.kind = .eof := by
  induction n with
  | zero =>
      intro l hbound
      rcases l.next_lowers with heof | hlower
      · exact ⟨0, Nat.zero_le _, heof⟩
      · omega
  | succ n ih =>
      intro l hbound
      rcases l.next_lowers with heof | hlower
      · exact ⟨0, Nat.zero_le _, heof⟩
      · obtain ⟨k, hk, heof⟩ := ih l.afterNext (by omega)
        refine ⟨k + 1, by omega, ?_⟩
        rwa [Function.iterate_succ_apply]

/-! ### Reading a stream as a whole

`Yields` is what reading on by `step` until it gives nothing amounts to, with no bound on
the number of steps.  `drain` reads with fuel instead.  That the two agree is a matter of
the same measure: by `step_cases` every item but an error lowers `bound`, and behind an
error there is nothing more, so `bound + 1` is fuel enough (`drainFrom_yields`).
-/

/-- Steps give the items one after another, and then none. -/
inductive Yields : Lexer → List (Except LexError Token) → Lexer → Prop where
  | done {l l' : Lexer} (h : l.step = (none, l')) : Yields l [] l'
  | more {l l' l'' : Lexer} {item : Except LexError Token} {items : List (Except LexError Token)}
      (h : l.step = (some item, l')) (rest : Yields l' items l'') : Yields l (item :: items) l''

/-- With nothing waiting, there is nothing to be read behind the end of the text. -/
theorem step_toEnd (c : Cursor) : step ⟨[], c.toEnd⟩ = (none, ⟨[], c.toEnd⟩) := rfl

/-- A step ends the reading, or gives a token and leaves less to be read, or fails for good. -/
theorem step_cases (l : Lexer) :
    (∃ l', l.step = (none, l')) ∨
      (∃ t l', l.step = (some (.ok t), l') ∧ t.kind ≠ .eof ∧ l'.bound < l.bound) ∨
      ∃ e l', l.step = (some (.error e), l') ∧ l'.step = (none, l') ∧ 0 < l.bound := by
  have hlowers := l.next_lowers
  rw [afterNext] at hlowers
  cases hnext : next l with
  | ok t l' =>
      by_cases hkind : t.kind = .eof
      · exact .inl ⟨l', by simp only [step, hnext, if_pos hkind]⟩
      · simp only [attempt, hnext, Except.ok.injEq] at hlowers
        refine .inr (.inl ⟨t, l', by simp only [step, hnext, if_neg hkind], hkind, ?_⟩)
        rcases hlowers with ⟨u, rfl, hu⟩ | hlower
        · exact absurd hu hkind
        · exact hlower
  | error e l' =>
      -- Only a scan can fail, and a stream is scanned when nothing is waiting.
      obtain ⟨_ | ⟨t, ahead⟩, c⟩ := l
      · rcases hscan : c.scan with ⟨e' | t, c'⟩
        · have hadvances := Cursor.advances_of_scan_error hscan
          refine .inr (.inr ⟨e', ⟨[], c'.toEnd⟩, step_of_scan_error hscan, step_toEnd c', ?_⟩)
          show 0 < 0 + c.rest.length
          have hshorter := hadvances.shorter
          omega
        · simp only [next, scan_eq, hscan] at hnext
          cases hnext
      · cases hnext

/-- Enough fuel reads the whole stream: tokens, and at most one error behind them. -/
theorem drainFrom_yields (fuel : Nat) : ∀ (done : List Token) (l : Lexer), l.bound < fuel →
    ∃ (ts : List Token) (e? : Option LexError) (l' : Lexer),
      Yields l (ts.map .ok ++ e?.toList.map .error) l' ∧ (∀ t ∈ ts, t.kind ≠ .eof) ∧
      ts.length + e?.toList.length ≤ l.bound ∧
      drainFrom done fuel l = (done.reverse ++ ts, e?, l') := by
  induction fuel with
  | zero =>
      intro done l hfuel
      omega
  -- The tokens that were found come back to front in `done`, so the induction is for all of
  -- them.
  | succ fuel ih =>
      intro done l hfuel
      rcases l.step_cases with
        ⟨l', hstep⟩ | ⟨t, m, hstep, hkind, hlower⟩ | ⟨e, l', hstep, hend, hpos⟩
      · refine ⟨[], none, l', .done hstep, by simp, Nat.zero_le _, ?_⟩
        simp only [drainFrom, hstep, List.append_nil]
      · obtain ⟨ts, e?, l', hyields, hts, hlength, hdrain⟩ := ih (t :: done) m (by omega)
        refine ⟨t :: ts, e?, l', .more hstep hyields, ?_, ?_, ?_⟩
        · exact List.forall_mem_cons.mpr ⟨hkind, hts⟩
        · rw [List.length_cons]
          omega
        · simp only [drainFrom, hstep, hdrain]
          simp
      · refine ⟨[], some e, l', .more hstep (.done hend), by simp, hpos, ?_⟩
        simp only [drainFrom, hstep, List.append_nil]

/-- However the stream is read on, its end is met. -/
structure Ends (l : Lexer) : Prop where
  /-- A scan finds the end, or takes at least one character off the text. -/
  scan : (∃ t, (attempt scan l).1 = .ok t ∧ t.kind = .eof) ∨
    l.cursor.Advances (attempt scan l).2.cursor
  /-- Requests for the next token meet the end, the errors on the way being ignored. -/
  next : ∃ k ≤ l.bound, ∃ t, (attempt next (afterNext^[k] l)).1 = .ok t ∧ t.kind = .eof
  /-- Read as a whole, the stream gives tokens and at most one error, which is then the last. -/
  items : ∃ (ts : List Token) (e? : Option LexError) (l' : Lexer),
    Yields l (ts.map .ok ++ e?.toList.map .error) l' ∧ (∀ t ∈ ts, t.kind ≠ .eof) ∧
      ts.length + e?.toList.length ≤ l.bound ∧ l.drain = (ts, e?, l')

private theorem ends (l : Lexer) : l.Ends := by
  refine ⟨?_, exists_next_eof l.bound l (Nat.le_refl _), ?_⟩
  · rw [attempt_scan]
    rcases l.cursor.scan_advances with ⟨t, hok, hkind, -⟩ | hadvances
    · exact .inl ⟨t, hok, hkind⟩
    · exact .inr hadvances
  · exact drainFrom_yields (l.bound + 1) [] l (Nat.lt_succ_self _)

/-! ### Streams in use

An `Action` is anything that the interface of a stream allows, and `InUse` is a stream
together with the tokens that one could put back.  Only tokens that came from the stream can
be put back, but any of them, and as often as one likes.  So `bound` can grow without limit
along a run.  What cannot grow is the rest of the text, and errors are paid from it:
`Spends` says so for one action.
-/

/-- What can be done with a stream. -/
inductive Action where
  | next
  | peek
  | peekNth (n : Nat)
  /-- Put back a token that was taken before, the latest one being at 0. -/
  | pushBack (i : Nat)
  /-- Take one step of reading the stream as a whole. -/
  | step
deriving DecidableEq, Repr

/-- A stream with every token that was ever taken from it, the latest first. -/
structure InUse where
  lexer : Lexer
  taken : List Token

namespace InUse

/-- The stream of a text, before anything is done with it. -/
def ofText (text : List Char) (tabWidth : Nat) : InUse := ⟨.ofText text tabWidth, []⟩

/-- Look at a token, which takes none. -/
def look (s : InUse) (x : Lexing Token) : Option (Except LexError Token) × InUse :=
  let (answer, lexer) := attempt x s.lexer
  (some answer, { s with lexer })

/--
Do something with a stream.  The answer is a token or an error, or nothing where a token
is put back or the stream is at its end.  Also where it fails, the stream can be used on.
-/
def act (s : InUse) : Action → Option (Except LexError Token) × InUse
  | .next =>
    let (answer, lexer) := attempt Lexer.next s.lexer
    (some answer, ⟨lexer, answer.toOption.toList ++ s.taken⟩)
  | .peek => s.look Lexer.peek
  | .peekNth n => s.look (Lexer.peekNth n)
  | .pushBack i =>
    match s.taken[i]? with
    | none => (none, s)
    | some t =>
      match Lexer.pushBack t s.lexer with
      | .ok _ lexer => (none, { s with lexer })
      | .error e lexer => (some (.error e), { s with lexer })
  | .step =>
    let (item, lexer) := s.lexer.step
    (item, ⟨lexer, (item.bind Except.toOption).toList ++ s.taken⟩)

/-- Do one thing after another, with all answers. -/
def run (s : InUse) : List Action → List (Option (Except LexError Token)) × InUse
  | [] => ([], s)
  | a :: actions =>
    let (answer, s') := s.act a
    let (answers, s'') := s'.run actions
    (answer :: answers, s'')

/-- Is the answer an error? -/
def isError : Option (Except LexError Token) → Bool
  | some (.error _) => true
  | _ => false

/-- What is done puts nothing back into the text, and takes something off it where it fails. -/
structure Spends (s : InUse) (answer : Option (Except LexError Token)) (s' : InUse) : Prop where
  suffix : s'.lexer.cursor.rest <:+ s.lexer.cursor.rest
  failed : isError answer = true → s.lexer.cursor.Advances s'.lexer.cursor

private theorem Spends.of_consumes {x : Lexing Token} (h : Consumes x) (s : InUse)
    (taken : List Token) :
    s.Spends (some (attempt x s.lexer).1) ⟨(attempt x s.lexer).2, taken⟩ := by
  rw [attempt]
  cases hx : x s.lexer with
  | ok t l' => exact ⟨h.ok hx, fun herror => by cases herror⟩
  | error e l' => exact ⟨(h.error hx).suffix, fun _ => h.error hx⟩

private theorem step_spends (s : InUse) (taken : List Token) :
    s.Spends s.lexer.step.1 ⟨s.lexer.step.2, taken⟩ := by
  rw [step]
  cases hnext : Lexer.next s.lexer with
  | ok t l' =>
      have hsuffix := next_consumes.ok hnext
      by_cases hkind : t.kind = .eof
      · simp only [if_pos hkind]
        exact ⟨hsuffix, fun herror => by cases herror⟩
      · simp only [if_neg hkind]
        exact ⟨hsuffix, fun herror => by cases herror⟩
  | error e l' =>
      -- After an error the step moves on to the end, where the rest is empty and so a suffix of
      -- anything.
      have hadvances : s.lexer.cursor.Advances l'.cursor.toEnd :=
        (next_consumes.error hnext).before_suffix List.nil_suffix
      exact ⟨hadvances.suffix, fun _ => hadvances⟩

/-- **Whatever is done, an error costs a character.** -/
theorem act_spends (s : InUse) (a : Action) : s.Spends (s.act a).1 (s.act a).2 := by
  cases a with
  | next => exact .of_consumes next_consumes s _
  | peek => exact .of_consumes (peekNth_consumes 0) s _
  | peekNth n => exact .of_consumes (peekNth_consumes n) s _
  | pushBack i =>
      rw [act]
      cases s.taken[i]? with
      | none => exact ⟨List.suffix_rfl, fun h => by cases h⟩
      | some t => exact ⟨List.suffix_rfl, fun h => by cases h⟩
  | step => exact step_spends s _

/-- There are no more errors than characters that were taken off the text meanwhile. -/
theorem run_spends (actions : List Action) : ∀ s : InUse,
    (s.run actions).2.lexer.cursor.rest <:+ s.lexer.cursor.rest ∧
      (s.run actions).1.countP isError + (s.run actions).2.lexer.cursor.rest.length ≤
        s.lexer.cursor.rest.length := by
  induction actions with
  | nil => exact fun s => ⟨List.suffix_rfl, Nat.le_of_eq (Nat.zero_add _)⟩
  | cons a actions ih =>
      intro s
      obtain ⟨hsuffix, hcount⟩ := ih (s.act a).2
      have hspends := s.act_spends a
      refine ⟨hsuffix.trans hspends.suffix, ?_⟩
      show List.countP isError ((s.act a).1 :: ((s.act a).2.run actions).1) +
        ((s.act a).2.run actions).2.lexer.cursor.rest.length ≤ _
      rw [List.countP_cons]
      -- An action without an error may leave the text as it is; then the count stays too.
      have hle := hspends.suffix.length_le
      by_cases herror : isError (s.act a).1 = true
      · have hshorter := (hspends.failed herror).shorter
        rw [if_pos herror]
        omega
      · rw [if_neg herror]
        omega

end InUse

/--
**Reading always ends.**  Do whatever one likes with the stream of a text, in any order
and also after errors: take tokens, look at them, put them back, read on as a whole.  All
this meets at most as many errors as characters have been taken off the text.  From where
it leads, a scan finds the end or takes at least one more character; requests for the next
token come to the end although errors are ignored; and reading on as a whole gives tokens
and at most one error, as the last item.
-/
theorem ends_after_actions (text : List Char) (tabWidth : Nat) (actions : List Action) :
    ((InUse.ofText text tabWidth).run actions).2.lexer.Ends ∧
      ((InUse.ofText text tabWidth).run actions).2.lexer.cursor.rest <:+ text ∧
      ((InUse.ofText text tabWidth).run actions).1.countP InUse.isError +
        ((InUse.ofText text tabWidth).run actions).2.lexer.cursor.rest.length ≤ text.length := by
  obtain ⟨hsuffix, hcount⟩ := InUse.run_spends actions (.ofText text tabWidth)
  have htext : (InUse.ofText text tabWidth).lexer.cursor.rest <:+ text :=
    Cursor.dropMark_suffix text
  exact ⟨ends _, hsuffix.trans htext, hcount.trans htext.length_le⟩

end Lexer

end StackCode
