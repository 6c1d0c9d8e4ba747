/-
What is read off the start of a text.

`Lexeme.read` goes by the first characters of a text and takes as many more as belong to
them.  `Lexeme.Reads` says which tokens and errors that gives, case by case and with no
mention of how the characters are taken: what was taken, why it is a token, and why the
next character does not belong to it.  The two agree on every text (`read_eq_iff`), so
what is proved of scanning is proved from the cases of `Reads`.

Numerals and words are runs of characters of one sort, and stop before a character of
another sort.  Marks are different.  Here a table says how each mark is spelled
(`Mark.spelling`), and the reader is a tree of choices that never looks at the table.  What
joins them is that two or more characters at the start of a mark are a mark again
(`Mark.exists_spelling_take`): a reader that goes on while one more character makes a mark
cannot pass by a longer one (`Mark.length_le_of_stops`).
-/
import Mathlib.Data.List.TakeWhile
import StackCode.Token.Scan

namespace StackCode

/-! ### Radix marks

A numeral announces its radix twice, to the reader of the text and to the reader of the
token, and each of them has a table of its own.  `RadixMark` is what both tables say.
-/

namespace Numeral

/-- The marks of the radixes, with a letter of either case. -/
inductive RadixMark : List Char → Nat → Prop where
  | decimal : RadixMark [] 10
  | hexadecimal {x : Char} (letter : x = 'x' ∨ x = 'X') : RadixMark ['0', x] 16
  | octal {x : Char} (letter : x = 'o' ∨ x = 'O') : RadixMark ['0', x] 8
  | binary {x : Char} (letter : x = 'b' ∨ x = 'B') : RadixMark ['0', x] 2

/-- A mark of two characters announces its radix before any digits. -/
theorem RadixMark.splitRadix_cons {x : Char} {radix : Nat} (h : RadixMark ['0', x] radix)
    (digits : List Char) : splitRadix ('0' :: x :: digits) = (radix, digits) := by
  cases h with
  | hexadecimal letter | octal letter | binary letter => rcases letter with rfl | rfl <;> rfl

/-- What stands in front of the digits announces their radix. -/
theorem radixMark_splitRadix (text : List Char) :
    ∃ lead, RadixMark lead (splitRadix text).1 ∧ text = lead ++ (splitRadix text).2 := by
  unfold splitRadix
  split
  · exact ⟨_, .hexadecimal (.inl rfl), rfl⟩
  · exact ⟨_, .hexadecimal (.inr rfl), rfl⟩
  · exact ⟨_, .binary (.inl rfl), rfl⟩
  · exact ⟨_, .binary (.inr rfl), rfl⟩
  · exact ⟨_, .octal (.inl rfl), rfl⟩
  · exact ⟨_, .octal (.inr rfl), rfl⟩
  · exact ⟨_, .decimal, rfl⟩

/-- The letter of a radix mark is no decimal digit and no blank, and the radix is not ten. -/
theorem RadixMark.letter_plain {x : Char} {radix : Nat} (h : RadixMark ['0', x] radix) :
    Lexeme.isNumeralChar 10 x = false ∧ (x ≠ ' ' ∧ x ≠ '\n' ∧ x ≠ '\t' ∧ x ≠ '\r') ∧
      radix ≠ 10 := by
  cases h with
  | hexadecimal letter | octal letter | binary letter => rcases letter with rfl | rfl <;> decide

/-- A decimal digit stands for its distance from zero. -/
theorem digit?_of_isDigit {c : Char} (h : c.isDigit = true) :
    digit? 10 c = some (c.toNat - '0'.toNat) := by
  simp only [Char.isDigit, ge_iff_le, Bool.and_eq_true, decide_eq_true_eq] at h
  have hlow : '0' ≤ c := h.1
  have hhigh : c ≤ '9' := h.2
  have hval : c.toNat - '0'.toNat < 10 := by
    have hle : c.toNat ≤ 57 := hhigh
    have hzero : '0'.toNat = 48 := rfl
    omega
  rw [digit?, digitValue?, if_pos ⟨hlow, hhigh⟩, Option.filter_some, if_pos (by simpa using hval)]

end Numeral

namespace Lexeme

open Numeral (RadixMark)

/-- **The reader of the text and the reader of the token take a numeral in the same radix.** -/
theorem radixAt_eq_splitRadix (cs : List Char) : radixAt cs = (Numeral.splitRadix cs).1 := by
  unfold radixAt
  split
  any_goals rfl
  unfold Numeral.splitRadix
  split <;> simp_all

theorem radixAt_of_radixMark {x : Char} {radix : Nat} (h : RadixMark ['0', x] radix)
    (digits : List Char) : radixAt ('0' :: x :: digits) = radix := by
  rw [radixAt_eq_splitRadix, h.splitRadix_cons]

/-- A radix other than ten is announced by two characters. -/
theorem radixMark_of_radixAt {cs : List Char} (h : radixAt cs ≠ 10) :
    ∃ x digits, cs = '0' :: x :: digits ∧ RadixMark ['0', x] (radixAt cs) := by
  rw [radixAt_eq_splitRadix] at h ⊢
  obtain ⟨lead, hmark, hcs⟩ := Numeral.radixMark_splitRadix cs
  generalize Numeral.splitRadix cs = split at h hmark hcs
  obtain ⟨radix, digits⟩ := split
  cases hmark with
  | decimal => exact absurd rfl h
  | hexadecimal letter => exact ⟨_, _, hcs, .hexadecimal letter⟩
  | octal letter => exact ⟨_, _, hcs, .octal letter⟩
  | binary letter => exact ⟨_, _, hcs, .binary letter⟩

end Lexeme

/-! ### Marks that go on

The reader never compares a whole mark.  It takes a character and asks for one more, so what
it has taken is a mark at all times but at the first character of `!=`.  `followers` are the
characters that it may ask for, and `Stops` is that none of them comes next.
-/

namespace Mark

/-- A mark starts with a character that starts nothing else. -/
theorem spelling_eq_cons (m : Mark) :
    ∃ c cs, m.spelling = c :: cs ∧ c.isDigit = false ∧ Lexeme.isWordStart c = false := by
  cases m <;> exact ⟨_, _, rfl, rfl, rfl⟩

private theorem spelling_injective {m m' : Mark} (h : m.spelling = m'.spelling) : m = m' := by
  have hall : ∀ a ∈ all, ∀ b ∈ all, a.spelling = b.spelling → a = b := by decide +kernel
  exact hall m m.mem_all m' m'.mem_all h

/-- Two or more characters at the start of a mark are a mark. -/
theorem exists_spelling_take (m : Mark) {n : Nat} (hn : 2 ≤ n) :
    ∃ m' : Mark, m'.spelling = m.spelling.take n := by
  have hlength : m.spelling.length ≤ 4 := by cases m <;> decide
  by_cases hwhole : 4 ≤ n
  · exact ⟨m, (List.take_of_length_le (by omega)).symm⟩
  have hshort : ∀ a ∈ all, ∀ k ∈ [2, 3], ∃ b ∈ all, b.spelling = a.spelling.take k := by
    decide +kernel
  have hk : n ∈ [2, 3] := by
    simp only [List.mem_cons, List.not_mem_nil, or_false]
    omega
  obtain ⟨m', -, hm'⟩ := hshort m m.mem_all n hk
  exact ⟨m', hm'⟩

/-- The characters that make a longer mark of the mark. -/
def followers (m : Mark) : List Char :=
  all.filterMap fun m' => if m'.spelling.dropLast = m.spelling then m'.spelling.getLast? else none

private theorem mem_followers {m m' : Mark} {d : Char} (h : m'.spelling = m.spelling ++ [d]) :
    d ∈ m.followers := by
  refine List.mem_filterMap.mpr ⟨m', m'.mem_all, ?_⟩
  rw [h, List.dropLast_concat, if_pos rfl, List.getLast?_concat]

/-- A text does not go on with a character that makes a longer mark of the mark. -/
def Stops (m : Mark) (rest : List Char) : Prop := ∀ d ∈ rest.head?, d ∉ m.followers

theorem stops_nil (m : Mark) : m.Stops [] := by
  intro d hd
  simp at hd

/-- **Where a mark stops, no longer mark starts.** -/
theorem length_le_of_stops {m m' : Mark} {rest : List Char} (hstops : m.Stops rest)
    (hstarts : m'.spelling <+: m.spelling ++ rest) : m'.spelling.length ≤ m.spelling.length := by
  by_contra hlt
  have hlonger : m.spelling.length < m'.spelling.length := by omega
  obtain ⟨more, hmore⟩ := hstarts
  -- The longer mark would go on with the next character of the text.
  cases rest with
  | nil =>
      have hlength := congrArg List.length hmore
      simp only [List.length_append, List.length_nil] at hlength
      omega
  | cons d rest =>
      have hpos : 0 < m.spelling.length := by
        obtain ⟨c, cs, hcs, -, -⟩ := m.spelling_eq_cons
        simp [hcs]
      obtain ⟨m'', hm''⟩ := m'.exists_spelling_take (n := m.spelling.length + 1) (by omega)
      have htake : m'.spelling.take (m.spelling.length + 1) = m.spelling ++ [d] := by
        have hfront := congrArg (List.take (m.spelling.length + 1)) hmore
        rwa [List.take_append_of_le_length hlonger, List.take_append, List.take_of_length_le
          (Nat.le_succ _), Nat.add_sub_cancel_left, List.take_succ_cons, List.take_zero] at hfront
      exact hstops d rfl (mem_followers (hm''.trans htake))

/-- A text starts with only one mark that stops there. -/
theorem eq_of_stops {m m' : Mark} {rest rest' : List Char} (h : m.Stops rest) (h' : m'.Stops rest')
    (heq : m.spelling ++ rest = m'.spelling ++ rest') : m = m' ∧ rest = rest' := by
  have hle : m'.spelling.length ≤ m.spelling.length := length_le_of_stops h ⟨rest', heq.symm⟩
  have hge : m.spelling.length ≤ m'.spelling.length := length_le_of_stops h' ⟨rest, heq⟩
  obtain ⟨hspelling, hrest⟩ := List.append_inj heq (by omega)
  exact ⟨spelling_injective hspelling, hrest⟩

section Stops

variable {m : Mark} {rest : List Char} {d e : Char}

private theorem Stops.of_nil (h : m.followers = []) : m.Stops rest := by
  intro f _ hf
  rw [h] at hf
  exact List.not_mem_nil hf

theorem Stops.of_one (h : m.followers = [d]) (hd : ∀ more, rest = d :: more → False) :
    m.Stops rest := by
  intro f hhead hf
  obtain ⟨more, hmore⟩ := List.head?_eq_some_iff.mp hhead
  rw [h, List.mem_singleton] at hf
  exact hd more (hf ▸ hmore)

private theorem Stops.of_two (h : m.followers = [d, e]) (hd : ∀ more, rest = d :: more → False)
    (he : ∀ more, rest = e :: more → False) : m.Stops rest := by
  intro f hhead hf
  obtain ⟨more, hmore⟩ := List.head?_eq_some_iff.mp hhead
  rw [h, List.mem_cons, List.mem_singleton] at hf
  rcases hf with rfl | rfl
  · exact hd more hmore
  · exact he more hmore

end Stops

end Mark

/-! ### The cases of reading

Each constructor has the text in the form in which it was cut: what was taken, then the
rest, with the reason why the cut is there.  The reasons are such that no text can be cut in
two ways, and that is what makes `Reads` usable in both directions.
-/

namespace Lexeme

open Numeral (RadixMark)

/-- What a text starts with. -/
inductive Reads : List Char → Lexeme → Prop where
  | nothing : Reads [] .nothing
  | decimal {c : Char} {cs rest : List Char} (hradix : radixAt (c :: cs ++ rest) = 10)
      (hc : c.isDigit = true) (hcs : ∀ d ∈ cs, isNumeralChar 10 d = true)
      (hrest : ∀ d ∈ rest.head?, isNumeralChar 10 d = false) :
      Reads (c :: cs ++ rest) (.token .integer (c :: cs) rest)
  | radix {x d : Char} {ds rest : List Char} {radix : Nat} (hx : RadixMark ['0', x] radix)
      (hd : Numeral.isDigit radix d = true) (hds : ∀ e ∈ ds, isNumeralChar radix e = true)
      (hrest : ∀ e ∈ rest.head?, isNumeralChar radix e = false) :
      Reads ('0' :: x :: d :: ds ++ rest) (.token .integer ('0' :: x :: d :: ds) rest)
  | word {c : Char} {cs rest : List Char} (hc : isWordStart c = true)
      (hcs : ∀ d ∈ cs, isWordChar d = true) (hrest : ∀ d ∈ rest.head?, isWordChar d = false) :
      Reads (c :: cs ++ rest) (.token (.ofWord (String.ofList (c :: cs))) (c :: cs) rest)
  | mark {m : Mark} {rest : List Char} (hrest : m.Stops rest) :
      Reads (m.spelling ++ rest) (.token (.mark m) m.spelling rest)
  /-- A radix mark without a digit of the radix. -/
  | bareRadix {x : Char} {rest : List Char} {radix : Nat} (hx : RadixMark ['0', x] radix)
      (hrest : ∀ d ∈ rest.head?, Numeral.isDigit radix d = false) :
      Reads ('0' :: x :: rest) (.incomplete (digitName radix) ['0', x] rest)
  /-- An exclamation mark without an equals sign. -/
  | bang {rest : List Char} (hrest : rest.head? ≠ some '=') :
      Reads ('!' :: rest) (.incomplete "'='" ['!'] rest)
  | stray {c : Char} {rest : List Char} (hdigit : c.isDigit = false)
      (hstart : isWordStart c = false) (hmark : ∀ m : Mark, m.spelling.head? ≠ some c) :
      Reads (c :: rest) (.stray c rest)

/-! #### Runs of characters

`takeWhile` and `dropWhile` do the cutting for numerals and words.  `exists_run` makes the cut
and `takeWhile_run` finds it again.
-/

/-- A numeral of any radix is read on as long as there are digits and underscores. -/
theorem isNumeralChar_iff {radix : Nat} {c : Char} :
    isNumeralChar radix c = true ↔ Numeral.isDigit radix c = true ∨ c = '_' := by
  simp [isNumeralChar]

theorem isNumeralChar_of_isDigit {c : Char} (h : c.isDigit = true) : isNumeralChar 10 c = true := by
  simp [isNumeralChar, Numeral.isDigit, Numeral.digit?_of_isDigit h]

theorem isWordChar_of_isWordStart {c : Char} (h : isWordStart c = true) : isWordChar c = true := by
  simp only [isWordStart, isWordChar, Char.isAlphanum, Bool.or_eq_true, decide_eq_true_eq] at h ⊢
  rcases h with h | h
  · exact Or.inl (Or.inl h)
  · exact Or.inr h

theorem not_isDigit_of_isWordStart {c : Char} (h : isWordStart c = true) : c.isDigit = false := by
  have hcases : (c.isUpper || c.isLower) = true ∨ c = '_' := by
    rw [isWordStart, Bool.or_eq_true, decide_eq_true_eq] at h
    exact h
  rw [← Bool.not_eq_true, Char.isDigit_iff_toNat]
  rintro ⟨-, hle⟩
  have hnine : '9'.toNat = 57 := rfl
  rcases hcases with halpha | rfl
  · rcases Bool.or_eq_true_iff.mp halpha with hupper | hlower
    · have hge : 65 ≤ c.toNat := (of_decide_eq_true hupper).1
      omega
    · have hge : 97 ≤ c.toNat := of_decide_eq_true (Bool.and_eq_true_iff.mp hlower).1
      omega
  · exact absurd hle (by decide)

/-- A text starts with a run of characters of one sort, which may be empty. -/
theorem exists_run (p : Char → Bool) (cs : List Char) :
    ∃ text rest, cs = text ++ rest ∧ (∀ c ∈ text, p c = true) ∧
      ∀ d ∈ rest.head?, p d = false := by
  refine ⟨cs.takeWhile p, cs.dropWhile p, List.takeWhile_append_dropWhile.symm, ?_, ?_⟩
  · exact fun c hc => List.mem_takeWhile_imp hc
  · intro d hd
    have hnot := List.head?_dropWhile_not p cs
    rw [Option.mem_def.mp hd] at hnot
    exact hnot

/-- A run of characters of one sort is taken whole, and no more than that. -/
theorem takeWhile_run {p : Char → Bool} {c : Char} {text rest : List Char} (hc : p c = true)
    (htext : ∀ d ∈ text, p d = true) (hrest : ∀ d ∈ rest.head?, p d = false) :
    (c :: text ++ rest).takeWhile p = c :: text ∧ (c :: text ++ rest).dropWhile p = rest := by
  have hall : ∀ d ∈ c :: text, p d = true := List.forall_mem_cons.mpr ⟨hc, htext⟩
  rw [List.takeWhile_append_of_pos hall, List.dropWhile_append_of_pos hall]
  cases rest with
  | nil => simp
  | cons d rest => simp [hrest d rfl]

/-! #### Marks

`ReadsMark` has the cases of `Reads` that `readMark` decides on.  Its tree of choices is opened
once, in `readMark_reads`; the marks of two angle brackets go through `readShift`, which is
the same for both directions and so is looked at for any four marks of that shape.
-/

private theorem eat_cases (ch : Char) (cs : List Char) :
    (∃ rest, cs = ch :: rest ∧ eat ch cs = ([ch], rest)) ∨
      (∀ rest, cs = ch :: rest → False) ∧ eat ch cs = ([], cs) := by
  cases cs with
  | nil => exact .inr ⟨by simp, rfl⟩
  | cons c cs =>
      by_cases hc : c = ch
      · exact .inl ⟨cs, by rw [hc], by rw [eat, if_pos hc, hc]⟩
      · exact .inr ⟨fun rest h => hc (List.cons.inj h).1, by rw [eat, if_neg hc]⟩

/-- What can be read where neither a numeral nor a word starts. -/
inductive ReadsMark : List Char → Lexeme → Prop where
  | mark {m : Mark} {rest : List Char} (hrest : m.Stops rest) :
      ReadsMark (m.spelling ++ rest) (.token (.mark m) m.spelling rest)
  | bang {rest : List Char} (hrest : rest.head? ≠ some '=') :
      ReadsMark ('!' :: rest) (.incomplete "'='" ['!'] rest)
  | stray {c : Char} {rest : List Char} (hmark : ∀ m : Mark, m.spelling.head? ≠ some c) :
      ReadsMark (c :: rest) (.stray c rest)

/-- The characters of a mark were taken off a text, and it stops there. -/
theorem ReadsMark.taken {m : Mark} {text taken rest : List Char} (htext : text = taken ++ rest)
    (htaken : taken = m.spelling) (hrest : m.Stops rest) :
    ReadsMark text (.token (.mark m) taken rest) := by
  subst htext htaken
  exact .mark hrest

section Shift

variable {ch : Char} {shift shiftEqual rotate rotateEqual : Mark}

/-- After two characters there are four marks to choose from, and the longest is chosen. -/
theorem readShift_reads (hshift : shift.spelling = [ch, ch] ∧ shift.followers = [ch, '='])
    (hshiftEqual : shiftEqual.spelling = [ch, ch, '='] ∧ shiftEqual.followers = [])
    (hrotate : rotate.spelling = [ch, ch, ch] ∧ rotate.followers = ['='])
    (hrotateEqual : rotateEqual.spelling = [ch, ch, ch, '='] ∧ rotateEqual.followers = [])
    (cs : List Char) :
    ReadsMark (ch :: ch :: cs) (readShift ch shift shiftEqual rotate rotateEqual cs) := by
  unfold readShift
  rcases eat_cases ch cs with ⟨cs, rfl, hthird⟩ | ⟨hthird, heat⟩
  · rcases eat_cases '=' cs with ⟨cs, rfl, hassign⟩ | ⟨hassign, heat⟩
    · simp only [hthird, hassign]
      exact ReadsMark.taken rfl hrotateEqual.1.symm (.of_nil hrotateEqual.2)
    · simp only [hthird, heat]
      exact ReadsMark.taken rfl hrotate.1.symm (.of_one hrotate.2 hassign)
  · rcases eat_cases '=' cs with ⟨cs, rfl, hassign⟩ | ⟨hassign, hnone⟩
    · simp only [heat, hassign]
      exact ReadsMark.taken rfl hshiftEqual.1.symm (.of_nil hshiftEqual.2)
    · simp only [heat, hnone]
      exact ReadsMark.taken rfl hshift.1.symm (.of_two hshift.2 hthird hassign)

end Shift

/-- The reader of marks goes on while one more character makes a mark. -/
theorem readMark_reads (c : Char) (cs : List Char) : ReadsMark (c :: cs) (readMark c cs) := by
  unfold readMark
  split
  all_goals dsimp only
  -- Brackets, separators and `~` stand alone.
  iterate 7 exact ReadsMark.taken rfl rfl (.of_nil rfl)
  -- `+`, `-`, `*`, `/`, `%` and `=` go on with an equals sign.
  iterate 6
    · exact ReadsMark.taken rfl rfl (.of_nil rfl)
    · rename_i hequal
      exact ReadsMark.taken rfl rfl (.of_one rfl hequal)
  · exact ReadsMark.taken rfl rfl (.of_nil rfl)
  · rename_i hequal
    refine .bang ?_
    intro hhead
    obtain ⟨more, hmore⟩ := List.head?_eq_some_iff.mp hhead
    exact hequal more hmore
  -- `&` and `|` go on with an equals sign or with themselves.
  iterate 2
    · exact ReadsMark.taken rfl rfl (.of_nil rfl)
    · exact ReadsMark.taken rfl rfl (.of_nil rfl)
    · rename_i hequal hself
      exact ReadsMark.taken rfl rfl (.of_two rfl hself hequal)
  · rename_i rest
    rcases eat_cases '=' rest with ⟨more, rfl, heat⟩ | ⟨hequal, heat⟩
    · rw [heat]
      exact ReadsMark.taken rfl rfl (.of_nil rfl)
    · rw [heat]
      exact ReadsMark.taken rfl rfl (.of_one rfl hequal)
  · exact ReadsMark.taken rfl rfl (.of_nil rfl)
  · rename_i hself hequal
    exact ReadsMark.taken rfl rfl (.of_two rfl hself hequal)
  -- `<` and `>` go on with an equals sign, or as shifts and rotations.
  iterate 2
    · exact ReadsMark.taken rfl rfl (.of_nil rfl)
    · rename_i rest
      refine readShift_reads ?_ ?_ ?_ ?_ rest
      all_goals exact ⟨rfl, rfl⟩
    · rename_i hequal hself
      exact ReadsMark.taken rfl rfl (.of_two rfl hself hequal)
  -- No mark starts with any other character.
  · refine .stray ?_
    intro m hhead
    cases m
    all_goals
      obtain rfl := Option.some.inj hhead
      contradiction

/-- An exclamation mark starts `!=` and no other mark. -/
theorem head?_of_bang {m : Mark} {rest cs : List Char} (h : m.spelling ++ rest = '!' :: cs) :
    cs.head? = some '=' := by
  obtain rfl : m = .bangEqual := by
    have hhead := congrArg List.head? h
    cases m with
    | bangEqual => rfl
    | _ => simp [Mark.spelling] at hhead
  rw [← (List.cons.inj h).2]
  rfl

private theorem head?_of_append {m : Mark} {c : Char} {rest cs : List Char}
    (h : m.spelling ++ rest = c :: cs) : m.spelling.head? = some c := by
  obtain ⟨d, ds, hm, -, -⟩ := m.spelling_eq_cons
  rw [hm] at h ⊢
  rw [(List.cons.inj h).1]
  rfl

/-- Of a mark, half a mark and a stray character no two are read off one text. -/
theorem ReadsMark.unique {cs : List Char} {l l' : Lexeme} (h : ReadsMark cs l)
    (h' : ReadsMark cs l') : l = l' := by
  cases h with
  | @mark m rest hstops =>
      generalize htext : m.spelling ++ rest = text at h'
      cases h' with
      | mark hstops' =>
          obtain ⟨rfl, rfl⟩ := Mark.eq_of_stops hstops hstops' htext
          rfl
      | bang hrest => exact absurd (head?_of_bang htext) hrest
      | stray hmark => exact absurd (head?_of_append htext) (hmark _)
  | bang hrest =>
      generalize htext : '!' :: _ = text at h'
      cases h' with
      | mark _ => exact absurd (head?_of_bang htext.symm) hrest
      | bang _ =>
          obtain rfl := (List.cons.inj htext).2
          rfl
      | stray hmark =>
          obtain rfl := (List.cons.inj htext).1
          exact absurd rfl (hmark .bangEqual)
  | stray hmark =>
      generalize htext : _ :: _ = text at h'
      cases h' with
      | mark _ => exact absurd (head?_of_append htext.symm) (hmark _)
      | bang _ =>
          obtain rfl := (List.cons.inj htext).1
          exact absurd rfl (hmark .bangEqual)
      | stray _ =>
          obtain ⟨rfl, rfl⟩ := List.cons.inj htext
          rfl

theorem ReadsMark.reads {c : Char} {cs : List Char} {l : Lexeme} (h : ReadsMark (c :: cs) l)
    (hdigit : c.isDigit = false) (hstart : isWordStart c = false) : Reads (c :: cs) l := by
  generalize htext : c :: cs = text at h
  cases h with
  | mark hrest => exact .mark hrest
  | bang hrest => exact .bang hrest
  | stray hmark =>
      obtain ⟨rfl, -⟩ := List.cons.inj htext
      exact .stray hdigit hstart hmark

/-! #### All texts

`read` chooses by the first character among digits, word characters and all others.  One
direction of `read_eq_iff` is that every choice gives a case of `Reads`; the other is that a
case of `Reads` leads `read` back to the same choice.
-/

private theorem readNumeral_reads {c : Char} {cs : List Char} (hc : c.isDigit = true) :
    Reads (c :: cs) (readNumeral (c :: cs)) := by
  by_cases hten : radixAt (c :: cs) = 10
  · obtain ⟨text, rest, rfl, htext, hrest⟩ := exists_run (isNumeralChar 10) cs
    obtain ⟨htake, hdrop⟩ := takeWhile_run (isNumeralChar_of_isDigit hc) htext hrest
    rw [← List.cons_append] at hten ⊢
    simp only [readNumeral, hten, if_true, readDigits, List.nil_append, htake, hdrop]
    exact .decimal hten hc htext hrest
  obtain ⟨x, digits, hcs, hx⟩ := radixMark_of_radixAt hten
  rw [hcs] at hten hx ⊢
  simp only [readNumeral, if_neg hten, List.drop_succ_cons, List.drop_zero, List.take_succ_cons,
    List.take_zero]
  generalize radixAt ('0' :: x :: digits) = radix at hx
  split
  · rename_i hfirst
    cases digits with
    | nil => simp at hfirst
    | cons d ds =>
        obtain ⟨text, rest, rfl, htext, hrest⟩ := exists_run (isNumeralChar radix) ds
        have hd : Numeral.isDigit radix d = true := hfirst
        obtain ⟨htake, hdrop⟩ := takeWhile_run (isNumeralChar_iff.mpr (.inl hd)) htext hrest
        rw [readDigits, ← List.cons_append, htake, hdrop]
        exact .radix hx hd htext hrest
  · rename_i hnone
    refine .bareRadix hx ?_
    intro d hd
    rw [Option.mem_def.mp hd, Option.any_some] at hnone
    exact Bool.eq_false_iff.mpr hnone

private theorem readWord_reads {c : Char} {cs : List Char} (hc : isWordStart c = true) :
    Reads (c :: cs) (readWord (c :: cs)) := by
  obtain ⟨text, rest, rfl, htext, hrest⟩ := exists_run isWordChar cs
  obtain ⟨htake, hdrop⟩ := takeWhile_run (isWordChar_of_isWordStart hc) htext hrest
  rw [readWord, ← List.cons_append, htake, hdrop]
  exact .word hc htext hrest

private theorem read_reads (cs : List Char) : Reads cs (read cs) := by
  cases cs with
  | nil => exact .nothing
  | cons c cs =>
      rw [read]
      split
      · rename_i hdigit
        exact readNumeral_reads hdigit
      split
      · rename_i hstart
        exact readWord_reads hstart
      · rename_i hdigit hstart
        exact (readMark_reads c cs).reads (Bool.eq_false_iff.mpr hdigit)
          (Bool.eq_false_iff.mpr hstart)

private theorem read_of_isDigit {c : Char} {cs : List Char} (hc : c.isDigit = true) :
    read (c :: cs) = readNumeral (c :: cs) := by
  rw [read, if_pos hc]

private theorem read_of_isWordStart {c : Char} {cs : List Char} (hc : isWordStart c = true) :
    read (c :: cs) = readWord (c :: cs) := by
  rw [read, not_isDigit_of_isWordStart hc, hc]
  rfl

private theorem read_of_neither {c : Char} {cs : List Char} (hdigit : c.isDigit = false)
    (hstart : isWordStart c = false) : read (c :: cs) = readMark c cs := by
  rw [read, hdigit, hstart]
  rfl

/-- **The cases say what is read, and no two of them apply to one text.** -/
theorem read_eq_iff {cs : List Char} {l : Lexeme} : read cs = l ↔ Reads cs l := by
  constructor
  · rintro rfl
    exact read_reads cs
  intro h
  cases h with
  | nothing => rfl
  | @decimal c cs rest hradix hc hcs hrest =>
      obtain ⟨htake, hdrop⟩ := takeWhile_run (isNumeralChar_of_isDigit hc) hcs hrest
      rw [List.cons_append] at hradix htake hdrop ⊢
      simp only [read_of_isDigit hc, readNumeral, hradix, readDigits, htake, hdrop, if_true,
        List.nil_append]
  | @radix x d ds rest radix hx hd hds hrest =>
      obtain ⟨htake, hdrop⟩ := takeWhile_run (isNumeralChar_iff.mpr (.inl hd)) hds hrest
      rw [List.cons_append] at htake hdrop
      have hzero : '0'.isDigit = true := rfl
      simp only [List.cons_append, read_of_isDigit hzero, readNumeral, radixAt_of_radixMark hx,
        hx.letter_plain.2.2, List.drop_succ_cons, List.drop_zero, List.head?_cons,
        Option.any_some, hd, readDigits, List.take_succ_cons, List.take_zero, List.nil_append,
        htake, hdrop, if_true, if_false]
  | @word c cs rest hc hcs hrest =>
      obtain ⟨htake, hdrop⟩ := takeWhile_run (isWordChar_of_isWordStart hc) hcs hrest
      rw [List.cons_append] at htake hdrop ⊢
      simp only [read_of_isWordStart hc, readWord, htake, hdrop]
  | @mark m rest hrest =>
      obtain ⟨c, cs, hm, hdigit, hstart⟩ := m.spelling_eq_cons
      -- `readMark` reads one of the marks, and there is only one that can be read here.
      have hreads := ReadsMark.mark hrest
      rw [hm, List.cons_append] at hreads ⊢
      rw [read_of_neither hdigit hstart]
      exact (readMark_reads c _).unique hreads
  | @bareRadix x rest radix hx hrest =>
      have hzero : '0'.isDigit = true := rfl
      have hnone : rest.head?.any (Numeral.isDigit radix) = false := by
        cases hhead : rest.head? with
        | none => rfl
        | some d => exact hrest d (by rw [hhead]; rfl)
      simp [read_of_isDigit hzero, readNumeral, radixAt_of_radixMark hx, hx.letter_plain.2.2, hnone]
  | @bang rest hrest =>
      rw [read_of_neither rfl rfl]
      exact (readMark_reads '!' rest).unique (.bang hrest)
  | @stray c rest hdigit hstart hmark =>
      rw [read_of_neither hdigit hstart]
      exact (readMark_reads c rest).unique (.stray hmark)

end Lexeme

end StackCode
