/-
What tokens look like.

`Lexeme.IsToken` says what texts are tokens, and of what kind.  Whatever is read off a text
is one of them (`isToken_of_read`).  The other way round each of them is read where a blank
or the end of the text follows it (`IsToken.read_append`), so a lexeme tells the kind of its
token, and words with blanks between them are read as just these words
(`Cursor.readsAs_intercalate`).
-/
import Mathlib.Data.List.Induction
import StackCode.Proofs.Literals

namespace StackCode

/-! ### The texts that are tokens

There are four sorts: decimal numerals, numerals with a mark for their radix, words and
marks.  What follows a token matters for each of them in its own way.  A blank suits all
(`Breaks`), because it is no digit, no letter, and no part of a mark.
-/

theorem Register.ofName?_name (r : Register) : ofName? r.name = some r := by
  cases r with
  | general n => revert n; decide +kernel
  | sp => decide

namespace Lexeme

open Numeral (RadixMark)

/-- The texts that are tokens, with the kinds of these. -/
inductive IsToken : TokenKind → List Char → Prop where
  | decimal {c : Char} {cs : List Char} (hc : c.isDigit = true)
      (hcs : ∀ d ∈ cs, isNumeralChar 10 d = true) : IsToken .integer (c :: cs)
  | radix {x d : Char} {ds : List Char} {radix : Nat}
      (hx : RadixMark ['0', x] radix)
      (hd : Numeral.isDigit radix d = true) (hds : ∀ d ∈ ds, isNumeralChar radix d = true) :
      IsToken .integer ('0' :: x :: d :: ds)
  | word {c : Char} {cs : List Char} (hc : isWordStart c = true)
      (hcs : ∀ d ∈ cs, isWordChar d = true) : IsToken (.ofWord (String.ofList (c :: cs))) (c :: cs)
  | mark (m : Mark) : IsToken (.mark m) m.spelling

/-- A text that ends or goes on with a blank. -/
def Breaks (rest : List Char) : Prop := rest = [] ∨ ∃ more, rest = ' ' :: more

/-- What is read off a text is a token. -/
theorem isToken_of_read {cs text rest : List Char} {kind : TokenKind}
    (h : read cs = .token kind text rest) : IsToken kind text := by
  cases read_eq_iff.mp h with
  | decimal _ hc hcs => exact .decimal hc hcs
  | radix hx hd hds => exact .radix hx hd hds
  | word hc hcs => exact .word hc hcs
  | @mark m => exact .mark m

private theorem isNumeralChar_blank (radix : Nat) : isNumeralChar radix ' ' = false := by
  have hnone : Numeral.digitValue? ' ' = none := by decide
  simp [isNumeralChar, Numeral.isDigit, Numeral.digit?, hnone]

/-- A sort of characters that blanks are not of ends where the text breaks. -/
theorem Breaks.head? {rest : List Char} (h : Breaks rest) {p : Char → Bool} (hp : p ' ' = false) :
    ∀ d ∈ rest.head?, p d = false := by
  rcases h with rfl | ⟨more, rfl⟩
  · simp
  · simpa using hp

/-- No mark goes on with a blank. -/
theorem Breaks.stops {rest : List Char} (h : Breaks rest) (m : Mark) : m.Stops rest := by
  rcases h with rfl | ⟨more, rfl⟩
  · exact m.stops_nil
  · intro d hd
    obtain rfl : ' ' = d := Option.some.inj hd
    cases m <;> decide

/-- Decimal digits announce no other radix where the text breaks behind them. -/
theorem radixAt_of_decimal {c : Char} {cs rest : List Char}
    (hcs : ∀ d ∈ cs, isNumeralChar 10 d = true) (hrest : Breaks rest) :
    radixAt (c :: cs ++ rest) = 10 := by
  by_contra hne
  obtain ⟨x, digits, heq, hx⟩ := radixMark_of_radixAt hne
  obtain ⟨hdigit, ⟨hblank, -⟩, -⟩ := hx.letter_plain
  have hsecond := (List.cons.inj heq).2
  cases cs with
  | nil =>
      rcases hrest with rfl | ⟨more, rfl⟩
      · simp at hsecond
      · exact hblank (List.cons.inj hsecond).1.symm
  | cons d cs =>
      have hd := hcs d List.mem_cons_self
      rw [(List.cons.inj hsecond).1, hdigit] at hd
      exact Bool.false_ne_true hd

/-- **A token is read off a text where it ends or a blank follows.** -/
theorem IsToken.read_append {kind : TokenKind} {text rest : List Char} (h : IsToken kind text)
    (hrest : Breaks rest) : read (text ++ rest) = .token kind text rest := by
  rw [read_eq_iff]
  cases h with
  | decimal hc hcs =>
      exact .decimal (radixAt_of_decimal hcs hrest) hc hcs (hrest.head? (by decide))
  | @radix x d ds radix hx hd hds =>
      exact .radix hx hd hds (hrest.head? (isNumeralChar_blank radix))
  | word hc hcs => exact .word hc hcs (hrest.head? (by decide))
  | mark m => exact .mark (hrest.stops m)

theorem IsToken.read_eq {kind : TokenKind} {text : List Char} (h : IsToken kind text) :
    read text = .token kind text [] := by
  have hread := h.read_append (.inl rfl)
  rwa [List.append_nil] at hread

/-- A text is a token of one kind only. -/
theorem IsToken.kind_eq {kind kind' : TokenKind} {text : List Char} (h : IsToken kind text)
    (h' : IsToken kind' text) : kind = kind' :=
  (token.inj (h.read_eq.symm.trans h'.read_eq)).1

end Lexeme

/-! ### Decimal numerals

Numbers are printed with the digits of `Nat.repr`.  That `magnitude` finds the number again
is the one fact about them that reading needs.
-/

namespace Numeral

theorem ofDigits_of_isDigit {cs : List Char} (h : ∀ c ∈ cs, c.isDigit = true) :
    Nat.ofDigits 10 (cs.filterMap (digit? 10)).reverse = Nat.ofDigitChars 10 cs 0 := by
  induction cs using List.reverseRecOn with
  | nil => rfl
  | append_singleton cs c ih =>
      have hcs : ∀ d ∈ cs, d.isDigit = true := fun d hd => h d (List.mem_append_left _ hd)
      have hc := digit?_of_isDigit (h c (List.mem_append_right _ (List.mem_singleton_self c)))
      have hlast : [c].filterMap (digit? 10) = [c.toNat - '0'.toNat] := by
        rw [List.filterMap_cons_some hc, List.filterMap_nil]
      rw [List.filterMap_append, hlast, List.reverse_concat, Nat.ofDigits_cons, ih hcs,
        Nat.ofDigitChars, Nat.ofDigitChars, List.foldl_append]
      exact Nat.add_comm ..

private theorem isDigit_of_mem_repr {n : Nat} {c : Char} (h : c ∈ n.repr.toList) :
    c.isDigit = true := by
  rw [Nat.toList_repr] at h
  exact Nat.isDigit_of_mem_toDigits (by decide) (Nat.le_refl 10) h

theorem isToken_repr (n : Nat) : Lexeme.IsToken .integer n.repr.toList := by
  obtain ⟨c, cs, hcs⟩ : ∃ c cs, n.repr.toList = c :: cs := by
    rw [Nat.toList_repr]
    exact List.exists_cons_of_ne_nil Nat.toDigits_ne_nil
  have hall : ∀ d ∈ c :: cs, d.isDigit = true := fun d hd => isDigit_of_mem_repr (hcs ▸ hd)
  rw [hcs]
  exact .decimal (hall c List.mem_cons_self) fun d hd =>
    Lexeme.isNumeralChar_of_isDigit (hall d (List.mem_cons_of_mem c hd))

/-- The decimal digits of a number spell it. -/
theorem magnitude_repr (n : Nat) : magnitude n.repr.toList = n := by
  have hall : ∀ c ∈ n.repr.toList, c.isDigit = true := fun _ => isDigit_of_mem_repr
  have hten : splitRadix n.repr.toList = (10, n.repr.toList) :=
    Lexeme.splitRadix_of_decimal fun c hc => Lexeme.isNumeralChar_of_isDigit (hall c hc)
  rw [magnitude, hten]
  show Nat.ofDigits 10 (n.repr.toList.filterMap (digit? 10)).reverse = n
  rw [ofDigits_of_isDigit hall, Nat.toList_repr]
  exact Nat.ofDigitChars_toDigits (by decide) (Nat.le_refl 10)

end Numeral

/-! ### Words with blanks between them

`spaced` has a blank in front of every word, so a text of words is the first one and then
`spaced` of the others.  `ReadsAs` says that a cursor gives these words and then the end.
-/

namespace Cursor

/-- Words, each of them behind a blank. -/
def spaced (words : List String) : List Char := words.flatMap fun w => ' ' :: w.toList

private theorem breaks_spaced (words : List String) : Lexeme.Breaks (spaced words) := by
  cases words with
  | nil => exact .inl rfl
  | cons w words => exact .inr ⟨_, rfl⟩

private theorem toList_intercalate_blank (w : String) (words : List String) :
    (" ".intercalate (w :: words)).toList = w.toList ++ spaced words := by
  rw [String.toList_intercalate]
  induction words generalizing w with
  | nil => simp [spaced]
  | cons v words ih =>
      simp only [List.map_cons, List.intercalate_cons_cons] at ih ⊢
      rw [ih v, List.append_assoc]
      rfl

/-- The tokens from the cursor on are these words, and then the text ends. -/
def ReadsAs (c : Cursor) (words : List String) : Prop :=
  ∃ ts last, c.tokens = ts ++ [last] ∧ last.kind = .eof ∧ ts.map (·.lexeme) = words

section Words

variable {c : Cursor} {w : String} {words : List String} {kind : TokenKind}
  {cs text rest : List Char}

/-- A token is neither skipped nor taken for a comment. -/
theorem skipTriviaFrom_of_read (h : Lexeme.read cs = .token kind text rest)
    (hrest : Lexeme.Breaks rest) (tabWidth : Nat) (p : Place) :
    skipTriviaFrom tabWidth false p cs = (p, cs) := by
  cases cs with
  | nil => simp [Lexeme.read] at h
  | cons c cs =>
      have hblank : ¬isBlank c = true := by
        intro hblank
        simp only [isBlank, Bool.or_eq_true, decide_eq_true_eq] at hblank
        have hstray : Lexeme.read (c :: cs) = .stray c cs := by
          rcases hblank with ((rfl | rfl) | rfl) | rfl <;> rfl
        rw [hstray] at h
        simp at h
      have hcomment : ¬(c = '/' ∧ cs.head? = some '/') := by
        rintro ⟨rfl, hhead⟩
        obtain ⟨more, rfl⟩ := List.head?_eq_some_iff.mp hhead
        have hslash : Lexeme.read ('/' :: '/' :: more) =
            .token (.mark .slash) ['/'] ('/' :: more) :=
          Lexeme.read_eq_iff.mpr (.mark (m := .slash) (.of_one rfl (by simp)))
        rw [hslash] at h
        obtain ⟨-, -, rfl⟩ := Lexeme.token.inj h
        rcases hrest with hnil | ⟨_, hblank⟩
        · simp at hnil
        · simp at hblank
      rw [skipTriviaFrom, if_neg hblank, if_neg hcomment]

/-- A word is taken off a text, with or without a blank before it. -/
theorem ReadsAs.cons (hw : Lexeme.IsToken kind w.toList)
    (hc : c.rest = w.toList ++ spaced words ∨ c.rest = spaced (w :: words))
    (hmore : ∀ d : Cursor, d.rest = spaced words → d.ReadsAs words) : c.ReadsAs (w :: words) := by
  have hbreaks := breaks_spaced words
  have hread := hw.read_append hbreaks
  have hskip : c.skipTrivia.rest = w.toList ++ spaced words := by
    rcases hc with hc | hc
    · rw [skipTrivia, hc, skipTriviaFrom_of_read hread hbreaks]
    · have hblank : isBlank ' ' = true := rfl
      have hspaced : spaced (w :: words) = ' ' :: (w.toList ++ spaced words) := rfl
      rw [skipTrivia, hc, hspaced, skipTriviaFrom, if_pos hblank,
        skipTriviaFrom_of_read hread hbreaks]
  have hscan : c.scan = (.ok ⟨kind, w, c.skipTrivia.spanOf w⟩,
      c.skipTrivia.advance w.toList (spaced words)) := by
    rw [scan, scanHere, hskip, hread]
    dsimp only
    rw [String.ofList_toList]
  obtain ⟨ts, last, htokens, hlast, hmap⟩ :=
    hmore (c.skipTrivia.advance w.toList (spaced words)) rfl
  refine ⟨⟨kind, w, c.skipTrivia.spanOf w⟩ :: ts, last, ?_, hlast, congrArg (w :: ·) hmap⟩
  rw [tokens_of_scan hscan, if_neg (Lexeme.append_of_read hread).2, htokens]
  rfl

private theorem readsAs_spaced (hwords : ∀ v ∈ words, ∃ kind, Lexeme.IsToken kind v.toList) :
    ∀ c : Cursor, c.rest = spaced words → c.ReadsAs words := by
  induction words with
  | nil =>
      rintro ⟨_, place, tabWidth⟩ rfl
      have hscan : scan ⟨[], place, tabWidth⟩ =
          (.ok ⟨.eof, "", .point place.line place.col⟩, ⟨[], place, tabWidth⟩) := rfl
      exact ⟨[], _, tokens_of_scan hscan, rfl, rfl⟩
  | cons w words ih =>
      intro c hc
      obtain ⟨⟨kind, hw⟩, hrest⟩ := List.forall_mem_cons.mp hwords
      exact .cons hw (.inr hc) (ih hrest)

/-- **A text of words that are tokens is read as these words.** -/
theorem readsAs_intercalate (hwords : ∀ v ∈ w :: words, ∃ kind, Lexeme.IsToken kind v.toList)
    (tabWidth : Nat) :
    (ofText (" ".intercalate (w :: words)).toList tabWidth).ReadsAs (w :: words) := by
  obtain ⟨⟨kind, hw⟩, hrest⟩ := List.forall_mem_cons.mp hwords
  have hread := hw.read_append (breaks_spaced words)
  rw [toList_intercalate_blank]
  have hmark : dropMark (w.toList ++ spaced words) = w.toList ++ spaced words := by
    cases hcs : w.toList ++ spaced words with
    | nil => rfl
    | cons c cs =>
        refine if_neg ?_
        rintro rfl
        have hstray : Lexeme.read (byteOrderMark :: cs) = .stray byteOrderMark cs := rfl
        rw [hcs, hstray] at hread
        simp at hread
  exact .cons hw (.inl hmark) (readsAs_spaced hrest)

end Words

end Cursor

end StackCode
