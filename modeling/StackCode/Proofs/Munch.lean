/-
Maximal munch.

Where no blank and no comment stands, the longest token that a text starts with is
read off it.  Numerals and words go on as long as their characters do
(`length_le_of_run`), and a mark goes on as long as one more character makes a mark of
it (`Mark.length_le_of_stops`), so in no case does a shorter token win over a longer one.

There are two ways to fail.  A radix mark without a digit of the radix and an
exclamation mark without an equals sign start a token that they do not complete, even
if a shorter token, the lone zero, could be read there.  Any other text that starts
with no token starts with a character that begins none.
-/
import StackCode.Proofs.Spelling

namespace StackCode

/-! ### Names of registers

A register is recognised by reading the digits behind the letter, so it takes an argument
that nothing but its name is recognised.  A number without leading zeros is written in one
way (`toDigits_of_value?`); a sign in front of it would do no harm to its value but is no
character of a word.
-/

namespace Numeral

/-- A decimal digit is the `Nat.digitChar` of its value. -/
theorem eq_digitChar_of_digit? {c : Char} {d : Nat} (h : digit? 10 c = some d) :
    d < 10 ∧ c = Nat.digitChar d := by
  obtain ⟨hvalue, hlt⟩ := Option.filter_eq_some_iff.mp h
  have hlt : d < 10 := by simpa using hlt
  refine ⟨hlt, Char.toNat_inj.mp ?_⟩
  rw [Nat.toNat_digitChar_of_lt_ten hlt]
  have hzero : '0'.toNat = 48 := rfl
  unfold digitValue? at hvalue
  split at hvalue
  · rename_i hdigit
    have hlow : 48 ≤ c.toNat := hdigit.1
    have hd := Option.some.inj hvalue
    omega
  -- A letter is worth ten or more.
  split at hvalue
  · have hd := Option.some.inj hvalue
    omega
  split at hvalue
  · have hd := Option.some.inj hvalue
    omega
  · simp at hvalue

/-- Digits behind a number that is not zero write the extended number out. -/
theorem toDigits_of_extend? {limit n v : Nat} {cs : List Char} (hn : 0 < n)
    (h : extend? 10 limit n cs = some v) : Nat.toDigits 10 n ++ cs = Nat.toDigits 10 v := by
  induction cs generalizing n with
  | nil =>
      obtain rfl : n = v := Option.some.inj h
      exact List.append_nil _
  | cons c cs ih =>
      rw [extend?] at h
      split at h
      · simp at h
      rename_i d hd
      split at h
      · obtain ⟨hten, rfl⟩ := eq_digitChar_of_digit? hd
        have hdigits := Nat.toDigits_append_toDigits (b := 10) (by decide) hn hten
        rw [Nat.toDigits_of_lt_base hten, Nat.mul_comm] at hdigits
        rw [← ih (by omega) h, ← hdigits, List.append_assoc]
        rfl
      · simp at h

/-- A decimal number without a leading zero is written in one way, as `Nat.toDigits` does. -/
theorem toDigits_of_value? {limit v : Nat} {cs : List Char} (h : value? 10 limit cs = some v)
    (hzero : ∀ d ds, cs ≠ '0' :: d :: ds) : cs = Nat.toDigits 10 v := by
  cases cs with
  | nil => simp [value?] at h
  | cons c cs =>
      rw [value?, extend?] at h
      split at h
      · simp at h
      rename_i d hd
      obtain ⟨hten, rfl⟩ := eq_digitChar_of_digit? hd
      split at h
      · rw [Nat.zero_mul, Nat.zero_add] at h
        by_cases hpos : 0 < d
        · rw [← toDigits_of_extend? hpos h, Nat.toDigits_of_lt_base hten]
          rfl
        · obtain rfl : d = 0 := by omega
          cases cs with
          | nil =>
              obtain rfl : 0 = v := Option.some.inj h
              rfl
          | cons d ds => exact absurd rfl (hzero d ds)
      · simp at h

end Numeral

namespace Register

/-- The number of a general register is written without leading zeros. -/
theorem name_of_general? {digits : List Char} {r : Register} (h : ofWord?.general? digits = some r)
    (hzero : ∀ d ds, digits ≠ '0' :: d :: ds) : r.name.toList = 'r' :: digits := by
  obtain ⟨n, hvalue, hr⟩ := Option.bind_eq_some_iff.mp h
  split at hr
  · obtain rfl := Option.some.inj hr
    rw [name, String.toList_append, Nat.toString_eq_repr, Nat.toList_repr,
      Numeral.toDigits_of_value? hvalue hzero]
    rfl
  · simp at hr

/--
A word without a plus sign names a register for `ofWord?` only if it is the register's
`name`.
-/
theorem name_of_ofWord? {cs : List Char} {r : Register} (h : ofWord? cs = some r)
    (hplus : '+' ∉ cs) : r.name.toList = cs := by
  unfold ofWord? at h
  split at h
  · obtain rfl := Option.some.inj h
    rfl
  · simp at h
  · simp at hplus
  · rename_i digits hzero _
    exact name_of_general? h fun d ds hds => hzero d ds (by rw [hds])
  · simp at h

end Register

/-! ### Kinds of lexemes

`HasKind` says which kind a text has by comparing it with the names that are reserved.  The
reader looks them up in an order; here there is none, and a word is an identifier if it is
none of the others.
-/

namespace Lexeme

/-- The kind that a lexeme has by its text. -/
inductive HasKind : List Char → TokenKind → Prop where
  | integer {c : Char} {cs : List Char} (hc : c.isDigit = true) : HasKind (c :: cs) .integer
  | keyword (k : Keyword) : HasKind k.text.toList (.keyword k)
  | intrinsic (i : Intrinsic) : HasKind i.name.toList (.intrinsic i)
  | register (r : Register) : HasKind r.name.toList .register
  /-- A word that is no keyword, no intrinsic and no register. -/
  | identifier {c : Char} {cs : List Char} (hc : isWordStart c = true)
      (hkeyword : ∀ k : Keyword, k.text.toList ≠ c :: cs)
      (hintrinsic : ∀ i : Intrinsic, i.name.toList ≠ c :: cs)
      (hregister : ∀ r : Register, r.name.toList ≠ c :: cs) : HasKind (c :: cs) .identifier
  | mark (m : Mark) : HasKind m.spelling (.mark m)

private theorem plus_not_mem_of_isWordChar {cs : List Char} (h : ∀ c ∈ cs, isWordChar c = true) :
    '+' ∉ cs := by
  intro hmem
  have hplus : isWordChar '+' = false := by decide
  rw [h '+' hmem] at hplus
  exact Bool.false_ne_true hplus.symm

/-- A word has the kind that `TokenKind.ofWord` gives it by the tables of reserved words. -/
theorem hasKind_ofWord {c : Char} {cs : List Char} (hc : isWordStart c = true)
    (hcs : ∀ d ∈ cs, isWordChar d = true) :
    HasKind (c :: cs) (.ofWord (String.ofList (c :: cs))) := by
  have hplus : '+' ∉ c :: cs := plus_not_mem_of_isWordChar
    (List.forall_mem_cons.mpr ⟨isWordChar_of_isWordStart hc, hcs⟩)
  have htext : ∀ word : String, (word == String.ofList (c :: cs)) = true →
      word.toList = c :: cs := by
    intro word hword
    rw [beq_iff_eq.mp hword, String.toList_ofList]
  -- Keywords are looked for first, then intrinsics, then registers; the rest are names.
  unfold TokenKind.ofWord TokenKind.ofReserved?
  split
  · rename_i k hk
    have hword := List.find?_some hk
    rw [Option.getD_some, ← htext k.text hword]
    exact .keyword k
  rename_i hkeyword
  split
  · rename_i i hi
    have hword := List.find?_some hi
    rw [Option.getD_some, ← htext i.name hword]
    exact .intrinsic i
  rename_i hintrinsic
  cases hr : Register.ofName? (String.ofList (c :: cs)) with
  | some r =>
      have hword : Register.ofWord? (c :: cs) = some r := by
        rw [Register.ofName?, String.toList_ofList] at hr
        exact hr
      rw [Option.map_some, Option.getD_some, ← Register.name_of_ofWord? hword hplus]
      exact .register r
  | none =>
      refine .identifier hc ?_ ?_ ?_
      · intro k heq
        have hne := List.find?_eq_none.mp hkeyword k (by cases k <;> decide)
        exact hne (by rw [← heq, String.ofList_toList, beq_self_eq_true])
      · intro i heq
        have hne := List.find?_eq_none.mp hintrinsic i (by cases i <;> decide)
        exact hne (by rw [← heq, String.ofList_toList, beq_self_eq_true])
      · intro r heq
        rw [← heq, String.ofList_toList, Register.ofName?_name] at hr
        simp at hr

private theorem IsToken.hasKind {kind : TokenKind} {text : List Char} (h : IsToken kind text) :
    HasKind text kind := by
  cases h with
  | decimal hc _ => exact .integer hc
  | radix _ _ _ => exact .integer rfl
  | word hc hcs => exact hasKind_ofWord hc hcs
  | mark m => exact .mark m

/-! ### The longest token

Two tokens that a text starts with are one a prefix of the other.  If they are of one sort,
the characters of the longer one go on where the shorter one stopped, and it did not stop
without a reason.  Tokens of different sorts start with different characters.
-/

/-- The longest token that a text starts with. -/
structure Longest (input text : List Char) : Prop where
  starts : text <+: input
  isToken : ∃ kind, IsToken kind text
  longest : ∀ {kind : TokenKind} {other : List Char}, IsToken kind other → other <+: input →
    other.length ≤ text.length

/-- The start of a token that does not go on as it has to. -/
inductive Incomplete : List Char → Prop where
  /-- A radix mark without a digit of the radix. -/
  | radix {x : Char} {radix : Nat} {rest : List Char}
      (hx : Numeral.RadixMark ['0', x] radix)
      (hrest : ∀ d ∈ rest.head?, Numeral.isDigit radix d = false) : Incomplete ('0' :: x :: rest)
  | bang {rest : List Char} (hrest : rest.head? ≠ some '=') : Incomplete ('!' :: rest)

/-- No token starts with the character. -/
def StartsNone (c : Char) : Prop :=
  ∀ (kind : TokenKind) (text : List Char), IsToken kind text → text.head? ≠ some c

/-- Characters of one sort end where the text goes on with another sort. -/
theorem length_le_of_run {p : Char → Bool} {c : Char} {cs text rest : List Char} (hc : p c = true)
    (hcs : ∀ d ∈ cs, p d = true) (hrest : ∀ d ∈ rest.head?, p d = false)
    (hstarts : c :: cs <+: text ++ rest) : (c :: cs).length ≤ text.length := by
  obtain ⟨more, hmore⟩ := hstarts
  rcases List.append_eq_append_iff.mp hmore with ⟨between, rfl, -⟩ | ⟨between, hother, rfl⟩
  · simp
  · cases between with
    | nil => simp [hother]
    | cons d between =>
        have hall : ∀ d ∈ c :: cs, p d = true := List.forall_mem_cons.mpr ⟨hc, hcs⟩
        have hd := hall d (hother ▸ List.mem_append_right _ List.mem_cons_self)
        rw [hrest d rfl] at hd
        exact absurd hd Bool.false_ne_true

/-- A mark starts with a character for which neither `isDigit` nor `isWordStart` holds. -/
theorem plain_of_append {m : Mark} {c : Char} {cs rest : List Char}
    (h : m.spelling ++ rest = c :: cs) : c.isDigit = false ∧ isWordStart c = false := by
  obtain ⟨d, ds, hm, hdigit, hstart⟩ := m.spelling_eq_cons
  rw [hm] at h
  rw [← (List.cons.inj h).1]
  exact ⟨hdigit, hstart⟩

section Read

variable {c : Char} {cs text rest : List Char} {kind : TokenKind}

/-- Nothing longer than what `read` gives is a token. -/
theorem length_le_of_read (h : read cs = .token kind text rest) {kind' : TokenKind}
    {other : List Char} (hother : IsToken kind' other) (hstarts : other <+: cs) :
    other.length ≤ text.length := by
  obtain ⟨more, hmore⟩ := hstarts
  cases read_eq_iff.mp h with
  | @decimal c cs rest hradix hc hcs hrest =>
      cases hother with
      | decimal hc' hds =>
          exact length_le_of_run (isNumeralChar_of_isDigit hc') hds hrest ⟨more, hmore⟩
      | radix hx _ _ =>
          rw [← hmore] at hradix
          exact absurd ((radixAt_of_radixMark hx _).symm.trans hradix) hx.letter_plain.2.2
      | word hc' _ =>
          obtain rfl := (List.cons.inj hmore).1
          simp [not_isDigit_of_isWordStart hc'] at hc
      | mark m => simp [(plain_of_append hmore).1] at hc
  | @radix x d ds rest radix hx hd hds hrest =>
      cases hother with
      | @decimal c ds' hc' hds' =>
          -- The letter of the radix mark is no digit.
          cases ds' with
          | nil => simp
          | cons e ds' =>
              obtain ⟨-, rfl, -⟩ : c = '0' ∧ e = x ∧ _ := by simpa using hmore
              have he := hds' e List.mem_cons_self
              rw [hx.letter_plain.1] at he
              exact absurd he Bool.false_ne_true
      | @radix x' d' ds' radix' hx' hd' hds' =>
          simp only [List.cons_append, List.cons.injEq, true_and] at hmore
          obtain ⟨rfl, hmore⟩ := hmore
          obtain rfl : radix' = radix :=
            (radixAt_of_radixMark hx' []).symm.trans (radixAt_of_radixMark hx [])
          have hlength : (d' :: ds').length ≤ (d :: ds).length :=
            length_le_of_run (isNumeralChar_iff.mpr (.inl hd')) hds' hrest
              ⟨more, by simpa using hmore⟩
          simpa using hlength
      | word hc' _ =>
          obtain rfl := (List.cons.inj hmore).1
          exact absurd hc' (by decide)
      | mark m => exact absurd (plain_of_append hmore).1 (by decide)
  | @word c cs rest hc hcs hrest =>
      cases hother with
      | decimal hc' _ =>
          obtain rfl := (List.cons.inj hmore).1
          simp [not_isDigit_of_isWordStart hc] at hc'
      | radix _ _ _ =>
          obtain rfl := (List.cons.inj hmore).1
          exact absurd hc (by decide)
      | word hc' hds =>
          exact length_le_of_run (isWordChar_of_isWordStart hc') hds hrest ⟨more, hmore⟩
      | mark m => simp [(plain_of_append hmore).2] at hc
  | @mark m rest hrest =>
      cases hother with
      | decimal hc' _ => simp [(plain_of_append hmore.symm).1] at hc'
      | radix _ _ _ => exact absurd (plain_of_append hmore.symm).1 (by decide)
      | word hc' _ => simp [(plain_of_append hmore.symm).2] at hc'
      | mark m' => exact Mark.length_le_of_stops hrest ⟨more, hmore⟩

/-- **What is read off a text is the longest token that it starts with.** -/
theorem longest_of_read (h : read cs = .token kind text rest) : Longest cs text :=
  ⟨⟨rest, (append_of_read h).1⟩, ⟨kind, isToken_of_read h⟩, length_le_of_read h⟩

end Read

/-! ### Failures

The two errors are read off the cases of `Reads`. That no token starts with a stray
character is to be shown for all tokens (`StartsNone`), and each sort of them starts in its
own way.  A numeral that is `Incomplete` starts with a zero, which alone would be a token.
-/

private theorem read_incomplete_iff {cs : List Char} :
    (∃ expected text rest, read cs = .incomplete expected text rest) ↔ Incomplete cs := by
  constructor
  · rintro ⟨expected, text, rest, h⟩
    cases read_eq_iff.mp h with
    | bareRadix hx hrest => exact .radix hx hrest
    | bang hrest => exact .bang hrest
  · intro h
    cases h with
    | radix hx hrest => exact ⟨_, _, _, read_eq_iff.mpr (.bareRadix hx hrest)⟩
    | bang hrest => exact ⟨_, _, _, read_eq_iff.mpr (.bang hrest)⟩

private theorem read_stray_iff {c : Char} {cs : List Char} :
    (∃ ch rest, read (c :: cs) = .stray ch rest) ↔ StartsNone c := by
  constructor
  · rintro ⟨ch, rest, h⟩
    generalize htext : c :: cs = text at h
    cases read_eq_iff.mp h with
    | stray hdigit hstart hmark =>
        obtain ⟨rfl, -⟩ := List.cons.inj htext
        intro kind text htoken hhead
        cases htoken with
        | decimal hc _ =>
            obtain rfl := Option.some.inj hhead
            exact Bool.false_ne_true (hdigit.symm.trans hc)
        | radix _ _ _ =>
            obtain rfl := Option.some.inj hhead
            exact absurd hdigit (by decide)
        | word hc _ =>
            obtain rfl := Option.some.inj hhead
            exact Bool.false_ne_true (hstart.symm.trans hc)
        | mark m => exact hmark m hhead
  · intro h
    refine ⟨c, cs, read_eq_iff.mpr (.stray ?_ ?_ ?_)⟩
    · rw [← Bool.not_eq_true]
      intro hc
      exact h .integer [c] (.decimal hc (List.forall_mem_nil _)) rfl
    · rw [← Bool.not_eq_true]
      intro hc
      exact h _ [c] (.word hc (List.forall_mem_nil _)) rfl
    · exact fun m => h _ _ (.mark m)

end Lexeme

/-! ### Scanning

Where neither a blank nor a comment stands, `skipTrivia` does nothing and `scan` is
`Lexeme.read` with places.
-/

/-- The text starts with a blank or a comment. -/
def StartsTrivia (text : List Char) : Prop :=
  text.head? = some ' ' ∨ text.head? = some '\t' ∨ text.head? = some '\r' ∨
    text.head? = some '\n' ∨ ['/', '/'] <+: text

namespace Cursor

variable {c : Cursor} {ch : Char} {cs : List Char}

private theorem skipTrivia_of_not_startsTrivia (hrest : c.rest = ch :: cs)
    (h : ¬StartsTrivia (ch :: cs)) : c.skipTrivia = c := by
  have hblank : ¬isBlank ch = true := by
    intro hblank
    simp only [isBlank, Bool.or_eq_true, decide_eq_true_eq] at hblank
    refine h ?_
    rcases hblank with ((rfl | rfl) | rfl) | rfl
    · exact .inl rfl
    · exact .inr (.inl rfl)
    · exact .inr (.inr (.inl rfl))
    · exact .inr (.inr (.inr (.inl rfl)))
  have hcomment : ¬(ch = '/' ∧ cs.head? = some '/') := by
    rintro ⟨rfl, hhead⟩
    obtain ⟨more, rfl⟩ := List.head?_eq_some_iff.mp hhead
    exact h (.inr (.inr (.inr (.inr ⟨more, rfl⟩))))
  rw [skipTrivia, hrest, skipTriviaFrom, if_neg hblank, if_neg hcomment, ← hrest]

/--
**Maximal munch.**  Where a text goes on with neither a blank nor a comment, scanning
gives the longest token that it starts with, with the kind that its text has, unless
one of two errors applies.  A character is expected just if a radix mark has no digit
of its radix behind it or an exclamation mark no equals sign, and a character is
unexpected just if no token starts with it.
-/
theorem scan_longest (hrest : c.rest = ch :: cs) (htrivia : ¬StartsTrivia (ch :: cs)) :
    (¬Lexeme.Incomplete (ch :: cs) → ¬Lexeme.StartsNone ch →
      ∃ kind text rest, ch :: cs = text ++ rest ∧ Lexeme.Longest (ch :: cs) text ∧
        Lexeme.HasKind text kind ∧
        c.scan = (.ok ⟨kind, String.ofList text, c.spanOf (String.ofList text)⟩,
          c.advance text rest)) ∧
    ((∃ span expected c', c.scan = (.error (.expectedCharacter span expected), c')) ↔
      Lexeme.Incomplete (ch :: cs)) ∧
    ((∃ span found c', c.scan = (.error (.unexpectedCharacter span found), c')) ↔
      Lexeme.StartsNone ch) := by
  have hincomplete := @Lexeme.read_incomplete_iff (ch :: cs)
  have hstray := @Lexeme.read_stray_iff ch cs
  rw [scan, skipTrivia_of_not_startsTrivia hrest htrivia, scanHere, hrest]
  -- Each answer of `read` comes with one outcome, and the two iffs exclude the others.
  cases hread : Lexeme.read (ch :: cs) with
  | nothing => exact absurd (Lexeme.eq_nil_of_read hread) (by simp)
  | token kind text rest =>
      rw [hread] at hincomplete hstray
      refine ⟨?_, ?_, ?_⟩
      · intro _ _
        exact ⟨kind, text, rest, (Lexeme.append_of_read hread).1.symm,
          Lexeme.longest_of_read hread, (Lexeme.isToken_of_read hread).hasKind, rfl⟩
      · rw [← hincomplete]
        simp
      · rw [← hstray]
        simp
  | incomplete expected text rest =>
      rw [hread] at hincomplete hstray
      refine ⟨?_, ?_, ?_⟩
      · intro hno
        exact absurd (hincomplete.mp ⟨expected, text, rest, rfl⟩) hno
      · rw [← hincomplete]
        simp
      · rw [← hstray]
        simp
  | stray found rest =>
      rw [hread] at hincomplete hstray
      refine ⟨?_, ?_, ?_⟩
      · intro _ hno
        exact absurd (hstray.mp ⟨found, rest, rfl⟩) hno
      · rw [← hincomplete]
        simp
      · rw [← hstray]
        simp

/-- Four characters are one mark, although each shorter start of them is a mark as well. -/
theorem rotation_scan_longest :
    ∃ kind text rest, "<<<=r1".toList = text ++ rest ∧ Lexeme.Longest "<<<=r1".toList text ∧
      Lexeme.HasKind text kind ∧
      (ofText "<<<=r1".toList 4).scan =
        (.ok ⟨kind, String.ofList text, ⟨1, 1, 4⟩⟩, ⟨['r', '1'], ⟨1, 5⟩, 4⟩) := by
  have htrivia : ¬StartsTrivia "<<<=r1".toList := by
    unfold StartsTrivia
    decide
  have hscan : (ofText "<<<=r1".toList 4).scan =
      (.ok ⟨.mark .lessLessLessEqual, "<<<=", ⟨1, 1, 4⟩⟩, ⟨['r', '1'], ⟨1, 5⟩, 4⟩) := by
    decide
  obtain ⟨htoken, hexpected, hunexpected⟩ :=
    scan_longest (c := ofText "<<<=r1".toList 4) rfl htrivia
  have hincomplete : ¬Lexeme.Incomplete "<<<=r1".toList := by
    intro h
    obtain ⟨span, expected, c', herror⟩ := hexpected.mpr h
    rw [hscan] at herror
    simp at herror
  have hnone : ¬Lexeme.StartsNone '<' := by
    intro h
    exact h _ _ (.mark .less) rfl
  obtain ⟨kind, text, rest, happend, hlongest, hkind, hread⟩ := htoken hincomplete hnone
  rw [hscan] at hread
  simp only [Prod.mk.injEq, Except.ok.injEq, Token.mk.injEq] at hread
  obtain ⟨⟨rfl, htext, -⟩, -⟩ := hread
  refine ⟨_, text, rest, happend, hlongest, hkind, ?_⟩
  rw [hscan, ← htext]

end Cursor

end StackCode
