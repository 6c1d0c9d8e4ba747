/-
What integer literals spell.

The number that a literal spells is the positional value of its digits in the radix that it
announces, underscores left out (`Numeral.magnitude`).  A literal is read by
`Numeral.literal?` digit by digit under a limit, and is refused as soon as a value reaches
the limit.  Values only grow as digits are added, so that happens just when the number
itself does not fit (`extend?_eq_some_iff`).

Every integer token that is read off a text has a digit after its radix mark and nothing but
digits and underscores (`splitRadix_of_read`), so its size is the only reason to refuse it.
-/
import Mathlib.Data.List.TakeWhile
import Mathlib.Data.Nat.Digits.Defs
import StackCode.Proofs.Stream

namespace StackCode

namespace Numeral

/-! ### Values of digits

The limit is a parameter of `extend?`, and so is the value that the digits are added to,
since the induction is on the digits from the left.  A digit multiplies what is before it,
so an intermediate value above the limit can never come back below it.
-/

/-- The number that an integer literal spells. -/
def magnitude (text : List Char) : Nat :=
  Nat.ofDigits (splitRadix text).1
    ((splitRadix text).2.filterMap (digit? (splitRadix text).1)).reverse

/-- Adding digits multiplies by the radix for each of them. -/
theorem extend?_eq_some_iff {radix limit : Nat} (hradix : 0 < radix) {cs : List Char} :
    ∀ {n v : Nat}, n < limit → (∀ c ∈ cs, isDigit radix c = true) →
      (extend? radix limit n cs = some v ↔
        v = n * radix ^ cs.length + Nat.ofDigits radix (cs.filterMap (digit? radix)).reverse ∧
          v < limit) := by
  induction cs with
  | nil =>
      intro n v hn _
      simp only [extend?, Option.some.injEq, List.length_nil, Nat.pow_zero, Nat.mul_one,
        List.filterMap_nil, List.reverse_nil, Nat.ofDigits_nil, Nat.add_zero]
      constructor
      · rintro rfl
        exact ⟨rfl, hn⟩
      · rintro ⟨rfl, -⟩
        rfl
  | cons c cs ih =>
      intro n v hn hdigits
      obtain ⟨d, hd⟩ := Option.isSome_iff_exists.mp (hdigits c List.mem_cons_self)
      have hlen : (cs.filterMap (digit? radix)).length = cs.length := by
        rw [List.filterMap_length_eq_length]
        exact fun c hc => hdigits c (List.mem_cons_of_mem _ hc)
      -- The value so far is never above the value of the whole.
      have hvalue : n * radix ^ (cs.length + 1) +
          Nat.ofDigits radix ((c :: cs).filterMap (digit? radix)).reverse =
            (n * radix + d) * radix ^ cs.length +
              Nat.ofDigits radix (cs.filterMap (digit? radix)).reverse := by
        rw [List.filterMap_cons_some hd, List.reverse_cons, Nat.ofDigits_append,
          List.length_reverse, hlen, Nat.ofDigits_singleton]
        ring
      have hgrows : n * radix + d ≤ (n * radix + d) * radix ^ cs.length :=
        Nat.le_mul_of_pos_right _ (Nat.pow_pos hradix)
      rw [extend?, hd, List.length_cons, hvalue]
      dsimp only
      split
      · rename_i hlt
        exact ih hlt fun c hc => hdigits c (List.mem_cons_of_mem _ hc)
      · rename_i hge
        simp only [reduceCtorEq, false_iff, not_and, not_lt]
        rintro rfl
        omega

private theorem digit?_underscore (radix : Nat) : digit? radix '_' = none := by
  have hnone : digitValue? '_' = none := by decide
  rw [digit?, hnone, Option.filter_none]

/-- Underscores do not count as digits. -/
theorem filterMap_digit?_filter (radix : Nat) (cs : List Char) :
    (cs.filter (· != '_')).filterMap (digit? radix) = cs.filterMap (digit? radix) := by
  rw [List.filterMap_filter]
  congr 1
  funext c
  by_cases hc : c = '_'
  · simp [hc, digit?_underscore]
  · simp [hc]

theorem isDigit_of_extend? {radix limit : Nat} {cs : List Char} :
    ∀ {n v : Nat}, extend? radix limit n cs = some v → ∀ c ∈ cs, isDigit radix c = true := by
  induction cs with
  | nil => intro n v _ c hc; simp at hc
  | cons d cs ih =>
      intro n v h c hc
      rw [extend?] at h
      split at h
      · simp at h
      · rename_i value hvalue
        split at h
        · rcases List.mem_cons.mp hc with rfl | hc
          · simp [isDigit, hvalue]
          · exact ih h c hc
        · simp at h

private theorem splitRadix_pos (text : List Char) : 0 < (splitRadix text).1 := by
  obtain ⟨lead, hmark, -⟩ := radixMark_splitRadix text
  generalize (splitRadix text).1 = radix at hmark
  cases hmark <;> decide

/-- What a literal is read as is the number that it spells. -/
theorem eq_of_literal? {text : List Char} {v : UInt64} (h : literal? text = some v) :
    v = .ofNat (magnitude text) ∧ magnitude text < UInt64.size := by
  have hradix := splitRadix_pos text
  unfold literal? at h
  unfold magnitude
  generalize splitRadix text = split at h hradix
  obtain ⟨radix, digits⟩ := split
  dsimp only at h hradix ⊢
  obtain ⟨n, hn, rfl⟩ := Option.map_eq_some_iff.mp h
  have hextend : extend? radix UInt64.size 0 (digits.filter (· != '_')) = some n := by
    cases hds : digits.filter (· != '_') with
    | nil => simp [hds, value?] at hn
    | cons d ds =>
        rw [hds] at hn
        exact hn
  have hvalue := (extend?_eq_some_iff hradix (by decide) (isDigit_of_extend? hextend)).mp hextend
  rw [Nat.zero_mul, Nat.zero_add, filterMap_digit?_filter] at hvalue
  exact ⟨congrArg _ hvalue.1, hvalue.1 ▸ hvalue.2⟩

/-- Digits and underscores with at least one digit are refused only for their size. -/
theorem literal?_eq {text : List Char}
    (hdigits : ∀ c ∈ (splitRadix text).2, isDigit (splitRadix text).1 c = true ∨ c = '_')
    (hne : ∃ c ∈ (splitRadix text).2, c ≠ '_') :
    literal? text =
      if magnitude text < UInt64.size then some (UInt64.ofNat (magnitude text)) else none := by
  obtain ⟨c, hc, hunder⟩ := hne
  have hradix := splitRadix_pos text
  unfold literal? magnitude
  generalize splitRadix text = split at hradix hdigits hc
  obtain ⟨radix, digits⟩ := split
  dsimp only at hradix hdigits hc ⊢
  have hmem : c ∈ digits.filter (· != '_') := List.mem_filter.mpr ⟨hc, by simpa using hunder⟩
  have hall : ∀ c ∈ digits.filter (· != '_'), isDigit radix c = true := by
    intro c hc
    obtain ⟨hc, hunder⟩ := List.mem_filter.mp hc
    exact (hdigits c hc).resolve_right (by simpa using hunder)
  -- There is a digit, so `value?` does not stop at an empty text.
  have hvalue : value? radix UInt64.size (digits.filter (· != '_')) =
      extend? radix UInt64.size 0 (digits.filter (· != '_')) := by
    cases hds : digits.filter (· != '_') with
    | nil => simp [hds] at hmem
    | cons d ds => rfl
  have hextend := fun v => extend?_eq_some_iff (v := v) hradix (by decide : 0 < UInt64.size) hall
  simp only [Nat.zero_mul, Nat.zero_add, filterMap_digit?_filter] at hextend
  rw [hvalue]
  split
  · rename_i hlt
    rw [(hextend _).mpr ⟨rfl, hlt⟩]
    rfl
  · rename_i hge
    have hnone : extend? radix UInt64.size 0 (digits.filter (· != '_')) = none := by
      rw [Option.eq_none_iff_forall_ne_some]
      intro v hv
      obtain ⟨rfl, hlt⟩ := (hextend v).mp hv
      exact hge hlt
    rw [hnone]
    rfl

end Numeral

namespace Lexeme

/-! ### Tokens that are read

`Lexeme.radixAt_eq_splitRadix` is about one text.  Here the radix is taken from the whole
text by the lexer, and from the token alone by the parser.  A decimal numeral has no letter
of a radix in it, since no such letter is a decimal digit (`splitRadix_of_decimal`), and any
other has its mark in the token.
-/

/-- A decimal numeral announces no other radix. -/
theorem splitRadix_of_decimal {text : List Char}
    (h : ∀ c ∈ text, isNumeralChar 10 c = true) : Numeral.splitRadix text = (10, text) := by
  unfold Numeral.splitRadix
  split
  any_goals
    have hsecond := h _ (List.mem_cons_of_mem _ List.mem_cons_self)
    exact absurd hsecond (by decide)
  rfl

/--
An integer token announces the radix that it was read in.  What follows the radix mark
are digits of it, with underscores and at least one digit.
-/
theorem splitRadix_of_read {cs text rest : List Char} (h : read cs = .token .integer text rest) :
    (Numeral.splitRadix text).1 = radixAt cs ∧
      (∀ c ∈ (Numeral.splitRadix text).2, isNumeralChar (Numeral.splitRadix text).1 c = true) ∧
      ∃ c ∈ (Numeral.splitRadix text).2, c ≠ '_' := by
  generalize hkind : TokenKind.integer = kind at h
  cases read_eq_iff.mp h with
  | @decimal c cs rest hradix hc hcs =>
      have hall : ∀ d ∈ c :: cs, isNumeralChar 10 d = true :=
        List.forall_mem_cons.mpr ⟨isNumeralChar_of_isDigit hc, hcs⟩
      rw [splitRadix_of_decimal hall, hradix]
      refine ⟨rfl, hall, c, List.mem_cons_self, ?_⟩
      rintro rfl
      exact absurd hc (by decide)
  | @radix x d ds rest radix hx hd hds =>
      rw [hx.splitRadix_cons]
      refine ⟨(radixAt_of_radixMark hx _).symm, ?_, d, List.mem_cons_self, ?_⟩
      · exact List.forall_mem_cons.mpr ⟨isNumeralChar_iff.mpr (.inl hd), hds⟩
      · rintro rfl
        rw [Numeral.isDigit, Numeral.digit?_underscore] at hd
        simp at hd
  | word => exact absurd hkind.symm (kind_ofWord_ne _).2
  | mark => simp at hkind

/-- **An integer token is refused only if the number that it spells does not fit.** -/
theorem literal?_of_read {cs text rest : List Char} (h : read cs = .token .integer text rest) :
    Numeral.literal? text =
      if Numeral.magnitude text < UInt64.size then some (UInt64.ofNat (Numeral.magnitude text))
      else none := by
  obtain ⟨-, hdigits, hne⟩ := splitRadix_of_read h
  exact Numeral.literal?_eq (fun c hc => isNumeralChar_iff.mp (hdigits c hc)) hne

end Lexeme

end StackCode
