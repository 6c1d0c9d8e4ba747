/-
Which words name a register.

A register has one name.  Behind its `r` a number is read as numbers are read everywhere,
below a limit and with zeros in front of it that do not count, so the zeros are refused
before the number is looked at (`Register.ofWord?`).  A plus sign in front of the number is
allowed too, and with a sign in front of them the zeros are no longer seen.  So every
general register has, besides its name, a word for each number of zeros that can stand
behind a sign (`Register.IsSigned`).

A word that was cut off a text has no sign in it, so no text can tell.
-/
import StackCode.Proofs.Munch

namespace StackCode

namespace Numeral

variable {limit : Nat} {cs : List Char}

/-! ### Numbers with zeros in front

`value?` takes digits from the left, and a zero to start with leaves the value at zero.  So
the texts that have a value are the digits of that value with zeros in front, and
`value?_eq_some_iff` says so in both directions.
-/

/-- A zero in front of other digits does not change what they spell. -/
theorem value?_zero_cons (hlimit : 0 < limit) (hne : cs ≠ []) :
    value? 10 limit ('0' :: cs) = value? 10 limit cs := by
  obtain ⟨d, ds, rfl⟩ := List.exists_cons_of_ne_nil hne
  have hzero : digit? 10 '0' = some 0 := by decide
  rw [value?, extend?, hzero]
  dsimp only
  rw [Nat.zero_mul, Nat.zero_add, if_pos hlimit, value?]

private theorem value?_replicate_append (hlimit : 0 < limit) (hne : cs ≠ []) (zeros : Nat) :
    value? 10 limit (List.replicate zeros '0' ++ cs) = value? 10 limit cs := by
  induction zeros with
  | zero => rfl
  | succ zeros ih =>
      rw [List.replicate_succ, List.cons_append, value?_zero_cons hlimit (by simp [hne]), ih]

/-- The digits of a number below the limit spell it. -/
theorem value?_toDigits {v : Nat} (hv : v < limit) :
    value? 10 limit (Nat.toDigits 10 v) = some v := by
  obtain ⟨c, cs, hcs⟩ := List.exists_cons_of_ne_nil (Nat.toDigits_ne_nil (b := 10) (n := v))
  have hdigits : ∀ c ∈ Nat.toDigits 10 v, c.isDigit = true := fun c hc =>
    Nat.isDigit_of_mem_toDigits (by decide) (Nat.le_refl 10) hc
  have hall : ∀ c ∈ Nat.toDigits 10 v, isDigit 10 c = true := fun c hc => by
    rw [isDigit, digit?_of_isDigit (hdigits c hc), Option.isSome_some]
  have hvalue : Nat.ofDigits 10 ((Nat.toDigits 10 v).filterMap (digit? 10)).reverse = v := by
    rw [ofDigits_of_isDigit hdigits]
    exact Nat.ofDigitChars_toDigits (by decide) (Nat.le_refl 10)
  rw [hcs] at hall hvalue ⊢
  rw [value?, extend?_eq_some_iff (by decide) (Nat.zero_lt_of_lt hv) hall, Nat.zero_mul,
    Nat.zero_add, hvalue]
  exact ⟨rfl, hv⟩

private theorem lt_of_value? {v : Nat} (h : value? 10 limit cs = some v) (hlimit : 0 < limit) :
    v < limit := by
  cases cs with
  | nil => simp [value?] at h
  | cons c cs =>
      exact ((extend?_eq_some_iff (by decide) hlimit (isDigit_of_extend? h)).mp h).2

/-- **A number below the limit is spelled by its digits, with any number of zeros before them.** -/
theorem value?_eq_some_iff (hlimit : 0 < limit) {v : Nat} :
    value? 10 limit cs = some v ↔
      v < limit ∧ ∃ zeros, cs = List.replicate zeros '0' ++ Nat.toDigits 10 v := by
  constructor
  · intro h
    refine ⟨lt_of_value? h hlimit, ?_⟩
    induction cs with
    | nil => simp [value?] at h
    | cons c cs ih =>
        by_cases hzero : ∃ d ds, c :: cs = '0' :: d :: ds
        · obtain ⟨d, ds, hcons⟩ := hzero
          obtain ⟨rfl, rfl⟩ := List.cons.inj hcons
          rw [value?_zero_cons hlimit (by simp)] at h
          obtain ⟨zeros, hzeros⟩ := ih h
          exact ⟨zeros + 1, by rw [hzeros, List.replicate_succ, List.cons_append]⟩
        · exact ⟨0, toDigits_of_value? h fun d ds hcons => hzero ⟨d, ds, hcons⟩⟩
  · rintro ⟨hv, zeros, rfl⟩
    rw [value?_replicate_append hlimit Nat.toDigits_ne_nil, value?_toDigits hv]

end Numeral

namespace Register

/-! ### Words

`IsSigned` has the words that a sign lets through.  No name is among them, for a name has no
sign in it, so the two cases of `cases_of_ofWord?` exclude each other.
-/

/-- The word is the number of the register behind a plus sign, with zeros between them. -/
inductive IsSigned : Register → List Char → Prop where
  | general (n : Fin 16) (zeros : Nat) :
      IsSigned (general n) ('r' :: '+' :: (List.replicate zeros '0' ++ Nat.toDigits 10 n))

private theorem toList_name_general (n : Fin 16) :
    (general n).name.toList = 'r' :: Nat.toDigits 10 n := by
  rw [name, String.toList_append, Nat.toString_eq_repr, Nat.toList_repr]
  rfl

private theorem general?_eq_some_iff {digits : List Char} {r : Register} :
    ofWord?.general? digits = some r ↔
      ∃ (n : Fin 16) (zeros : Nat), r = general n ∧
        digits = List.replicate zeros '0' ++ Nat.toDigits 10 n := by
  rw [ofWord?.general?, Option.bind_eq_some_iff]
  constructor
  · rintro ⟨v, hv, hr⟩
    obtain ⟨-, zeros, rfl⟩ := (Numeral.value?_eq_some_iff (by decide)).mp hv
    split at hr
    · rename_i hlt
      exact ⟨⟨v, hlt⟩, zeros, (Option.some.inj hr).symm, rfl⟩
    · simp at hr
  · rintro ⟨n, zeros, rfl, rfl⟩
    have hlimit : n.val < 256 := Nat.lt_of_lt_of_le n.isLt (by decide)
    exact ⟨n, (Numeral.value?_eq_some_iff (by decide)).mpr ⟨hlimit, zeros, rfl⟩, by simp⟩

/-- A word that names a register is its name, or its number behind a sign. -/
theorem cases_of_ofWord? {cs : List Char} {r : Register} (h : ofWord? cs = some r) :
    cs = r.name.toList ∨ r.IsSigned cs := by
  unfold ofWord? at h
  split at h
  · obtain rfl := Option.some.inj h
    exact .inl rfl
  · simp at h
  · obtain ⟨n, zeros, rfl, rfl⟩ := general?_eq_some_iff.mp h
    exact .inr (.general n zeros)
  · rename_i digits hzero _
    exact .inl (name_of_general? h fun d ds hds => hzero d ds (by rw [hds])).symm
  · simp at h

private theorem ofWord?_of_isSigned {cs : List Char} {r : Register} (h : r.IsSigned cs) :
    ofWord? cs = some r := by
  cases h with
  | general n zeros => exact general?_eq_some_iff.mpr ⟨n, zeros, rfl, rfl⟩

private theorem IsSigned.plus_mem {cs : List Char} {r : Register} (h : r.IsSigned cs) :
    '+' ∈ cs := by
  cases h with
  | general n zeros => simp

/-- No name has a sign in it. -/
theorem not_isSigned_name (r r' : Register) : ¬r'.IsSigned r.name.toList := by
  intro h
  have hplus := h.plus_mem
  cases r with
  | sp => exact absurd hplus (by decide)
  | general n =>
      rw [toList_name_general, List.mem_cons] at hplus
      rcases hplus with hplus | hplus
      · exact absurd hplus (by decide)
      · exact absurd (Nat.isDigit_of_mem_toDigits (by decide) (Nat.le_refl 10) hplus) (by decide)

/-- The names of the registers. -/
def names : List String :=
  ["r0", "r1", "r2", "r3", "r4", "r5", "r6", "r7", "r8", "r9", "r10", "r11", "r12", "r13", "r14",
    "r15", "sp"]

private theorem mem_names_iff {s : String} : s ∈ names ↔ ∃ r : Register, s = r.name := by
  have hnames : names = (List.finRange 16).map (fun n => (general n).name) ++ [sp.name] := by
    decide +kernel
  rw [hnames, List.mem_append, List.mem_map, List.mem_singleton]
  constructor
  · rintro (⟨n, -, rfl⟩ | rfl)
    · exact ⟨_, rfl⟩
    · exact ⟨sp, rfl⟩
  · rintro ⟨n | _, rfl⟩
    · exact .inl ⟨n, List.mem_finRange n, rfl⟩
    · exact .inr rfl

/--
**A word names a register if it is its name, or its number behind a plus sign.**  Apart from
the seventeen names, words with a sign are all that is accepted: `r+` with zeros and the number
of a general register behind it.  So a word names just the register whose name it is, unless
it is one with a sign.
-/
theorem ofName?_canonical_iff (s : String) :
    (∀ r, ofName? s = some r ↔ s = r.name ∨ r.IsSigned s.toList) ∧
      ((ofName? s).isSome ↔ s ∈ names ∨ ∃ r : Register, r.IsSigned s.toList) ∧
      ((∀ r, ofName? s = some r ↔ s = r.name) ↔ ∀ r : Register, ¬r.IsSigned s.toList) := by
  have hwords : ∀ r, ofName? s = some r ↔ s = r.name ∨ r.IsSigned s.toList := by
    intro r
    constructor
    · intro h
      exact (cases_of_ofWord? h).imp_left String.toList_inj.mp
    · rintro (rfl | h)
      · exact ofName?_name r
      · exact ofWord?_of_isSigned h
  refine ⟨hwords, ?_, ?_⟩
  · rw [Option.isSome_iff_exists, mem_names_iff, ← exists_or]
    exact exists_congr hwords
  · refine forall_congr' fun r => ?_
    rw [hwords]
    constructor
    · intro hname hsigned
      have hsame := hname.mp (.inr hsigned)
      rw [hsame] at hsigned
      exact not_isSigned_name r r hsigned
    · intro hnot
      exact or_iff_left hnot

/-- `r+5` is not the name of the register that it names. -/
theorem signed_word_names_register :
    ofName? "r+5" = some (general 5) ∧ "r+5" ≠ (general 5).name := by
  decide +kernel

end Register

end StackCode
