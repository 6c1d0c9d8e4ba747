/-
Integer tokens and their values.

The radix of an integer literal is decided twice: when the token is cut off the text, by
looking at the characters ahead (`Lexeme.radixAt`), and when the parser takes its value, by
looking at the front of what was cut off (`Numeral.splitRadix`).  `Spells` says what a
literal means with neither: a mark that announces a radix, digits of that radix with
underscores among them, and the positional value of the digits.

A token that was cut off in a radix spells a number in that radix, and no other can be made
of it (`spells_of_read`).  So there is one reason to refuse it, that the number is too large.
-/
import StackCode.Proofs.Recognition

namespace StackCode

open Sequencing

namespace Numeral

/-- The text is a radix mark and digits of the radix, and the digits have this value. -/
inductive Spells (radix : Nat) : List Char → Nat → Prop where
  | digits {lead body : List Char} {ds : List Nat} (mark : RadixMark lead radix)
      (read : (body.filter (· != '_')).map (digit? radix) = ds.map some) (some_digit : ds ≠ []) :
      Spells radix (lead ++ body) (Nat.ofDigits radix ds.reverse)

/-- Characters that are all digits have as many values as there are characters. -/
theorem map_digit?_eq {radix : Nat} {cs : List Char} (h : ∀ c ∈ cs, isDigit radix c = true) :
    cs.map (digit? radix) = (cs.filterMap (digit? radix)).map some := by
  induction cs with
  | nil => rfl
  | cons c cs ih =>
      obtain ⟨d, hd⟩ := Option.isSome_iff_exists.mp (h c List.mem_cons_self)
      rw [List.map_cons, List.filterMap_cons_some hd, List.map_cons, hd,
        ih fun c hc => h c (List.mem_cons_of_mem _ hc)]

end Numeral

namespace Lexeme

/-- An integer token spells its number in the radix that it was read in. -/
theorem spells_of_read {cs text rest : List Char} (h : read cs = .token .integer text rest) :
    Numeral.Spells (radixAt cs) text (Numeral.magnitude text) := by
  obtain ⟨hradix, hdigits, c, hc, hunder⟩ := splitRadix_of_read h
  obtain ⟨lead, hmark, htext⟩ := Numeral.radixMark_splitRadix text
  rw [← hradix, Numeral.magnitude]
  generalize Numeral.splitRadix text = split at hdigits hc hmark htext
  obtain ⟨radix, body⟩ := split
  have hall : ∀ c ∈ body.filter (· != '_'), Numeral.isDigit radix c = true := by
    intro c hc
    obtain ⟨hmem, hne⟩ := List.mem_filter.mp hc
    exact (isNumeralChar_iff.mp (hdigits c hmem)).resolve_right (by simpa using hne)
  have hread := Numeral.map_digit?_eq hall
  rw [Numeral.filterMap_digit?_filter] at hread
  have hmem : c ∈ body.filter (· != '_') := List.mem_filter.mpr ⟨hc, by simpa using hunder⟩
  rw [htext]
  refine .digits hmark hread fun hnil => ?_
  rw [hnil, List.map_nil, List.map_eq_nil_iff] at hread
  rw [hread] at hmem
  cases hmem

end Lexeme

/-- A token was read where the blanks in front of it end. -/
theorem Cursor.read_of_scan {c c' : Cursor} {t : Token} (h : c.scan = (.ok t, c'))
    (hk : t.kind ≠ .eof) :
    Lexeme.read c.skipTrivia.rest = .token t.kind t.lexeme.toList c'.rest := by
  simp only [scan, scanHere] at h
  split at h
  · simp only [Prod.mk.injEq, Except.ok.injEq] at h
    rw [← h.1] at hk
    exact absurd rfl hk
  · rename_i hread
    simp only [Prod.mk.injEq, Except.ok.injEq] at h
    obtain ⟨rfl, rfl⟩ := h
    rw [hread, String.toList_ofList]
    rfl
  · simp at h
  · simp at h

namespace Parser

/-- What an integer token is read as where an expression has to stand. -/
theorem primary_of_integer (expr : Nat → Parsing Expr) {p : Parser} {t : Token}
    {rest : List Token} (htokens : p.tokens = t :: rest) (hk : t.kind = .integer) :
    ∃ q, primary expr p =
      match Numeral.literal? t.lexeme.toList with
      | some v => .ok (.integer v t.span) q
      | none =>
        .error (.parse (.unexpected t.span
          (t.describe ++ " (integer literal out of range)"))) q := by
  obtain ⟨m, hpeek, hm⟩ := peek_of_tokens htokens
  obtain ⟨l, hnext⟩ := Lexer.next_of_tokens (l := m.lexer) (hm.rest htokens)
  have hadvance : advance m = .ok t { m with lexer := l } := onLexer_eq_ok.mpr ⟨l, hnext, rfl⟩
  refine ⟨{ m with lexer := l }, ?_⟩
  rw [primary, bind_of_ok hpeek, hk]
  dsimp only
  rw [bind_of_ok hadvance]
  cases Numeral.literal? t.lexeme.toList with
  | some v => rfl
  | none => rfl

end Parser

/--
**An integer token is refused only for its size.**  Whatever text it was cut off, it spells
one number in the radix that it was cut off in.  It has that number as its value if the
number is less than `2 ^ 64`, and no value otherwise; the parser takes it in the first case,
and in the second says that it is out of range.
-/
theorem integer_token_value {c c' : Cursor} {t : Token} (hscan : c.scan = (.ok t, c'))
    (hkind : t.kind = .integer) :
    ∃ value, Numeral.Spells (Lexeme.radixAt c.skipTrivia.rest) t.lexeme.toList value ∧
      (∀ v, Numeral.literal? t.lexeme.toList = some v ↔ value < 2 ^ 64 ∧ v.toNat = value) ∧
      (Numeral.literal? t.lexeme.toList = none ↔ 2 ^ 64 ≤ value) ∧
      ∀ (expr : Nat → Parsing Expr) (p : Parser) (rest : List Token), p.tokens = t :: rest →
        ∃ q, Parser.primary expr p =
          if value < 2 ^ 64 then .ok (.integer (UInt64.ofNat value) t.span) q
          else .error (.parse (.unexpected t.span
            (t.describe ++ " (integer literal out of range)"))) q := by
  have hread := Cursor.read_of_scan hscan (by simp [hkind])
  rw [hkind] at hread
  have hvalue := Lexeme.literal?_of_read hread
  have hsize : UInt64.size = 2 ^ 64 := rfl
  have hprimary : ∀ (expr : Nat → Parsing Expr) (p : Parser) (rest : List Token),
      p.tokens = t :: rest → _ := fun expr _ _ htokens =>
    Parser.primary_of_integer expr htokens hkind
  refine ⟨Numeral.magnitude t.lexeme.toList, Lexeme.spells_of_read hread, ?_⟩
  generalize Numeral.magnitude t.lexeme.toList = value at hvalue
  rw [hsize] at hvalue
  by_cases hfits : value < 2 ^ 64
  · rw [if_pos hfits] at hvalue
    simp only [hvalue, hfits, if_true, Option.some.injEq, true_and] at hprimary ⊢
    refine ⟨fun v => ?_, by simpa using hfits, hprimary⟩
    rw [← UInt64.toNat_inj, UInt64.toNat_ofNat_of_lt' hfits, eq_comm]
  · rw [if_neg hfits] at hvalue
    simp only [hvalue, hfits, if_false, reduceCtorEq, false_and] at hprimary ⊢
    exact ⟨fun _ => trivial, by simpa using hfits, hprimary⟩

/-- The largest number can be written in hexadecimal, and the next one has no value. -/
theorem integer_token_value_at_limit :
    (∃ t c', (Cursor.ofText " 0XFFFF_ffff_FFFF_ffff;".toList 4).scan = (.ok t, c') ∧
      t.kind = .integer ∧ Numeral.Spells 16 t.lexeme.toList (2 ^ 64 - 1) ∧
        Numeral.literal? t.lexeme.toList = some (.ofNat (2 ^ 64 - 1))) ∧
    ∃ t c' value, (Cursor.ofText "18_446_744_073_709_551_616".toList 4).scan = (.ok t, c') ∧
      t.kind = .integer ∧ Numeral.Spells 10 t.lexeme.toList value ∧ 2 ^ 64 ≤ value := by
  have hlargest : (Cursor.ofText " 0XFFFF_ffff_FFFF_ffff;".toList 4).scan.1.toOption.map
      (fun t => (t.kind, Numeral.literal? t.lexeme.toList)) =
        some (.integer, some (.ofNat (2 ^ 64 - 1))) := by
    decide +kernel
  have hnext : (Cursor.ofText "18_446_744_073_709_551_616".toList 4).scan.1.toOption.map
      (fun t => (t.kind, Numeral.literal? t.lexeme.toList)) = some (.integer, none) := by
    decide +kernel
  have hhex : Lexeme.radixAt
      (Cursor.ofText " 0XFFFF_ffff_FFFF_ffff;".toList 4).skipTrivia.rest = 16 := by
    decide +kernel
  have hdec : Lexeme.radixAt
      (Cursor.ofText "18_446_744_073_709_551_616".toList 4).skipTrivia.rest = 10 := by
    decide +kernel
  constructor
  · rcases hscan : (Cursor.ofText " 0XFFFF_ffff_FFFF_ffff;".toList 4).scan with ⟨e | t, c'⟩
    · rw [hscan] at hlargest
      cases hlargest
    · simp only [hscan, Except.toOption, Option.map_some, Option.some.injEq,
        Prod.mk.injEq] at hlargest
      obtain ⟨value, hspells, hsome, -⟩ := integer_token_value hscan hlargest.1
      obtain ⟨-, rfl⟩ := (hsome _).mp hlargest.2
      rw [hhex] at hspells
      exact ⟨t, c', rfl, hlargest.1, hspells, hlargest.2⟩
  · rcases hscan : (Cursor.ofText "18_446_744_073_709_551_616".toList 4).scan with ⟨e | t, c'⟩
    · rw [hscan] at hnext
      cases hnext
    · simp only [hscan, Except.toOption, Option.map_some, Option.some.injEq,
        Prod.mk.injEq] at hnext
      obtain ⟨value, hspells, -, hnone, -⟩ := integer_token_value hscan hnext.1
      rw [hdec] at hspells
      exact ⟨t, c', value, rfl, hnext.1, hspells, hnone.mp hnext.2⟩

end StackCode
