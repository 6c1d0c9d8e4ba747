/-
The registers of the machine: sixteen general ones and the stack pointer.

A register is named in source text and numbered in code, the general ones by
their number and the stack pointer after them.
-/
import StackCode.Numeral

namespace StackCode

/-- A machine register. -/
inductive Register where
  /-- One of `r0` to `r15`. -/
  | general (number : Fin 16)
  /-- The stack pointer, `sp`. -/
  | sp
deriving DecidableEq, Repr

namespace Register

/-- The register that receives a returned value. -/
def r0 : Register := general 0

/-- The number of the register in code. -/
def index : Register → Nat
  | general n => n
  | sp => 16

/-- The operand byte that names the register in code. -/
def toByte (r : Register) : UInt8 := UInt8.ofNat r.index

theorem index_le (r : Register) : r.index ≤ 16 := by
  cases r with
  | general n => exact Nat.le_of_lt n.isLt
  | sp => exact Nat.le_refl 16

/-- The register with a given number. -/
def ofIndex? (i : Nat) : Option Register :=
  if h : i < 16 then some (general ⟨i, h⟩) else if i = 16 then some sp else none

@[simp] theorem ofIndex?_index (r : Register) : ofIndex? r.index = some r := by
  cases r with
  | general n => simp [ofIndex?, index]
  | sp => rfl

/-- The name of the register in source text. -/
def name : Register → String
  | general n => "r" ++ toString n.val
  | sp => "sp"

/--
The register that a word names.  After the `r` stands a decimal number, which may
carry a plus sign; without the sign it has no leading zero.
-/
def ofWord? : List Char → Option Register
  | ['s', 'p'] => some sp
  | 'r' :: '0' :: _ :: _ => none
  | 'r' :: '+' :: digits => general? digits
  | 'r' :: digits => general? digits
  | _ => none
where
  /-- The general register that a decimal number names. -/
  general? (digits : List Char) : Option Register :=
    (Numeral.value? 10 256 digits).bind fun n =>
      if h : n < 16 then some (general ⟨n, h⟩) else none

/-- The register of a given name. -/
def ofName? (name : String) : Option Register := ofWord? name.toList

end Register

end StackCode
