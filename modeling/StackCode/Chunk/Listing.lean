/-
Code as a listing, one instruction a line: its offset, its name, its operands.

Jumps are listed with the offset where they land.  An operand that the code is too
short for is left out, except that an exchange of registers has to be complete.
-/
import StackCode.Chunk
import StackCode.Text.Quoted

namespace StackCode.Chunk

/-- A number in at least `width` digits. -/
def padded (width : Nat) (digits : String) : String :=
  "".pushn '0' (width - digits.length) ++ digits

/-- An offset in a listing. -/
def offsetText (n : Nat) : String := padded 4 (toString n)

/-- The operands of an instruction in a listing; `stop` is the end of a jump's operand. -/
def operandText? (op : Opcode) (stop : Nat) (rest : List UInt8) : Option String :=
  match op with
  | .xchg =>
    match rest with
    | a :: b :: _ => some (" " ++ toString a.toNat ++ " " ++ toString b.toNat)
    | _ => none
  | _ =>
    match Bytes.split? op.operandSize rest with
    | none => some ""
    | some ([], _) => some ""
    | some (operand, _) =>
      let value := Bytes.ofBigEndian operand
      match op with
      | .jump | .jumpIfFalse => some (" -> " ++ offsetText (stop + value))
      | .loop => some (" -> " ++ offsetText (stop - value))
      | _ => some (" " ++ toString value)

/--
The listing of code from `offset` on, of which `skip` bytes are operands still,
after the text in `out`.
-/
def listFrom (out : String) : (skip offset : Nat) → List UInt8 → Option String
  | _, _, [] => some out
  | skip + 1, offset, _ :: bs => listFrom out skip (offset + 1) bs
  | 0, offset, b :: bs =>
    match Opcode.ofByte? b with
    | none =>
      let bad := " <bad 0x" ++ padded 2 (Text.hexadecimal b.toNat) ++ ">\n"
      listFrom (out ++ offsetText offset ++ bad) 0 (offset + 1) bs
    | some op =>
      match operandText? op (offset + 3) bs with
      | none => none
      | some operands =>
        listFrom (out ++ offsetText offset ++ " " ++ op.name ++ operands ++ "\n")
          op.operandSize (offset + 1) bs

/-- The code as a listing, unless it ends inside an exchange of registers. -/
def disassemble? (c : Chunk) : Option String := listFrom "" 0 0 c.code.toList

end StackCode.Chunk
