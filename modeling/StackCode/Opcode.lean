/-
The instruction set of the stack machine.

An instruction is one opcode byte followed by the operands that the opcode calls
for, most significant byte first.
-/

namespace StackCode

/-- What an instruction does. -/
inductive Opcode where
  | nop
  /-- Push 0. -/
  | pushZero
  /-- Push 1. -/
  | pushOne
  /-- Push the eight-byte operand. -/
  | pushInt
  | pushTrue | pushFalse
  /-- Drop the top of the stack. -/
  | pop
  /-- Push a register. -/
  | loadReg
  /-- Pop into a register. -/
  | storeReg
  /-- Push a variable. -/
  | loadVar
  /-- Pop into a variable. -/
  | storeVar
  | add | sub | mul | div | mod | pow
  | bitAnd | bitOr | bitXor | logicalAnd | logicalOr
  | shl | shr | rol | ror
  | eq | ne | lt | le | gt | ge
  | neg | not
  /-- Go forward by the operand. -/
  | jump
  /-- Pop, and go forward by the operand if it was false. -/
  | jumpIfFalse
  /-- Go back by the operand. -/
  | loop
  /-- Run the code section that the operand numbers. -/
  | call
  | ret
  | halt
  | cas | cpy | dbg | int | xchg
deriving DecidableEq, Repr

namespace Opcode

/-- The byte that stands for the opcode. -/
def toByte : Opcode → UInt8
  | nop => 0x00
  | pushZero => 0x01
  | pushOne => 0x02
  | pushInt => 0x03
  | pushTrue => 0x04
  | pushFalse => 0x05
  | pop => 0x06
  | loadReg => 0x10
  | storeReg => 0x11
  | loadVar => 0x12
  | storeVar => 0x13
  | add => 0x20
  | sub => 0x21
  | mul => 0x22
  | div => 0x23
  | mod => 0x24
  | pow => 0x25
  | bitAnd => 0x26
  | bitOr => 0x27
  | bitXor => 0x28
  | logicalAnd => 0x29
  | logicalOr => 0x2A
  | shl => 0x2B
  | shr => 0x2C
  | rol => 0x2D
  | ror => 0x2E
  | eq => 0x30
  | ne => 0x31
  | lt => 0x32
  | le => 0x33
  | gt => 0x34
  | ge => 0x35
  | neg => 0x36
  | not => 0x37
  | jump => 0x40
  | jumpIfFalse => 0x41
  | loop => 0x42
  | call => 0x43
  | ret => 0x44
  | halt => 0x45
  | cas => 0x50
  | cpy => 0x51
  | dbg => 0x52
  | int => 0x53
  | xchg => 0x54

def all : List Opcode :=
  [nop, pushZero, pushOne, pushInt, pushTrue, pushFalse, pop,
   loadReg, storeReg, loadVar, storeVar,
   add, sub, mul, div, mod, pow, bitAnd, bitOr, bitXor, logicalAnd, logicalOr,
   shl, shr, rol, ror, eq, ne, lt, le, gt, ge, neg, not,
   jump, jumpIfFalse, loop, call, ret, halt, cas, cpy, dbg, int, xchg]

theorem mem_all (op : Opcode) : op ∈ all := by cases op <;> decide

/-- The opcode that a byte stands for. -/
def ofByte? (b : UInt8) : Option Opcode := all.find? (·.toByte == b)

@[simp] theorem ofByte?_toByte (op : Opcode) : ofByte? op.toByte = some op := by
  cases op <;> rfl

theorem toByte_of_ofByte? {b : UInt8} {op : Opcode} (h : ofByte? b = some op) :
    op.toByte = b := by
  simpa using List.find?_some h

/-- How many operand bytes follow the opcode. -/
def operandSize : Opcode → Nat
  | pushInt => 8
  | loadVar | storeVar | jump | jumpIfFalse | loop | call | xchg => 2
  | loadReg | storeReg | cas => 1
  | _ => 0

/-- The name of the opcode in a listing. -/
def name : Opcode → String
  | nop => "NOP"
  | pushZero => "PUSH_ZERO"
  | pushOne => "PUSH_ONE"
  | pushInt => "PUSH_INT"
  | pushTrue => "PUSH_TRUE"
  | pushFalse => "PUSH_FALSE"
  | pop => "POP"
  | loadReg => "LOAD_REG"
  | storeReg => "STORE_REG"
  | loadVar => "LOAD_VAR"
  | storeVar => "STORE_VAR"
  | add => "ADD"
  | sub => "SUB"
  | mul => "MUL"
  | div => "DIV"
  | mod => "MOD"
  | pow => "POW"
  | bitAnd => "BIT_AND"
  | bitOr => "BIT_OR"
  | bitXor => "BIT_XOR"
  | logicalAnd => "LOGICAL_AND"
  | logicalOr => "LOGICAL_OR"
  | shl => "SHL"
  | shr => "SHR"
  | rol => "ROL"
  | ror => "ROR"
  | eq => "EQ"
  | ne => "NE"
  | lt => "LT"
  | le => "LE"
  | gt => "GT"
  | ge => "GE"
  | neg => "NEG"
  | not => "NOT"
  | jump => "JUMP"
  | jumpIfFalse => "JUMP_IF_FALSE"
  | loop => "LOOP"
  | call => "CALL"
  | ret => "RET"
  | halt => "HALT"
  | cas => "CAS"
  | cpy => "CPY"
  | dbg => "DBG"
  | int => "INT"
  | xchg => "XCHG"

end Opcode

end StackCode
