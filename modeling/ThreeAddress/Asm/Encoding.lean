import ThreeAddress.Asm.Bytes
import ThreeAddress.Asm.Instr

/-!
# Encoding

The bytes of a machine instruction. Each instruction has one form, whatever its
operands: displacements and constants always take their full width, and an
address is always written with its scale byte. The fields that refer to other
places come last in an instruction and are relative to its end.
-/

namespace ThreeAddress

/-- What a call refers to once code is laid out: a routine of the code by its displacement, or
a built-in by its address. -/
inductive CallField where
  | routine (displacement : Int32)
  | builtin (address : UInt64)
deriving DecidableEq, Repr, Inhabited

/-- An instruction whose references are displacements. -/
abbrev LaidOut := Instr Int32 CallField Int32

namespace Encoding

def bytes32 (value : Int32) : List UInt8 := Bytes.ofNat 4 value.toUInt32.toNat

def bytes64 (value : UInt64) : List UInt8 := Bytes.ofNat 8 value.toNat

/-- The three low bits of a register number, which fit into an operand byte. -/
def low (register : Register) : UInt8 := UInt8.ofNat (register.index.val % 8)

/-- The high bit of a register number, which goes into the leading byte. -/
def high (register : Register) : UInt8 := UInt8.ofNat (register.index.val / 8)

/-- The leading byte: whether operands have 64 bits, and the high bits of the two
register numbers. -/
def lead (wide : Bool) (reg rm : UInt8) : UInt8 :=
  0x40 + (if wide then 8 else 0) + 4 * reg + rm

/-- The byte for two register operands. -/
def pair (reg rm : UInt8) : UInt8 := 0xC0 + 8 * reg + rm

/-- The last digit of a condition in an opcode. -/
def condition : Condition → UInt8
  | .e => 4
  | .ne => 5
  | .l => 0xC
  | .ge => 0xD
  | .le => 0xE
  | .g => 0xF

/-- A wide instruction on two registers. -/
def wide (opcode : List UInt8) (reg rm : Register) : List UInt8 :=
  lead true (high reg) (high rm) :: opcode ++ [pair (low reg) (low rm)]

/-- A wide instruction on one register; the other field extends the opcode. -/
def wideUnary (opcode extension : UInt8) (register : Register) : List UInt8 :=
  [lead true 0 (high register), opcode, pair extension (low register)]

/-- The operand bytes of a register and an address. -/
def address (reg base : Register) (offset : Int32) : List UInt8 :=
  [0x84 + 8 * low reg, 0x20 + low base] ++ bytes32 offset

end Encoding

open Encoding in
/-- The bytes of an instruction. -/
def LaidOut.encode : LaidOut → List UInt8
  | .mov src dst => wide [0x89] src dst
  | .movImm value dst => [lead true 0 (high dst), 0xB8 + low dst] ++ bytes64 value.toUInt64
  | .leaLiteral displacement dst =>
      [lead true (high dst) 0, 0x8D, 0x05 + 8 * low dst] ++ bytes32 displacement
  | .load32 base offset dst =>
      [lead true (high dst) (high base), 0x63] ++ address dst base offset
  | .store32 src base offset =>
      [lead false (high src) (high base), 0x89] ++ address src base offset
  | .alu .add src dst => wide [0x01] src dst
  | .alu .sub src dst => wide [0x29] src dst
  | .alu .and src dst => wide [0x21] src dst
  | .alu .or src dst => wide [0x09] src dst
  | .alu .imul src dst => wide [0x0F, 0xAF] dst src
  | .neg register => wideUnary 0xF7 3 register
  | .xorImm value dst => wideUnary 0x81 6 dst ++ bytes32 value
  | .signExtend register => wide [0x63] register register
  | .extendDividend => [0x48, 0x99]
  | .divide divisor => wideUnary 0xF7 7 divisor
  | .cmp left right => wide [0x3B] left right
  | .set cond dst =>
      [lead false 0 (high dst), 0x0F, 0x90 + condition cond, pair 0 (low dst)]
  | .zeroExtend register => wide [0x0F, 0xB6] register register
  | .jmp displacement => 0xE9 :: bytes32 displacement
  | .jcc cond displacement =>
      [0x0F, 0x80 + condition cond] ++ bytes32 displacement
  | .call (.routine displacement) => 0xE8 :: bytes32 displacement
  | .call (.builtin address) => [0x48, 0xB8] ++ bytes64 address ++ [0xFF, 0xD0]
  | .push register => [lead false 0 (high register), 0x50 + low register]
  | .pop register => [lead false 0 (high register), 0x58 + low register]
  | .subSp bytes => [0x48, 0x81, 0xEC] ++ bytes32 bytes
  | .addSp bytes => [0x48, 0x81, 0xC4] ++ bytes32 bytes
  | .ret => [0xC3]

end ThreeAddress
