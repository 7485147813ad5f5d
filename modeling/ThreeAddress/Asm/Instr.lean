import ThreeAddress.Code.Inst
import ThreeAddress.Registers.Register

/-!
# Machine instructions

The instructions that generated code consists of. What a jump, a call and a
reference to a literal name is left open: it is a label, a routine and a text
while code is written, and a displacement once it is laid out.
-/

namespace ThreeAddress

/-- The conditions that a comparison leaves behind. -/
inductive Condition where
  | e | ne | l | le | g | ge
deriving DecidableEq, Repr, Inhabited

def Condition.suffix : Condition → String
  | e => "e"
  | ne => "ne"
  | l => "l"
  | le => "le"
  | g => "g"
  | ge => "ge"

def RelOp.condition : RelOp → Condition
  | eq => .e
  | ne => .ne
  | lt => .l
  | le => .le
  | gt => .g
  | ge => .ge

inductive AluOp where
  | add | sub | imul | and | or
deriving DecidableEq, Repr, Inhabited

def AluOp.mnemonic : AluOp → String
  | add => "addq"
  | sub => "subq"
  | imul => "imulq"
  | and => "andq"
  | or => "orq"

/-- One machine instruction; `Target`, `Callee` and `Literal` are what jumps, calls and references
to literals name. Of two registers the source comes first. -/
inductive Instr (Target Callee Literal : Type) where
  | mov (src dst : Register)
  | movImm (value : Int64) (dst : Register)
  | leaLiteral (literal : Literal) (dst : Register)
  /-- Loads 32 bits and extends the sign. -/
  | load32 (base : Register) (offset : Int32) (dst : Register)
  /-- Stores the low 32 bits. -/
  | store32 (src base : Register) (offset : Int32)
  | alu (op : AluOp) (src dst : Register)
  | neg (register : Register)
  | xorImm (value : Int32) (dst : Register)
  /-- Extends the sign of the low 32 bits into the whole register. -/
  | signExtend (register : Register)
  /-- Extends the sign of `rax` into `rdx`. -/
  | extendDividend
  /-- Divides `rdx:rax`; the quotient goes to `rax` and the remainder to `rdx`. -/
  | divide (divisor : Register)
  /-- Sets the flags from `left - right`. -/
  | cmp (left right : Register)
  /-- Writes a condition to the low byte. -/
  | set (condition : Condition) (dst : Register)
  /-- Extends the low byte with zeros into the whole register. -/
  | zeroExtend (register : Register)
  | jmp (target : Target)
  | jcc (condition : Condition) (target : Target)
  | call (callee : Callee)
  | push (register : Register)
  | pop (register : Register)
  | subSp (bytes : Int32)
  | addSp (bytes : Int32)
  | ret
deriving DecidableEq, Repr, Inhabited

namespace Instr

/-- Renames what an instruction refers to. -/
def map {Target Callee Literal Target' Callee' Literal' : Type} (target : Target → Target')
    (callee : Callee → Callee') (literal : Literal → Literal') :
    Instr Target Callee Literal → Instr Target' Callee' Literal'
  | mov src dst => mov src dst
  | movImm value dst => movImm value dst
  | leaLiteral reference dst => leaLiteral (literal reference) dst
  | load32 base offset dst => load32 base offset dst
  | store32 src base offset => store32 src base offset
  | alu op src dst => alu op src dst
  | neg register => neg register
  | xorImm value dst => xorImm value dst
  | signExtend register => signExtend register
  | extendDividend => extendDividend
  | divide divisor => divide divisor
  | cmp left right => cmp left right
  | set condition dst => set condition dst
  | zeroExtend register => zeroExtend register
  | jmp name => jmp (target name)
  | jcc condition name => jcc condition (target name)
  | call name => call (callee name)
  | push register => push register
  | pop register => pop register
  | subSp bytes => subSp bytes
  | addSp bytes => addSp bytes
  | ret => ret

end Instr

/-- A line of code: a label or an instruction. -/
inductive Item (Literal : Type) where
  | label (name : String)
  | instr (code : Instr String String Literal)
deriving DecidableEq, Repr, Inhabited

/-- Renames the literals that an item refers to. -/
def Item.mapLiteral {Literal Literal' : Type} (literal : Literal → Literal') :
    Item Literal → Item Literal'
  | .label name => .label name
  | .instr code => .instr (code.map id id literal)

/-- The literal that an item refers to. -/
def Item.literal? {Literal : Type} : Item Literal → Option Literal
  | .instr (.leaLiteral literal _) => some literal
  | _ => none

end ThreeAddress
