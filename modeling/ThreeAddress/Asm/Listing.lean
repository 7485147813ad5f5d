import ThreeAddress.Asm.Instr
import ThreeAddress.Asm.LiteralPool

/-!
# Assembly programs and their text

A program is a list of routines and the literals that they refer to by number.
The text is that of the usual assembler for the machine: the source operand
comes first, registers have a percent sign and constants a dollar sign.
-/

namespace ThreeAddress

structure Routine where
  name : String
  items : List (Item Nat)
deriving DecidableEq, Repr, Inhabited

structure AsmProgram where
  routines : List Routine
  literals : LiteralPool
deriving DecidableEq, Repr, Inhabited

/-- The first routine of a name. -/
def AsmProgram.routine? (program : AsmProgram) (name : String) : Option Routine :=
  program.routines.find? (·.name = name)

def Instr.text : Instr String String Nat → String
  | mov src dst => s!"movq {src.text},{dst.text}"
  | movImm value dst => s!"movq ${value.toInt},{dst.text}"
  | leaLiteral index dst => s!"leaq {LiteralPool.label index}(%rip),{dst.text}"
  | load32 base offset dst => s!"movslq {offset.toInt}({base.text}),{dst.text}"
  | store32 src base offset => s!"movl %{src.name32},{offset.toInt}({base.text})"
  | alu op src dst => s!"{op.mnemonic} {src.text},{dst.text}"
  | neg register => "negq " ++ register.text
  | xorImm value dst => s!"xorq ${value.toInt},{dst.text}"
  | signExtend register => s!"movslq %{register.name32},{register.text}"
  | extendDividend => "cqto"
  | divide divisor => "idivq " ++ divisor.text
  | cmp left right => s!"cmpq {right.text},{left.text}"
  | set condition dst => s!"set{condition.suffix} %{dst.name8}"
  | zeroExtend register => s!"movzbq %{register.name8},{register.text}"
  | jmp target => "jmp " ++ target
  | jcc condition target => s!"j{condition.suffix} {target}"
  | call callee => "call " ++ callee
  | push register => "pushq " ++ register.text
  | pop register => "popq " ++ register.text
  | subSp bytes => s!"subq ${bytes.toInt},%rsp"
  | addSp bytes => s!"addq ${bytes.toInt},%rsp"
  | ret => "ret"

def Item.text : Item Nat → String
  | .label name => name ++ ":"
  | .instr code => code.text

/-- One line of a listing. Labels stand at the margin. -/
def Item.line (item : Item Nat) : String :=
  match item with
  | .label _ => item.text ++ "\n"
  | .instr _ => "\t" ++ item.text ++ "\n"

def Routine.text (routine : Routine) : String :=
  "\t.p2align 4,0x90\n" ++ "\t.globl " ++ routine.name ++ "\n" ++ routine.name ++ ":\n" ++
    String.join (routine.items.map Item.line)

/-- The data lines of literals, counting from `index`. -/
def literalLines : Nat → List String → String
  | _, [] => ""
  | index, text :: rest =>
      LiteralPool.label index ++ ":\n" ++ "\t.asciz \"" ++ escapeAssembly text ++ "\"\n" ++
        literalLines (index + 1) rest

def AsmProgram.text (program : AsmProgram) : String :=
  "\t.text\n" ++ String.join (program.routines.map Routine.text) ++
    (if program.literals.texts.isEmpty then ""
      else "\t.data\n" ++ literalLines 0 program.literals.texts)

end ThreeAddress
