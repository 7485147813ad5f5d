import ThreeAddress.Lowering.Generator
import ThreeAddress.Registers.Moves

/-!
# Code for functions

Each instruction is lowered on its own, with any writer of code. Integers are kept
sign-extended from 32 bits in whole registers, so each arithmetic result is extended again;
truth values are 0 and 1. The two scratch registers hold literals and parked operands and
never a destination.
-/

namespace ThreeAddress

/-- The label of a function's label in the code. The name of the function is preceded by
its length in bytes. -/
def localLabel (function label : String) : String :=
  ".L" ++ toString function.utf8ByteSize ++ function ++ "." ++ label

/-- The most arguments or parameters that there are registers for. -/
def maxArguments : Nat := Register.arguments.length

/-- The machine operation of an arithmetic operator; division has none of this form. -/
def ArithOp.alu? : ArithOp → Option AluOp
  | add => some .add
  | sub => some .sub
  | mul => some .imul
  | and => some .and
  | or => some .or
  | div => none

/-- A function whose destinations have been placed. -/
structure Placed where
  function : Function
  assignment : Assignment
deriving DecidableEq, Repr

namespace Placed

/-- The registers that the function has to save. -/
def saved (placed : Placed) : List Register :=
  Register.calleeSaved.filter (· ∈ placed.assignment.registers)

/-- The bytes that keep the stack aligned at calls: with the return address, an even number
of saved registers is an odd number of words. -/
def padding (placed : Placed) : Int32 :=
  if placed.saved.length % 2 = 0 then 8 else 0

/-- The moves that bring the parameters to their registers. A parameter that is written before it
is read may share its register with one that is live, and is not moved. -/
def parameterMoves (placed : Placed) : List Move :=
  let live := placed.function.liveAtStart?.getD .empty
  ((placed.function.params.map Dest.var).zip Register.arguments).filterMap fun (dest, argument) =>
    if dest ∈ live then
      (placed.assignment.register? dest).map fun register => ⟨register, argument⟩
    else none

end Placed

namespace Lowering

open CodeWriter

variable {Literal : Type} {m : Type → Type} [CodeWriter Literal m]

def move (src dst : Register) : m Unit :=
  if src = dst then pure () else instr (.mov src dst)

/-- The register of a destination that is read. -/
def operand (placed : Placed) (dest : Dest) : m Register :=
  match placed.assignment.register? dest with
  | some register => pure register
  | none => fail (.unassignedOperand placed.function.name dest)

/-- The register that holds a source. A literal is put into `scratch` first. -/
def source (placed : Placed) (scratch : Register) : Source → m Register
  | .temp number => operand placed (.temp number)
  | .var name => operand placed (.var name)
  | .int value => do
      instr (.movImm value.toInt64 scratch)
      return scratch
  | .bool value => do
      instr (.movImm (if value then 1 else 0) scratch)
      return scratch
  | .str text => do
      instr (.leaLiteral (← literal text) scratch)
      return scratch

def moveAll (moves : List Move) : m Unit :=
  (Move.resolve moves .scratch).forM fun parallel => move parallel.src parallel.dst

def prologue (placed : Placed) : m Unit := do
  if maxArguments < placed.function.params.length then
    fail (.tooManyParameters placed.function.name placed.function.params.length)
  placed.saved.forM fun register => instr (.push register)
  if placed.padding ≠ 0 then instr (.subSp placed.padding)
  moveAll placed.parameterMoves

def epilogue (placed : Placed) : m Unit := do
  if placed.padding ≠ 0 then instr (.addSp placed.padding)
  placed.saved.reverse.forM fun register => instr (.pop register)
  instr .ret

/-- Compares two sources. -/
def compare (placed : Placed) (left right : Source) : m Unit := do
  let right ← source placed .scratch right
  let left ← source placed .scratch2 left
  instr (.cmp left right)

/-- The quotient goes by way of `rax`, and the divisor must not be in a register that
the division overwrites. -/
def division (placed : Placed) (dst : Register) (left right : Source) : m Unit := do
  let divisor ← source placed .scratch right
  let divisor ←
    if divisor.isDivisionClobbered then do
      move divisor .scratch
      pure .scratch
    else pure divisor
  let dividend ← source placed .rax left
  move dividend .rax
  instr .extendDividend
  instr (.divide divisor)
  instr (.signExtend .rax)
  move .rax dst

/-- The left operand is put into the destination first, so the right one must not be there. -/
def arithmetic (placed : Placed) (op : ArithOp) (alu : AluOp) (dst : Register)
    (left right : Source) : m Unit := do
  let right ← source placed .scratch right
  let right ←
    if right = dst then do
      move right .scratch
      pure .scratch
    else pure right
  let left ← source placed .scratch2 left
  move left dst
  instr (.alu alu right dst)
  if !op.isLogical then instr (.signExtend dst)

def binary (placed : Placed) (op : BinaryOp) (dst : Register) (left right : Source) :
    m Unit := do
  match op with
  | .rel op =>
      compare placed left right
      instr (.set op.condition dst)
      instr (.zeroExtend dst)
  | .arith op =>
      match op.alu? with
      | none => division placed dst left right
      | some alu => arithmetic placed op alu dst left right

def unary (placed : Placed) (op : UnaryOp) (dst : Register) (src : Source) : m Unit := do
  let operand ← source placed dst src
  move operand dst
  match op with
  | .neg =>
      instr (.neg dst)
      instr (.signExtend dst)
  | .not => instr (.xorImm 1 dst)

/-- The moves of the arguments that are in registers, in order. -/
def argumentMoves (placed : Placed) : List (Source × Register) → m (List Move)
  | [] => pure []
  | (arg, argument) :: rest =>
      match arg.dest? with
      | none => argumentMoves placed rest
      | some dest => do
          let register ← operand placed dest
          let moves ← argumentMoves placed rest
          return ⟨argument, register⟩ :: moves

/-- Registers are moved before literals are loaded. -/
def call (placed : Placed) (callee : String) (args : List Source) (dst : Option Dest) :
    m Unit := do
  if maxArguments < args.length then
    fail (.tooManyArguments placed.function.name callee args.length)
  let passed := args.zip Register.arguments
  moveAll (← argumentMoves placed passed)
  passed.forM fun (arg, argument) => do
    if arg.isLiteral then discard (source placed argument arg)
  if args.isEmpty && Builtin.ofName? callee = some .printStr then
    instr (.movImm 0 .rdi)
  instr (.call callee)
  match dst.bind placed.assignment.register? with
  | some register => move .result register
  | none => pure ()

/-- The code of one instruction. Nothing is computed for a destination without a register. -/
def inst (placed : Placed) : Inst → m Unit
  | .binary op dst left right =>
      match placed.assignment.register? dst with
      | none => pure ()
      | some register => binary placed op register left right
  | .unary op dst src =>
      match placed.assignment.register? dst with
      | none => pure ()
      | some register => unary placed op register src
  | .move dst src =>
      match placed.assignment.register? dst with
      | none => pure ()
      | some register => do
          let operand ← source placed register src
          move operand register
  | .load dst address =>
      match placed.assignment.register? dst with
      | none => pure ()
      | some register => do
          let base ← source placed .scratch address.base
          instr (.load32 base address.offset register)
  | .store address src => do
      let base ← source placed .scratch address.base
      let value ← source placed .scratch2 src
      instr (.store32 value base address.offset)
  | .label name => item (.label (localLabel placed.function.name name))
  | .jump target => instr (.jmp (localLabel placed.function.name target))
  | .branch op left right target => do
      compare placed left right
      instr (.jcc op.condition (localLabel placed.function.name target))
  | .call callee args dst => call placed callee args dst
  | .ret value => do
      match value with
      | none => pure ()
      | some value => do
          let register ← source placed .result value
          move register .result
      epilogue placed

/-- The code of a function. -/
def code (placed : Placed) : m Unit := do
  prologue placed
  placed.function.code.forM (inst placed)
  if placed.function.fallsThrough then epilogue placed

end Lowering

end ThreeAddress
