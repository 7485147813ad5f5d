import ThreeAddress.Asm.Instr

/-!
# The processor

The registers and the outcome of the last comparison, and the instructions that
concern nothing else.
-/

namespace ThreeAddress

structure Registers where
  values : Vector Int64 16
deriving DecidableEq, Repr

namespace Registers

def fill (value : Int64) : Registers := ⟨Vector.replicate 16 value⟩

instance : Inhabited Registers := ⟨fill 0⟩

def get (registers : Registers) (register : Register) : Int64 :=
  registers.values[register.index]

def set (registers : Registers) (register : Register) (value : Int64) : Registers :=
  ⟨registers.values.set register.index value⟩

theorem get_set (registers : Registers) (register other : Register) (value : Int64) :
    (registers.set register value).get other =
      if register = other then value else registers.get other := by
  simp only [get, set, Fin.getElem_fin, Vector.getElem_set, ← Fin.ext_iff, Register.index_inj]

@[simp] theorem get_set_self (registers : Registers) (register : Register) (value : Int64) :
    (registers.set register value).get register = value := by
  simp [get_set]

/-- Sets each of the listed registers to its value. -/
def setAll (values : Register → Int64) : List Register → Registers → Registers
  | [], registers => registers
  | register :: rest, registers => setAll values rest (registers.set register (values register))

end Registers

structure Cpu where
  registers : Registers
  /-- How the last comparison came out; `none` once other instructions have changed the flags. -/
  compared : Option Ordering
deriving DecidableEq, Repr, Inhabited

/-- Why a run cannot go on. -/
inductive Trap where
  | divideError
  | badAccess (address : Nat)
  | unknownFlags
  | badJump
deriving DecidableEq, Repr

def Condition.holds : Condition → Ordering → Bool
  | .e, ordering => ordering = .eq
  | .ne, ordering => ordering ≠ .eq
  | .l, ordering => ordering = .lt
  | .le, ordering => ordering ≠ .gt
  | .g, ordering => ordering = .gt
  | .ge, ordering => ordering ≠ .lt

def AluOp.eval (op : AluOp) (left right : Int64) : Int64 :=
  match op with
  | .add => left + right
  | .sub => left - right
  | .imul => left * right
  | .and => left &&& right
  | .or => left ||| right

def orderOf (left right : Int64) : Ordering :=
  if left < right then .lt else if left = right then .eq else .gt

/-- Divides a dividend of 128 bits, given by its two halves. The quotient has to fit into
a register. -/
def divideWide (high low divisor : Int64) : Option (Int64 × Int64) :=
  let dividend : Int := high.toInt * 18446744073709551616 + low.toUInt64.toNat
  let quotient := dividend.tdiv divisor.toInt
  if divisor = 0 ∨ quotient < -9223372036854775808 ∨ 9223372036854775808 ≤ quotient then none
  else some (Int64.ofInt quotient, Int64.ofInt (dividend.tmod divisor.toInt))

namespace Cpu

def get (cpu : Cpu) (register : Register) : Int64 := cpu.registers.get register

def set (cpu : Cpu) (register : Register) (value : Int64) : Cpu :=
  { cpu with registers := cpu.registers.set register value }

/-- Sets a register, which leaves other flags than those of a comparison. -/
def compute (cpu : Cpu) (register : Register) (value : Int64) : Cpu :=
  ⟨cpu.registers.set register value, none⟩

/-- Whether a condition holds, if a comparison has set the flags. -/
def holds? (cpu : Cpu) (condition : Condition) : Option Bool :=
  cpu.compared.map condition.holds

/-- Carries out an instruction that concerns registers and flags alone; `none` for any other
instruction. A literal is given by its address. -/
def exec? {Target Callee : Type} (cpu : Cpu) :
    Instr Target Callee Int64 → Option (Except Trap Cpu)
  | .mov src dst => some (.ok (cpu.set dst (cpu.get src)))
  | .movImm value dst => some (.ok (cpu.set dst value))
  | .leaLiteral address dst => some (.ok (cpu.set dst address))
  | .alu op src dst => some (.ok (cpu.compute dst (op.eval (cpu.get dst) (cpu.get src))))
  | .neg register => some (.ok (cpu.compute register (-cpu.get register)))
  | .xorImm value dst => some (.ok (cpu.compute dst (cpu.get dst ^^^ value.toInt64)))
  | .signExtend register => some (.ok (cpu.set register (cpu.get register).toInt32.toInt64))
  | .extendDividend => some (.ok (cpu.set .rdx (if cpu.get .rax < 0 then -1 else 0)))
  | .divide divisor =>
      match divideWide (cpu.get .rdx) (cpu.get .rax) (cpu.get divisor) with
      | none => some (.error .divideError)
      | some (quotient, remainder) =>
          some (.ok ((cpu.compute .rax quotient).compute .rdx remainder))
  | .cmp left right =>
      some (.ok { cpu with compared := some (orderOf (cpu.get left) (cpu.get right)) })
  | .set condition dst =>
      match cpu.holds? condition with
      | none => some (.error .unknownFlags)
      | some holds =>
          some (.ok (cpu.set dst ((cpu.get dst &&& ~~~255) ||| (if holds then 1 else 0))))
  | .zeroExtend register => some (.ok (cpu.set register (cpu.get register &&& 255)))
  | .load32 _ _ _ | .store32 _ _ _ | .jmp _ | .jcc _ _ | .call _ | .push _ | .pop _
  | .subSp _ | .addSp _ | .ret => none

end Cpu

end ThreeAddress
