import ThreeAddress.Liveness.Interval
import ThreeAddress.Random.Shuffle
import ThreeAddress.Registers.Assignment

/-!
# Linear scan

Intervals are placed in the order in which they start. Each takes its hinted
register if that is free and allowed, or else the first such register in order
of preference. Nothing is spilled: when no register is left, allocation fails.
-/

namespace ThreeAddress

/-- No register is left for a destination. -/
structure OutOfRegisters where
  function : String
  dest : Dest
deriving DecidableEq, Repr

def OutOfRegisters.message (error : OutOfRegisters) : String :=
  s!"{error.function}: no register available for {error.dest.text}"

/-- Decides which register, if any, holds each destination of a function. -/
abbrev Allocator := Function → Except OutOfRegisters Assignment

/-- Whether an interval may live in a register: one that crosses a call needs a register which
calls leave alone, and one that crosses a division needs one which divisions leave alone. -/
def Interval.permits (interval : Interval) (register : Register) : Bool :=
  !(interval.crossesCall && !register.isCalleeSaved) &&
    !(interval.crossesDivision && register.isDivisionClobbered)

/-- The preferred registers of destinations. Parameters arrive in the argument registers;
a division takes its dividend and leaves its quotient in `rax`. Later hints replace earlier
ones. -/
def Function.hints (function : Function) : List (Dest × Register) :=
  (function.params.map Dest.var).zip Register.arguments ++
    function.code.flatMap fun
      | .binary (.arith .div) dst left _ =>
          (dst, .rax) :: left.dest?.toList.map fun dest => (dest, .rax)
      | _ => []

structure LinearScan where
  /-- The registers that may be handed out, in order of preference. -/
  pool : List Register
  useHints : Bool
deriving DecidableEq, Repr

namespace LinearScan

def standard : LinearScan := ⟨Register.allocatable, true⟩

/-- A shuffled order of preference and no hints. -/
def seeded (seed : UInt64) : LinearScan :=
  ⟨Random.shuffle Register.allocatable (.ofSeed seed), false⟩

/-- The hinted register of a destination. -/
def hint? (scan : LinearScan) (function : Function) (dest : Dest) : Option Register :=
  if scan.useHints then
    (function.hints.reverse.find? (·.1 = dest)).map (·.2)
  else none

/-- A register in use, with the last point of the interval that lives in it. -/
structure Active where
  last : Nat
  register : Register
deriving DecidableEq, Repr

/-- Whether an interval may take a register while others are in use. -/
def isFree (active : List Active) (interval : Interval) (register : Register) : Bool :=
  interval.permits register && active.all (·.register ≠ register)

/-- The register that an interval takes while others are in use. -/
def choose? (scan : LinearScan) (function : Function) (active : List Active)
    (interval : Interval) : Option Register :=
  match (scan.hint? function interval.dest).filter (isFree active interval) with
  | some register => some register
  | none => scan.pool.find? (isFree active interval)

/-- Those in use that the given point still belongs to. -/
def stillActive (active : List Active) (point : Nat) : List Active :=
  active.filter fun held => decide (point ≤ held.last)

/-- Places intervals in order. -/
def place (scan : LinearScan) (function : Function) :
    List Interval → List Active → Assignment → Except OutOfRegisters Assignment
  | [], _, assignment => .ok assignment
  | interval :: rest, active, assignment =>
      let active := stillActive active interval.first
      match scan.choose? function active interval with
      | none => .error ⟨function.name, interval.dest⟩
      | some register =>
          scan.place function rest (⟨interval.last, register⟩ :: active)
            (assignment.set interval.dest (some register))

/-- Every destination of a function, in no register. -/
def unplaced (function : Function) : Assignment :=
  .ofList (function.dests.map fun dest => (dest, none))

def assign (scan : LinearScan) (function : Function) : Except OutOfRegisters Assignment :=
  scan.place function (function.intervals function.liveness) [] (unplaced function)

end LinearScan

end ThreeAddress
