import ThreeAddress.Native.Arena
import ThreeAddress.Native.Console
import ThreeAddress.Native.Cpu
import ThreeAddress.Native.Executable
import ThreeAddress.Native.Memory

/-!
# Native runs

The processor carries out an executable on a memory that holds the image, the
stack, and the heap blocks that `malloc` has handed out. Any access to another
place is a trap. A return address is the position to return to; the routine where
the run starts returns to no position, which ends the run.
-/

namespace ThreeAddress

/-- What surrounds a run and what it must not depend on: where things are in memory, and what
built-ins leave in the registers that they need not preserve. -/
structure Host where
  imageBase : Nat
  stackTop : Nat
  stackBytes : Nat
  low : LowMemory
  leftover : Nat → Register → Int64

namespace Host

/-- Low memory from 1 GiB up to 2 GiB, one range after the other. -/
def ascending : LowMemory := fun mappings bytes =>
  let base := match mappings with
    | [] => 0x40000000
    | latest :: _ => latest.base + latest.length
  if base + wholePages bytes ≤ 0x80000000 then some base else none

def standard : Host where
  imageBase := 0x7F0000000000
  stackTop := 0x7FFFFFFF0000
  stackBytes := 8388608
  low := ascending
  leftover := fun _ _ => 0

end Host

structure Machine where
  cpu : Cpu
  memory : Memory
  arena : Arena
  /-- The position of the next instruction. -/
  position : Nat
  /-- How many instructions have been carried out. -/
  ticks : Nat
  output : Array String
deriving Inhabited

/-- What a step leads to. -/
inductive NativeStep where
  | running (machine : Machine)
  | exited (machine : Machine)
  | trapped (trap : Trap) (machine : Machine)

/-- An address in a register. -/
def addressOf (value : Int64) : Nat := value.toUInt64.toNat

/-- The return address that is no position. -/
def noPosition : Int64 := -1

namespace Machine

def get (machine : Machine) (register : Register) : Int64 := machine.cpu.get register

def set (machine : Machine) (register : Register) (value : Int64) : Machine :=
  { machine with cpu := machine.cpu.set register value }

/-- Whether the byte at an address may be written. -/
def isWritable (host : Host) (machine : Machine) (address : Nat) : Bool :=
  (decide (host.stackTop - host.stackBytes ≤ address) && decide (address < host.stackTop)) ||
    machine.arena.mappings.any (·.contains address)

/-- The byte at an address, if it may be read. -/
def byte? (host : Host) (executable : Executable) (machine : Machine) (address : Nat) :
    Option UInt8 :=
  if executable.base ≤ address ∧ address < executable.base + executable.image.size then
    executable.image.byte? (address - executable.base)
  else if machine.isWritable host address then some (machine.memory.byte address)
  else none

def bytes? (host : Host) (executable : Executable) (machine : Machine) (address : Nat) :
    Nat → Option (List UInt8)
  | 0 => some []
  | count + 1 => do
      let byte ← machine.byte? host executable address
      let rest ← machine.bytes? host executable (address + 1) count
      return byte :: rest

/-- Reads a number of bytes as a number. -/
def load (host : Host) (executable : Executable) (machine : Machine) (address count : Nat) :
    Except Trap Nat :=
  match machine.bytes? host executable address count with
  | some bytes => .ok (Bytes.toNat bytes)
  | none => .error (.badAccess address)

/-- Writes a number as a number of bytes. -/
def store (host : Host) (machine : Machine) (address count value : Nat) : Except Trap Machine :=
  if (List.range count).all fun offset => machine.isWritable host (address + offset) then
    .ok { machine with memory := machine.memory.write address (Bytes.ofNat count value) }
  else .error (.badAccess address)

/-- Puts a value on the stack. -/
def push (host : Host) (machine : Machine) (value : Int64) : Except Trap Machine :=
  let pointer := machine.get .rsp - 8
  (machine.set .rsp pointer).store host (addressOf pointer) 8 (addressOf value)

/-- Takes a value off the stack. -/
def pop (host : Host) (executable : Executable) (machine : Machine) :
    Except Trap (Int64 × Machine) := do
  let pointer := machine.get .rsp
  let value ← machine.load host executable (addressOf pointer) 8
  return (Int64.ofNat value, machine.set .rsp (pointer + 8))

/-- Moves the stack pointer by a calculation, which changes the flags. -/
def moveStack (machine : Machine) (bytes : Int64) : Machine :=
  { machine with cpu := machine.cpu.compute .rsp (machine.get .rsp + bytes) }

/-- The bytes from an address up to the first zero, among the given number of bytes. -/
def textBytes? (host : Host) (executable : Executable) (machine : Machine) (address : Nat) :
    Nat → Option (List UInt8)
  | 0 => none
  | count + 1 =>
      match machine.byte? host executable address with
      | none => none
      | some byte =>
          if byte = 0 then some []
          else (machine.textBytes? host executable (address + 1) count).map (byte :: ·)

/-- No text in memory is longer than all memory. -/
def memoryBytes (host : Host) (executable : Executable) (machine : Machine) : Nat :=
  executable.image.size + host.stackBytes +
    machine.arena.mappings.foldr (fun mapping total => mapping.length + total) 1

/-- Adds a line to the output. -/
def print (machine : Machine) (line : String) : Machine :=
  { machine with output := machine.output.push line }

/-- The registers that a call may change. -/
def callerSaved : List Register :=
  Register.all.filter fun register => !(register.isCalleeSaved || register = .rsp)

/-- What a built-in leaves behind in registers and flags. -/
def clobber (host : Host) (machine : Machine) : Machine :=
  { machine with
    cpu :=
      ⟨Registers.setAll (host.leftover machine.ticks) callerSaved machine.cpu.registers, none⟩ }

/-- Carries out a built-in on the argument in `rdi`. -/
def callBuiltin (host : Host) (executable : Executable) (machine : Machine) :
    Builtin → Except Trap Machine
  | .printInt => .ok ((machine.print (printedInt (machine.get .rdi))).clobber host)
  | .printBool => .ok ((machine.print (printedBool (machine.get .rdi))).clobber host)
  | .printStr =>
      let pointer := machine.get .rdi
      if pointer = 0 then .ok ((machine.print "").clobber host)
      else
        match machine.textBytes? host executable (addressOf pointer)
            (machine.memoryBytes host executable) with
        | none => .error (.badAccess (addressOf pointer))
        | some bytes => .ok ((machine.print (printedBytes bytes)).clobber host)
  | .malloc =>
      let (address, arena) := machine.arena.malloc host.low (machine.get .rdi)
      .ok (({ machine with arena }.clobber host).set .rax (Int64.ofNat address))

/-- Continues at another position. -/
def goto (machine : Machine) (position : Nat) : Machine := { machine with position }

/-- Continues at the next position. -/
def advance (machine : Machine) : Machine := machine.goto (machine.position + 1)

/-- Carries out an instruction other than `ret`, which sets the next position too. -/
def exec (host : Host) (executable : Executable) (machine : Machine) :
    Linked → Except Trap Machine
  | .load32 base offset dst => do
      let value ←
        machine.load host executable (addressOf (machine.get base + offset.toInt64)) 4
      return (machine.set dst (Int32.ofNat value).toInt64).advance
  | .store32 src base offset => do
      let address := addressOf (machine.get base + offset.toInt64)
      return (← machine.store host address 4 (addressOf (machine.get src))).advance
  | .jmp target => .ok (machine.goto target)
  | .jcc condition target =>
      match machine.cpu.holds? condition with
      | none => .error .unknownFlags
      | some holds => .ok (if holds then machine.goto target else machine.advance)
  | .call (.builtin builtin) => return (← machine.callBuiltin host executable builtin).advance
  | .call (.position target) => do
      return (← machine.push host (Int64.ofNat (machine.position + 1))).goto target
  | .push register => return (← machine.push host (machine.get register)).advance
  | .pop register => do
      let (value, machine) ← machine.pop host executable
      return (machine.set register value).advance
  | .subSp bytes => .ok (machine.moveStack (-bytes.toInt64)).advance
  | .addSp bytes => .ok (machine.moveStack bytes.toInt64).advance
  | instr =>
      match machine.cpu.exec? instr with
      | none => .error .badJump
      | some (.error trap) => .error trap
      | some (.ok cpu) => .ok { machine with cpu }.advance

/-- Returns to the position on the stack. -/
def ret (host : Host) (executable : Executable) (machine : Machine) : NativeStep :=
  match machine.pop host executable with
  | .error trap => .trapped trap machine
  | .ok (value, next) =>
      if value = noPosition then .exited next
      else .running (next.goto (addressOf value))

/-- One instruction. -/
def step (host : Host) (executable : Executable) (machine : Machine) : NativeStep :=
  let machine := { machine with ticks := machine.ticks + 1 }
  match (executable.code[machine.position]? : Option Linked) with
  | none => .trapped .badJump machine
  | some Instr.ret => machine.ret host executable
  | some instr =>
      match machine.exec host executable instr with
      | .error trap => .trapped trap machine
      | .ok next => .running next

/-- Up to `fuel` instructions. -/
def run (host : Host) (executable : Executable) : Nat → Machine → NativeStep
  | 0, machine => .running machine
  | fuel + 1, machine =>
      match machine.step host executable with
      | .running next => run host executable fuel next
      | stopped => stopped

/-- The machine before the first instruction: the return address is on the stack. -/
def initial (host : Host) (executable : Executable) : Except Trap Machine :=
  let registers := Registers.setAll (host.leftover 0) Register.all default
  let machine : Machine :=
    ⟨⟨registers.set .rsp (Int64.ofNat host.stackTop), none⟩, .zeroed, .empty, executable.start,
      0, #[]⟩
  machine.push host noPosition

end Machine

/-- Why a program cannot be run natively, or stopped. -/
inductive NativeError where
  | assembly (error : AssemblyError)
  | codeMemory (error : CodeTooLarge)
  | trap (trap : Trap)
deriving DecidableEq, Repr

/-- The lines that a native run printed, and what `main` left in `rax`. -/
structure NativeExecution where
  output : List String
  exit : Int64
deriving DecidableEq, Repr

namespace AsmProgram

/-- Assembles a program and loads its code. -/
def load (program : AsmProgram) (host : Host) : Except NativeError Executable :=
  match program.assemble with
  | .error error => .error (.assembly error)
  | .ok image =>
      match (CodeMemory.ofSize image.code.length).load image.code with
      | .error error => .error (.codeMemory error)
      | .ok memory =>
          if memory.hasAddress image.entry then
            .ok (program.link image memory host.imageBase)
          else .error (.assembly .missingEntry)

end AsmProgram

/-- Runs an executable, unless it takes more than `fuel` instructions. -/
def Executable.run? (executable : Executable) (host : Host) (fuel : Nat) :
    Option (Except NativeError NativeExecution) :=
  match Machine.initial host executable with
  | .error trap => some (.error (.trap trap))
  | .ok machine =>
      match machine.run host executable fuel with
      | .running _ => none
      | .trapped trap _ => some (.error (.trap trap))
      | .exited machine => some (.ok ⟨machine.output.toList, machine.get .rax⟩)

/-- Runs a program, unless it takes more than `fuel` instructions. -/
def AsmProgram.run? (program : AsmProgram) (host : Host) (fuel : Nat) :
    Option (Except NativeError NativeExecution) :=
  match program.load host with
  | .error error => some (.error error)
  | .ok executable => executable.run? host fuel

end ThreeAddress
