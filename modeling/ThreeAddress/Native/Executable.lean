import ThreeAddress.Asm.Image
import ThreeAddress.Native.CodeMemory

/-!
# Executables

An executable is the code of a program as the processor meets it: instructions
by their position, jumps and calls by the position they go to, and literals by
their address. Its bytes are in memory, from where literals are read.
-/

namespace ThreeAddress

/-- What a call goes to: a built-in, or the routine at a position. -/
inductive CallTarget where
  | builtin (builtin : Builtin)
  | position (index : Nat)
deriving DecidableEq, Repr, Inhabited

/-- An instruction whose references are positions and addresses. -/
abbrev Linked := Instr Nat CallTarget Int64

structure Executable where
  code : Array Linked
  /-- The position where a run starts. -/
  start : Nat
  /-- The address of the first byte of the image. -/
  base : Nat
  image : CodeMemory
deriving DecidableEq, Repr, Inhabited

namespace AsmProgram

/-- The instructions of a program, without labels. -/
def instructions (program : AsmProgram) : List (Instr String String Nat) :=
  program.routines.flatMap fun routine => routine.items.filterMap fun
    | .label _ => none
    | .instr code => some code

/-- The position of each label among items that start at a position, and the position after
them. -/
def positionsOf (position : Nat) : List (Item Nat) → List (String × Nat) × Nat
  | [] => ([], position)
  | .label name :: rest =>
      let (labels, stop) := positionsOf position rest
      ((name, position) :: labels, stop)
  | .instr _ :: rest => positionsOf (position + 1) rest

/-- The position of each routine and label. -/
def positionsFrom (position : Nat) : List Routine → List (String × Nat)
  | [] => []
  | routine :: rest =>
      let (labels, next) := positionsOf position routine.items
      (routineLabel routine.name, position) :: labels ++ positionsFrom next rest

/-- The position of a label. No instruction is at the position of a label that is not there. -/
def position (program : AsmProgram) (label : String) : Nat :=
  match (positionsFrom 0 program.routines).find? (·.1 = label) with
  | some (_, position) => position
  | none => program.instructions.length

/-- What a call of a name goes to. -/
def callTarget (program : AsmProgram) (callee : String) : CallTarget :=
  match Builtin.ofName? callee with
  | some builtin => .builtin builtin
  | none => .position (program.position (routineLabel callee))

/-- Links a program whose image has been loaded at an address. -/
def link (program : AsmProgram) (image : Image) (memory : CodeMemory) (base : Nat) : Executable :=
  let address (index : Nat) :=
    Int64.ofNat (base + (image.place? (literalLabel index)).getD 0)
  { code :=
      (program.instructions.map (Instr.map program.position program.callTarget address)).toArray
    start := program.position (routineLabel "main")
    base
    image := memory }

end AsmProgram

end ThreeAddress
