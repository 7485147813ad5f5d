import ThreeAddress.Asm.Builder
import ThreeAddress.Asm.Listing

/-!
# Images

An image is the code of a program: its routines in order, then its literals,
each with a final zero.
-/

namespace ThreeAddress

structure Image where
  code : List UInt8
  /-- The offset of the routine where a run starts. -/
  entry : Nat
  /-- The offsets of routines, labels and literals. -/
  labels : List (String × Nat)
deriving DecidableEq, Repr, Inhabited

/-- The offset of a label. -/
def Image.place? (image : Image) (label : String) : Option Nat :=
  (image.labels.find? (·.1 = label)).map (·.2)

namespace Builder

/-- Adds routines, and says where the last one of the name `main` starts. -/
def addRoutines : Builder → Option Nat → List Routine → Except AssemblyError (Builder × Option Nat)
  | builder, entry, [] => .ok (builder, entry)
  | builder, entry, routine :: rest =>
      match (builder.bind (routineLabel routine.name)).emitAll routine.items with
      | .error error => .error error
      | .ok next =>
          next.addRoutines (if routine.name = "main" then some builder.offset else entry) rest

/-- Adds literals, numbered from `index`. -/
def addLiterals : Builder → Nat → List String → Builder
  | builder, _, [] => builder
  | builder, index, text :: rest =>
      (builder.data (literalLabel index) (Text.encode text)).addLiterals (index + 1) rest

end Builder

/-- Lays out a program. A call without a target is found first, then that there is no place to
start, then what is wrong with labels. -/
def AsmProgram.assemble (program : AsmProgram) : Except AssemblyError Image :=
  let start := program.routines.foldl (fun builder routine => builder.declare routine.name)
    Builder.empty
  match start.addRoutines none program.routines with
  | .error error => .error error
  | .ok (_, none) => .error .missingEntry
  | .ok (builder, some entry) =>
      let builder := builder.addLiterals 0 program.literals.texts
      match builder.finish with
      | .error error => .error error
      | .ok code => .ok ⟨code, entry, builder.symbols⟩

end ThreeAddress
