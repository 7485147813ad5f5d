import ThreeAddress.Asm.Listing
import ThreeAddress.Lowering.Function

/-!
# Code for programs

The functions of a program are compiled one after the other. Each generator adds to
the pool that the one before it has left, so equal texts of all functions share a number.
-/

namespace ThreeAddress

/-- The routine of a function, and the pool with its literals. The pool also keeps the literals
that were met before a failure. -/
def Placed.routine (placed : Placed) (pool : LiteralPool) :
    Except CompileError Routine × LiteralPool :=
  let generator : Generator Unit := Lowering.code placed
  let (result, state) := generator.run.run ⟨pool, #[]⟩
  (result.map fun _ => ⟨placed.function.name, state.items.toList⟩, state.pool)

namespace Program

/-- The routines of functions in order, and the pool with their literals. -/
def compileFrom (allocator : Allocator) :
    List Function → LiteralPool → Except CompileError (List Routine × LiteralPool)
  | [], pool => .ok ([], pool)
  | function :: rest, pool =>
      match allocator function with
      | .error error => .error (.outOfRegisters error)
      | .ok assignment =>
          match (Placed.mk function assignment).routine pool with
          | (.error error, _) => .error error
          | (.ok routine, pool) =>
              match compileFrom allocator rest pool with
              | .error error => .error error
              | .ok (routines, pool) => .ok (routine :: routines, pool)

def compile (program : Program) (allocator : Allocator) : Except CompileError AsmProgram :=
  match compileFrom allocator program.functions .empty with
  | .error error => .error error
  | .ok (routines, literals) => .ok ⟨routines, literals⟩

end Program

end ThreeAddress
