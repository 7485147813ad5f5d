import ThreeAddress.Proofs.Lowering.Failures
import ThreeAddress.Proofs.Lowering.Interning

/-!
# Functions are compiled one by one

All that the functions of a program share is the pool of their texts. What is in the pool
before a function is compiled decides which numbers its texts get, and nothing else. So
the order of the functions does not matter, nor what other functions there are.
-/

namespace ThreeAddress

/-- The code of a routine, with the texts that its numbers stand for, of which each stands for
one. -/
def Routine.ReadsAs (pool : LiteralPool) (items : List (Item String)) (routine : Routine) : Prop :=
  routine.items.map (·.mapLiteral pool.get?) = items.map (·.mapLiteral some)

/-- A function that was compiled twice: with the same error, or with the same code once the numbers
are read back, each from its pool. -/
inductive SameButNumbers :
    Except CompileError Routine × LiteralPool → Except CompileError Routine × LiteralPool → Prop
  | error {error pool pool'} : SameButNumbers (.error error, pool) (.error error, pool')
  | ok {routine routine' pool pool' items} : routine.name = routine'.name →
      routine.ReadsAs pool items → routine'.ReadsAs pool' items →
      SameButNumbers (.ok routine, pool) (.ok routine', pool')

namespace Placed

/-- However texts are numbered before a function, its code reads as it was written. -/
theorem readsAs_number (placed : Placed) (pool : LiteralPool) :
    Routine.ReadsAs (pool.number placed.code.code).2 placed.code.code
      ⟨placed.function.name, (pool.number placed.code.code).1⟩ := by
  obtain ⟨hnumbers, hmem⟩ := LiteralPool.number_eq pool placed.code.code (.refl _)
  rw [Routine.ReadsAs, hnumbers]
  exact map_mapLiteral_indexOf hmem

/-- The pool that a function is given decides its numbers alone. -/
theorem routine_sameButNumbers (placed : Placed) (pool pool' : LiteralPool) :
    SameButNumbers (placed.routine pool) (placed.routine pool') := by
  rw [routine_eq, routine_eq]
  cases placed.code.result with
  | error => exact .error
  | ok => exact .ok rfl (placed.readsAs_number pool) (placed.readsAs_number pool')

end Placed

/-- The code of a function with its texts in place, wherever the function stands. -/
def Function.written (allocator : Allocator) (function : Function) : List (Item String) :=
  match allocator function with
  | .error _ => []
  | .ok assignment => (Placed.mk function assignment).code.code

namespace Program

variable {allocator : Allocator}

/-- The routine of a function reads as the function is written on its own. -/
theorem Compiles.readsAs {literals : LiteralPool} {function : Function} {routine : Routine}
    (h : Compiles allocator literals function routine) :
    routine.name = function.name ∧ routine.ReadsAs literals (function.written allocator) := by
  cases h with
  | intro hassignment _ hmem =>
      refine ⟨rfl, ?_⟩
      rw [Function.written, hassignment]
      exact Placed.map_mapLiteral_indexOf hmem

/-- A program is compiled if each of its functions can be. -/
theorem exists_compile_iff {program : Program} :
    (∃ asm, program.compile allocator = .ok asm) ↔
      ∀ function ∈ program.functions, function.failure? allocator = none := by
  rw [← CompileError.of?_eq_none_iff, of?_compile, List.findSome?_eq_none_iff]

/-- Functions are compiled independently of each other. The pool that a function is given changes
neither its error nor its code, but for the numbers of texts. Whether a program is compiled does not
depend on the order of its functions, and each function has one code, which its routine reads as
in every program. -/
theorem compile_independent (allocator : Allocator) :
    (∀ (placed : Placed) (pool pool' : LiteralPool),
      SameButNumbers (placed.routine pool) (placed.routine pool')) ∧
    (∀ program program' : Program, program.functions.Perm program'.functions →
      ((∃ asm, program.compile allocator = .ok asm) ↔
        ∃ asm, program'.compile allocator = .ok asm)) ∧
    ∃ code : Function → List (Item String), ∀ (program : Program) (asm : AsmProgram),
      program.compile allocator = .ok asm →
        List.Forall₂ (fun function routine =>
          routine.name = function.name ∧ routine.ReadsAs asm.literals (code function))
          program.functions asm.routines := by
  refine ⟨Placed.routine_sameButNumbers, fun program program' hperm => ?_,
    Function.written allocator, fun program asm h => ?_⟩
  · rw [exists_compile_iff, exists_compile_iff]
    exact forall_congr' fun function => imp_congr_left hperm.mem_iff
  · exact (compile_eq_ok h).imp fun _ _ hcompiles => hcompiles.readsAs

/-- The functions of `greeting` in the other order. -/
def greetingReversed : Program where
  functions := greeting.functions.reverse

/-- In the other order the texts of `greeting` get other numbers, and the code is the same. -/
theorem compile_independent_greeting :
    ∃ asm asm', greeting.compile LinearScan.standard.assign = .ok asm ∧
      greetingReversed.compile LinearScan.standard.assign = .ok asm' ∧
      asm.literals.texts = ["hello", "world", "!"] ∧
      asm'.literals.texts = ["world", "!", "hello"] ∧
      ∃ code : Function → List (Item String),
        List.Forall₂ (fun function routine =>
          routine.name = function.name ∧ routine.ReadsAs asm.literals (code function))
          greeting.functions asm.routines ∧
        List.Forall₂ (fun function routine =>
          routine.name = function.name ∧ routine.ReadsAs asm'.literals (code function))
          greetingReversed.functions asm'.routines := by
  have hcompiles {program : Program} {texts : List String}
      (h : (program.compile LinearScan.standard.assign).toOption.map (·.literals.texts) =
        some texts) :
      ∃ asm, program.compile LinearScan.standard.assign = .ok asm ∧
        asm.literals.texts = texts := by
    cases hasm : program.compile LinearScan.standard.assign with
    | error =>
        rw [hasm] at h
        cases h
    | ok asm =>
        rw [hasm] at h
        exact ⟨asm, rfl, Option.some.inj h⟩
  obtain ⟨asm, hasm, htexts⟩ : ∃ asm, greeting.compile LinearScan.standard.assign = .ok asm ∧
    asm.literals.texts = ["hello", "world", "!"] := hcompiles (by decide +kernel)
  obtain ⟨asm', hasm', htexts'⟩ :
    ∃ asm', greetingReversed.compile LinearScan.standard.assign = .ok asm' ∧
      asm'.literals.texts = ["world", "!", "hello"] := hcompiles (by decide +kernel)
  obtain ⟨_, _, code, hcode⟩ := compile_independent LinearScan.standard.assign
  exact ⟨asm, asm', hasm, hasm', htexts, htexts', code, hcode _ _ hasm, hcode _ _ hasm'⟩

end Program

end ThreeAddress
