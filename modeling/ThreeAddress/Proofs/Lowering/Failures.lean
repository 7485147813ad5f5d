import ThreeAddress.Proofs.Lowering.Generation
import ThreeAddress.Proofs.Lowering.Mentions
import ThreeAddress.Proofs.Registers.LinearScan

/-!
# Why a program cannot be compiled

The first thing that is wrong with a function decides: no register is left for a
destination, there are too many parameters, or an instruction cannot be lowered. That is
a call with too many arguments, or an instruction that loads an operand without a
register. Linear scan never leaves an operand without a register, so with it only the
former is possible.
-/

namespace ThreeAddress

/-! ## Failures of functions -/

/-- The parameters, or a call, for which there are too few registers. -/
def Function.excess? (function : Function) : Option CompileError :=
  function.overlongParameters?.or (function.code.findSome? function.overlongCall?)

theorem Inst.mem_loaded (inst : Inst) {source : Source} :
    source ∈ inst.loaded ↔ source ∈ inst.sources := by
  cases inst <;> simp [loaded, sources, or_comm]

namespace Placed

variable {placed : Placed}

/-- An instruction the operands of which have registers only fails for its length. -/
theorem unlowerable?_of_assigned {inst : Inst}
    (h : ∀ dest ∈ inst.uses, ∃ register, placed.assignment.register? dest = some register) :
    placed.unlowerable? inst = placed.function.overlongCall? inst := by
  have hloadable : inst.loaded.findSome? placed.unloadable? = none := by
    rw [List.findSome?_eq_none_iff]
    intro source hsource
    cases hdest : source.dest? with
    | none => rw [unloadable?, hdest, Option.bind_none]
    | some dest =>
        have huse : dest ∈ inst.uses :=
          List.mem_filterMap.mpr ⟨source, inst.mem_loaded.mp hsource, hdest⟩
        obtain ⟨register, hregister⟩ := h dest huse
        rw [unloadable?, hdest, Option.bind_some, missing?, hregister]
  rw [unlowerable?, hloadable, ite_self, Option.or_none]

/-- With a legal assignment a function only fails for its length. -/
theorem failure?_of_legal (hlegal : placed.assignment.Legal placed.function) :
    placed.failure? = placed.function.excess? := by
  have hcode : placed.function.code.findSome? placed.unlowerable? =
      placed.function.code.findSome? placed.function.overlongCall? := by
    rw [← List.head?_filterMap, ← List.head?_filterMap]
    refine congrArg List.head? (List.filterMap_congr fun inst hinst => ?_)
    exact unlowerable?_of_assigned fun dest huse =>
      hlegal.assigned (Function.mem_used.mpr ⟨inst, hinst, huse⟩)
  rw [failure?, hcode, Function.excess?]

end Placed

/-! ## Failures of programs -/

/-- Why a function cannot be compiled. -/
def Function.failure? (allocator : Allocator) (function : Function) : Option CompileError :=
  match allocator function with
  | .error error => some (.outOfRegisters error)
  | .ok assignment => Placed.failure? ⟨function, assignment⟩

/-- Why a function is refused by an allocator or for its length. -/
def Function.refusal? (allocator : Allocator) (function : Function) : Option CompileError :=
  match allocator function with
  | .error error => some (.outOfRegisters error)
  | .ok _ => function.excess?

theorem Function.failure?_eq_refusal? {allocator : Allocator} {function : Function}
    (hlegal : ∀ assignment, allocator function = .ok assignment → assignment.Legal function) :
    function.failure? allocator = function.refusal? allocator := by
  unfold failure? refusal?
  cases hassign : allocator function with
  | error => rfl
  | ok assignment => exact Placed.failure?_of_legal (hlegal assignment hassign)

theorem Function.excess?_eq_none_iff {function : Function} :
    function.excess? = none ↔ function.params.length ≤ maxArguments ∧
      ∀ callee args dst, .call callee args dst ∈ function.code → args.length ≤ maxArguments := by
  rw [excess?, Option.or_eq_none_iff, List.findSome?_eq_none_iff]
  refine and_congr (by simp [overlongParameters?]) ⟨fun h callee args dst hcall => ?_, fun h => ?_⟩
  · simpa [overlongCall?] using h _ hcall
  · intro inst hinst
    cases inst with
    | call callee args dst => simpa [overlongCall?] using h callee args dst hinst
    | _ => rfl

theorem Function.refusal?_eq_none_iff {allocator : Allocator} {function : Function} :
    function.refusal? allocator = none ↔
      (∃ assignment, allocator function = .ok assignment) ∧ function.excess? = none := by
  unfold refusal?
  cases allocator function <;> simp

theorem Function.refusal?_ne_unassigned (allocator : Allocator) (function : Function)
    (name : String) (dest : Dest) :
    function.refusal? allocator ≠ some (.unassignedOperand name dest) := by
  unfold refusal?
  cases allocator function with
  | error => simp
  | ok =>
      intro h
      rcases Option.or_eq_some_iff.mp h with hparams | ⟨_, hcode⟩
      · simp [overlongParameters?] at hparams
      · obtain ⟨inst, _, hcall⟩ := List.exists_of_findSome?_eq_some hcode
        cases inst <;> simp [overlongCall?] at hcall

namespace Program

theorem of?_compileFrom (allocator : Allocator) (functions : List Function)
    (pool : LiteralPool) :
    CompileError.of? (compileFrom allocator functions pool) =
      functions.findSome? (Function.failure? allocator) := by
  induction functions generalizing pool with
  | nil => rfl
  | cons function rest ih =>
      rw [findSome?_cons_eq_or, compileFrom, Function.failure?]
      cases allocator function with
      | error => rfl
      | ok assignment =>
          have hends := (Placed.mk function assignment).writes_code.ends
          dsimp only
          rw [Placed.routine_eq, ← hends]
          cases (Placed.mk function assignment).code.result with
          | error => rfl
          | ok =>
              rw [← ih (pool.number (Placed.mk function assignment).code.code).2]
              dsimp only [Except.map]
              cases compileFrom allocator rest _ <;> rfl

/-- The first function that fails decides. -/
theorem of?_compile (program : Program) (allocator : Allocator) :
    CompileError.of? (program.compile allocator) =
      program.functions.findSome? (Function.failure? allocator) := by
  rw [← of?_compileFrom allocator program.functions .empty, compile]
  cases compileFrom allocator program.functions .empty <;> rfl

/-- Linear scan, in either order of preference, gives every operand a register. So a program
is compiled if there are registers for the destinations, the parameters and the arguments
of each function, and otherwise the first function for which there are not is reported. -/
theorem compile_linearScan (seed : Option UInt64) (program : Program) :
    let allocator : Allocator := (seed.elim LinearScan.standard LinearScan.seeded).assign
    ((∃ asm, program.compile allocator = .ok asm) ↔ ∀ function ∈ program.functions,
      (∃ assignment, allocator function = .ok assignment) ∧ function.params.length ≤ 6 ∧
        ∀ callee args dst, .call callee args dst ∈ function.code → args.length ≤ 6) ∧
    (∀ error, program.compile allocator = .error error ↔
      program.functions.findSome? (Function.refusal? allocator) = some error) ∧
    (∀ name dest, program.compile allocator ≠ .error (.unassignedOperand name dest)) ∧
    ∀ function assignment, allocator function = .ok assignment →
      ∀ inst ∈ function.code, ∀ dest ∈ inst.uses,
        ∃ register, assignment.register? dest = some register := by
  intro allocator
  have hlegal {function : Function} {assignment : Assignment}
      (hassign : allocator function = .ok assignment) : assignment.Legal function :=
    LinearScan.assign_legal (LinearScan.pool_perm seed) hassign
  have hfailure : Function.failure? allocator = Function.refusal? allocator :=
    funext fun function => Function.failure?_eq_refusal? fun _ => hlegal
  have hcompile := program.of?_compile allocator
  rw [hfailure] at hcompile
  have herror (error : CompileError) : program.compile allocator = .error error ↔
      program.functions.findSome? (Function.refusal? allocator) = some error := by
    rw [← hcompile, CompileError.of?_eq_some_iff]
  refine ⟨?_, herror, fun name dest h => ?_,
    fun function assignment hassign inst hinst dest huse => ?_⟩
  · rw [← CompileError.of?_eq_none_iff, hcompile, List.findSome?_eq_none_iff]
    exact forall₂_congr fun function _ =>
      Function.refusal?_eq_none_iff.trans (and_congr_right fun _ => Function.excess?_eq_none_iff)
  · obtain ⟨function, _, hrefusal⟩ := List.exists_of_findSome?_eq_some ((herror _).mp h)
    exact function.refusal?_ne_unassigned allocator name dest hrefusal
  · exact (hlegal hassign).assigned (Function.mem_used.mpr ⟨inst, hinst, huse⟩)

end Program

end ThreeAddress
