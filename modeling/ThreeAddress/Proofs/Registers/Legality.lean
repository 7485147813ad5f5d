import ThreeAddress.Liveness.Analysis
import ThreeAddress.Registers.Assignment

/-!
# Legal assignments

What code generation relies on: whatever is read has a register, and no write
reaches the register of another destination that is still to be read.
-/

namespace ThreeAddress.Assignment

theorem mem_registers {assignment : Assignment} {dest : Dest} {register : Register}
    (h : assignment.register? dest = some register) : register ∈ assignment.registers := by
  have hentry : ∃ entry ∈ assignment.entries, entry.2 = some register := by
    unfold register? at h
    generalize assignment.entries = entries at h
    induction entries with
    | nil => cases h
    | cons entry rest ih =>
        unfold find? at h
        split at h
        next => exact ⟨entry, List.mem_cons_self, h⟩
        next =>
          obtain ⟨other, hother, heq⟩ := ih h
          exact ⟨other, List.mem_cons_of_mem _ hother, heq⟩
  obtain ⟨entry, hmem, heq⟩ := hentry
  refine List.mem_filter.mpr ⟨by cases register <;> decide, ?_⟩
  exact List.any_eq_true.mpr ⟨entry, hmem, by rw [heq, beq_self_eq_true]⟩

/-- An assignment that code may be generated for. -/
structure Legal (function : Function) (assignment : Assignment) : Prop where
  allocatable : ∀ {dest register}, assignment.register? dest = some register →
    register ∈ Register.allocatable
  /-- What some instruction reads has a register. -/
  assigned : ∀ {dest}, dest ∈ function.used →
    ∃ register, assignment.register? dest = some register
  /-- Parameters that are live on entry have registers of their own. -/
  parameters : ∀ {left right}, left ∈ function.params → right ∈ function.params → left ≠ right →
    Dest.var left ∈ function.liveness.liveBefore 0 →
    Dest.var right ∈ function.liveness.liveBefore 0 →
    assignment.register? (.var left) ≠ assignment.register? (.var right)
  /-- A write does not reach the register of another destination that is live after it. -/
  written : ∀ {index inst dest other register}, function.code[index]? = some inst →
    inst.def? = some dest → assignment.register? dest = some register →
    other ∈ function.liveness.liveAfter index → other ≠ dest →
    assignment.register? other ≠ some register
  acrossCall : ∀ {index inst dest register}, function.code[index]? = some inst →
    inst.isCall = true → dest ∈ function.liveAcross function.liveness index →
    assignment.register? dest = some register → register ∈ Register.calleeSaved
  acrossDivision : ∀ {index inst dest register}, function.code[index]? = some inst →
    inst.isDivision = true → dest ∈ function.liveAcross function.liveness index →
    assignment.register? dest = some register → register ≠ .rax ∧ register ≠ .rdx

end ThreeAddress.Assignment
