import Mathlib.Data.List.Infix
import ThreeAddress.Proofs.Eval.Limits

/-!
# Limits cut runs short

Runs of one program under two limits go step by step together until one of them
stops at a limit. Where one limit allows all that the other does, only the tighter
one can stop a run first; what the run printed up to there begins what the other
run prints.
-/

namespace ThreeAddress

/-- Whether a run stopped because it used more than it may. -/
def Fault.isExcess : Fault → Bool
  | .limitExceeded _ => true
  | _ => false

def RunError.isExcess : RunError → Bool
  | .missingMain => false
  | .fault _ _ _ cause => cause.isExcess

/-- The limits allow all that tighter ones do. Without a bound on instructions any number of them is
allowed. -/
structure Limits.Relaxes (loose tight : Limits) : Prop where
  depth : tight.maxDepth ≤ loose.maxDepth
  steps : ∀ bound, loose.maxSteps = some bound →
    ∃ limit, tight.maxSteps = some limit ∧ limit ≤ bound
  heapSlots : tight.maxHeapSlots ≤ loose.maxHeapSlots

/-- A result is the other one, unless it stopped at a limit. -/
def CutShort {α : Type} (cut whole : Except Fault α) : Prop :=
  cut = whole ∨ ∃ excess, cut = .error (.limitExceeded excess)

namespace CutShort

variable {α β : Type}

theorem refl (result : Except Fault α) : CutShort result result := .inl rfl

theorem bind {cut whole : Except Fault α} {next next' : α → Except Fault β}
    (h : CutShort cut whole) (hnext : ∀ value, CutShort (next value) (next' value)) :
    CutShort (cut >>= next) (whole >>= next') := by
  rcases h with rfl | ⟨excess, rfl⟩
  · cases cut with
    | error cause => exact .refl _
    | ok value => exact hnext value
  · exact .inr ⟨excess, rfl⟩

end CutShort

/-! ## Checks and instructions -/

namespace Limits.Relaxes

variable {loose tight : Limits}

theorem checkDepth (h : loose.Relaxes tight) (depth : Nat) :
    CutShort (tight.checkDepth depth) (loose.checkDepth depth) := by
  rcases tight.checkDepth_cases depth with ⟨hok, hle⟩ | ⟨_, herror⟩
  · have hloose : loose.checkDepth depth = .ok () := by
      rw [Limits.checkDepth, if_neg (Nat.not_lt.mpr (Nat.le_trans hle h.depth))]
    exact .inl (hok.trans hloose.symm)
  · exact .inr ⟨_, herror⟩

theorem checkHeap (h : loose.Relaxes tight) (slots : Nat) :
    CutShort (tight.checkHeap slots) (loose.checkHeap slots) := by
  unfold Limits.checkHeap
  by_cases hlt : tight.maxHeapSlots < slots
  · rw [if_pos hlt]
    exact .inr ⟨_, rfl⟩
  · rw [if_neg hlt, if_neg (Nat.not_lt.mpr (Nat.le_trans (Nat.not_lt.mp hlt) h.heapSlots))]
    exact .refl _

theorem checkSteps (h : loose.Relaxes tight) (steps : UInt64) :
    CutShort (tight.checkSteps steps) (loose.checkSteps steps) := by
  rcases tight.checkSteps_cases steps with ⟨hok, hle⟩ | ⟨_, _, _, herror⟩
  · rcases loose.checkSteps_cases steps with ⟨hloose, _⟩ | ⟨bound, hbound, hlt, _⟩
    · exact .inl (hok.trans hloose.symm)
    · obtain ⟨limit, hlimit, hwithin⟩ := h.steps bound hbound
      exact absurd (UInt64.lt_of_lt_of_le hlt (UInt64.le_trans (hle limit hlimit) hwithin))
        (UInt64.lt_irrefl _)
  · exact .inr ⟨_, herror⟩

theorem reserve (h : loose.Relaxes tight) (heap : Heap) (size : Int32) :
    CutShort (heap.reserve tight size) (heap.reserve loose size) := by
  unfold Heap.reserve
  split
  next => exact .refl _
  next =>
    rcases h.checkHeap (heap.size + size.toInt.toNat) with heq | ⟨excess, hexcess⟩
    · rw [heq]
      exact .refl _
    · rw [hexcess]
      exact .inr ⟨excess, rfl⟩

theorem builtin (h : loose.Relaxes tight) (found : Builtin) (heap : Heap) (args : List Value)
    (dst : Option Dest) :
    CutShort (found.effect tight heap args dst) (found.effect loose heap args dst) := by
  unfold Builtin.effect
  split <;> first | exact .refl _ | exact (h.reserve heap _).bind fun _ => .refl _

/-- Instructions look at the limits when they allocate and when they call. -/
theorem effect (h : loose.Relaxes tight) (program : Program) (depth : Nat) (frame : Frame)
    (heap : Heap) (inst : Inst) :
    CutShort (inst.effect program tight depth frame heap)
      (inst.effect program loose depth frame heap) := by
  cases inst with
  | call name args dst =>
      refine (CutShort.refl (frame.evalAll args)).bind fun values => ?_
      cases Builtin.ofName? name with
      | some found => exact h.builtin found heap values dst
      | none =>
          cases program.callee? name with
          | none => exact .refl _
          | some callee =>
              refine (CutShort.refl (checkArity name _ _)).bind fun _ => ?_
              exact (h.checkDepth (depth + 1)).bind fun _ => .refl _
  | ret value => cases value <;> exact .refl _
  | _ => exact .refl _

end Limits.Relaxes

/-! ## Steps and runs -/

/-- The lines that were printed up to a step. -/
def Step.lines : Step → List String
  | running state | returned _ state | failed _ state => state.output.toList

theorem Step.output_of_execution? {step : Step} {execution : Execution}
    (h : step.execution? = some execution) : execution.output = step.lines := by
  cases step with
  | running => cases h
  | returned | failed =>
      obtain rfl := Option.some.inj h
      rfl

/-- The lines that a program printed in up to `fuel` steps. -/
def Program.lines (program : Program) (limits : Limits) (fuel : Nat) : List String :=
  match program.main? with
  | none => []
  | some main => ((State.initial main).advance program limits fuel).lines

namespace State

variable {program : Program} {limits loose tight : Limits} {state : State}

theorem lines_leave (state : State) (value : Value) :
    (state.leave value).lines = state.output.toList := by
  rw [leave_eq]
  cases state.waiting <;> rfl

/-- A step prints after what has been printed. -/
theorem prefix_lines_step (program : Program) (limits : Limits) (state : State) :
    state.output.toList <+: (state.step program limits).lines := by
  cases hnext : state.top.next? with
  | none => rw [step_of_end hnext, lines_leave]
  | some inst =>
      rcases step_of_next program limits hnext with ⟨_, hfailed⟩ | ⟨effect, _, happly⟩
      · rw [hfailed]
        exact List.prefix_refl _
      · rw [happly]
        cases effect with
        | print line => exact ⟨[line], Array.toList_push.symm⟩
        | leave value => rw [apply, lines_leave]
        | _ => exact List.prefix_refl _

theorem prefix_lines_advance (program : Program) (limits : Limits) (fuel : Nat) (state : State) :
    state.output.toList <+: (state.advance program limits fuel).lines := by
  induction fuel generalizing state with
  | zero => exact List.prefix_refl _
  | succ fuel ih =>
      have hstep := prefix_lines_step program limits state
      rw [advance]
      split
      next next hnext =>
        rw [hnext] at hstep
        exact hstep.trans (ih next)
      next => exact hstep

/-- A step under tighter limits is the same step, or stops at a limit. -/
theorem step_relaxes (h : loose.Relaxes tight) (program : Program) (state : State) :
    state.step program tight = state.step program loose ∨
      ∃ error, state.step program tight = .failed error state ∧ error.isExcess = true := by
  unfold step
  cases state.top.next? with
  | none => exact .inl rfl
  | some inst =>
      have heffect := (h.checkSteps (state.steps + 1)).bind fun _ =>
        h.effect program state.depth state.top state.heap inst
      rcases heffect with heq | ⟨excess, hexcess⟩
      · exact .inl (by simp only [heq])
      · refine .inr ⟨.fault state.top.function.name state.top.index inst (.limitExceeded excess),
          ?_, rfl⟩
        simp only [hexcess]

/-- A run under tighter limits is the same run, or stops at a limit where the other goes on. -/
theorem advance_relaxes (h : loose.Relaxes tight) (program : Program) (fuel : Nat)
    (state : State) :
    state.advance program tight fuel = state.advance program loose fuel ∨
      ∃ error last count, state.advance program tight fuel = .failed error last ∧
        error.isExcess = true ∧ count ≤ fuel ∧
        state.advance program loose count = .running last := by
  induction fuel generalizing state with
  | zero => exact .inl rfl
  | succ fuel ih =>
      rw [advance, advance]
      rcases step_relaxes h program state with heq | ⟨error, hfailed, hexcess⟩
      · rw [heq]
        cases hstep : state.step program loose with
        | running next =>
            refine (ih next).imp_right ?_
            rintro ⟨error, last, count, hlast, hexcess, hcount, hrun⟩
            refine ⟨error, last, count + 1, hlast, hexcess, Nat.succ_le_succ hcount, ?_⟩
            rw [advance, hstep]
            exact hrun
        | returned | failed => exact .inl rfl
      · rw [hfailed]
        exact .inr ⟨error, state, 0, rfl, hexcess, Nat.zero_le _, rfl⟩

/-- What a run printed up to its failure begins what a run under looser limits prints from there
on. -/
theorem prefix_lines_of_failed {fuel : Nat} {error : RunError} {last : State}
    (h : loose.Relaxes tight) (hfailed : state.advance program tight fuel = .failed error last)
    (more : Nat) :
    last.output.toList <+: (state.advance program loose (fuel + more)).lines := by
  rcases advance_relaxes h program fuel state with
    heq | ⟨_, other, count, hother, _, hcount, hrun⟩
  · -- The looser run stopped there as well.
    have hstopped : state.advance program loose fuel = .failed error last := heq ▸ hfailed
    rw [advance_of_stopped (by simp [hstopped]), hstopped]
    exact List.prefix_refl _
  · obtain ⟨rfl, rfl⟩ := Step.failed.inj (hfailed.symm.trans hother)
    obtain ⟨rest, rfl⟩ := Nat.exists_eq_add_of_le hcount
    rw [Nat.add_assoc, advance_add hrun]
    exact prefix_lines_advance program loose _ last

end State

namespace Program

variable {program : Program} {limits loose tight : Limits} {fuel : Nat} {execution : Execution}

theorem run?_of_main {main : Function} (hmain : program.main? = some main) :
    program.run? limits fuel = ((State.initial main).advance program limits fuel).execution? := by
  rw [run?, hmain]

theorem lines_of_main {main : Function} (hmain : program.main? = some main) :
    program.lines limits fuel = ((State.initial main).advance program limits fuel).lines := by
  rw [lines, hmain]

/-- A run that has ended prints nothing more. -/
theorem output_eq_lines (hrun : program.run? limits fuel = some execution) (more : Nat) :
    execution.output = program.lines limits (fuel + more) := by
  cases hmain : program.main? with
  | none =>
      rw [run?, hmain] at hrun
      obtain rfl := Option.some.inj hrun
      rw [lines, hmain]
  | some main =>
      rw [run?_of_main hmain] at hrun
      have hstopped : ∀ next,
          (State.initial main).advance program limits fuel ≠ .running next := by
        intro next hnext
        simp [hnext, Step.execution?] at hrun
      rw [lines_of_main hmain, State.advance_of_stopped hstopped,
        Step.output_of_execution? hrun]

/-- A run under tighter limits is the same run, or stops at a limit, and then its lines begin those
of the other one. -/
theorem run?_relaxes (h : loose.Relaxes tight) (hrun : program.run? tight fuel = some execution) :
    program.run? loose fuel = some execution ∨
      (∃ error, execution.result = .error error ∧ error.isExcess = true) ∧
        ∀ more, execution.output <+: program.lines loose (fuel + more) := by
  cases hmain : program.main? with
  | none =>
      rw [run?, hmain] at hrun ⊢
      exact .inl hrun
  | some main =>
      rw [run?_of_main hmain] at hrun ⊢
      rcases State.advance_relaxes h program fuel (State.initial main) with
        heq | ⟨error, last, _, hfailed, hexcess, _⟩
      · rw [← heq]
        exact .inl hrun
      · rw [hfailed] at hrun
        obtain rfl := Option.some.inj hrun
        refine .inr ⟨⟨error, rfl, hexcess⟩, fun more => ?_⟩
        rw [lines_of_main hmain]
        exact State.prefix_lines_of_failed h hfailed more

/-- Limits only cut runs short. A run that ends for another reason ends in the same way, with the
same lines, under all looser limits, and the lines of a run that stops at a limit begin those of
the run under looser limits, whether that one ends or not. -/
theorem run_relaxes (h : loose.Relaxes tight) (hrun : program.run? tight fuel = some execution) :
    (∀ value, execution.result = .ok value → program.run? loose fuel = some execution) ∧
      (∀ error, execution.result = .error error → error.isExcess = false →
        program.run? loose fuel = some execution) ∧
      ∀ error, execution.result = .error error → error.isExcess = true →
        (∀ more, execution.output <+: program.lines loose (fuel + more)) ∧
        ∀ count whole, program.run? loose count = some whole →
          execution.output <+: whole.output := by
  rcases run?_relaxes h hrun with hsame | ⟨⟨excess, hexcess, hlimit⟩, hlines⟩
  · refine ⟨fun _ _ => hsame, fun _ _ _ => hsame, fun _ _ _ => ⟨fun more => ?_, ?_⟩⟩
    · rw [output_eq_lines hsame more]
    · intro count whole hwhole
      rw [output_eq_lines hwhole fuel, Nat.add_comm, ← output_eq_lines hsame]
  · refine ⟨fun value hvalue => ?_, fun error herror hother => ?_, fun _ _ _ => ⟨hlines, ?_⟩⟩
    · cases hvalue.symm.trans hexcess
    · obtain rfl := Except.error.inj (herror.symm.trans hexcess)
      cases hother.symm.trans hlimit
    · intro count whole hwhole
      rw [output_eq_lines hwhole fuel, Nat.add_comm]
      exact hlines count

/-- Prints without end. -/
def ticking : Program where
  functions := [
    { name := "main", params := [], locals := [],
      code := [
        .label "again",
        .call "printStr" [.str "tick"] none,
        .jump "again"] }]

/-- Five instructions print two lines; the run without a bound on instructions never ends. -/
theorem run_relaxes_ticking :
    Limits.standard.Relaxes ⟨1, some 5, 0⟩ ∧
      ticking.run? ⟨1, some 5, 0⟩ 6 = some ⟨["tick", "tick"], .error
        (.fault "main" 2 (.jump "again") (.limitExceeded (.steps 6 5)))⟩ ∧
      ∀ more, ["tick", "tick"] <+: ticking.lines .standard (6 + more) := by
  have hrelaxes : Limits.standard.Relaxes ⟨1, some 5, 0⟩ :=
    ⟨by decide, fun _ hbound => (nomatch hbound), by decide⟩
  have hrun : ticking.run? ⟨1, some 5, 0⟩ 6 = some ⟨["tick", "tick"], .error
      (.fault "main" 2 (.jump "again") (.limitExceeded (.steps 6 5)))⟩ := rfl
  exact ⟨hrelaxes, hrun, ((run_relaxes hrelaxes hrun).2.2 _ rfl rfl).1⟩

end Program

end ThreeAddress
