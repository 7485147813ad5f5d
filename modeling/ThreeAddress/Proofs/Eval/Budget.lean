import ThreeAddress.Proofs.Eval.Truncation

/-!
# A budget of instructions

A bound on the instructions of a run bounds the turns of its loop as well, although
an activation that comes to the end of its code takes a turn and no instruction: such
a turn ends an activation, and each activation but that of `main` was entered by an
instruction. So there are at most two turns for each instruction, and one more. The
largest number is no bound, as the count starts over where it would go beyond it.
-/

namespace ThreeAddress

namespace State

/-- Whether a turn executes an instruction, which may fail. -/
def executes (limits : Limits) (state : State) : Bool :=
  state.top.next?.isSome && (limits.checkSteps (state.steps + 1)).isOk

/-- How many instructions up to `fuel` turns execute. -/
def executed (program : Program) (limits : Limits) : Nat → State → Nat
  | 0, _ => 0
  | fuel + 1, state =>
      (state.executes limits).toNat +
        match state.step program limits with
        | .running next => executed program limits fuel next
        | .returned _ _ | .failed _ _ => 0

section Costs

variable {program : Program} {limits : Limits} {state next : State} {limit : UInt64} {bound : Nat}

theorem steps_of_leave {value : Value} (hleave : state.leave value = .running next) :
    next.steps = state.steps := by
  obtain ⟨_, _, _, rfl⟩ := exists_caller_of_leave hleave
  rfl

/-- Where an effect leads has the same count of instructions, and at most one more activation. -/
theorem costs_of_apply {effect : Effect} (happly : state.apply effect = .running next) :
    next.steps = state.steps ∧ next.depth ≤ state.depth + 1 := by
  cases effect with
  | leave value =>
      have hdepth := depth_of_leave happly
      exact ⟨steps_of_leave happly, by omega⟩
  | enter callee args dst =>
      obtain rfl := Step.running.inj happly
      refine ⟨rfl, ?_⟩
      rw [depth_eq, depth_eq, waiting_push, List.length_cons]
  | _ =>
      obtain rfl := Step.running.inj happly
      exact ⟨rfl, Nat.le_succ _⟩

/-- A turn that goes on either executes an instruction, which may enter one activation, or ends an
activation. -/
theorem costs_of_step (hstep : state.step program limits = .running next) :
    next.steps = state.steps + UInt64.ofNat (state.executes limits).toNat ∧
      next.depth + 1 ≤ state.depth + 2 * (state.executes limits).toNat := by
  cases hinst : state.top.next? with
  | none =>
      rw [step_of_end hinst] at hstep
      have hexecutes : state.executes limits = false := by simp [executes, hinst]
      have hdepth := depth_of_leave hstep
      rw [hexecutes]
      exact ⟨(steps_of_leave hstep).trans (UInt64.add_zero _).symm, hdepth⟩
  | some inst =>
      rcases limits.checkSteps_cases (state.steps + 1) with ⟨hcheck, _⟩ | ⟨_, _, _, hcheck⟩
      · obtain ⟨effect, _, happly⟩ := performs_of_step hinst hstep
        obtain ⟨hsteps, hdepth⟩ := costs_of_apply happly
        have hexecutes : state.executes limits = true := by
          simp [executes, hinst, hcheck, Except.isOk, Except.toBool]
        rw [hexecutes]
        exact ⟨hsteps, Nat.succ_le_succ hdepth⟩
      · rw [step, hinst] at hstep
        simp [hcheck, bind, Except.bind] at hstep

/-- Turns that go on are paid for: each by an instruction that it executes, or by the activation
that it ends. -/
theorem costs_of_advance {count : Nat} (hrun : state.advance program limits count = .running next) :
    next.steps = state.steps + UInt64.ofNat (state.executed program limits count) ∧
      next.depth + count ≤ state.depth + 2 * state.executed program limits count := by
  induction count generalizing state with
  | zero =>
      obtain rfl := Step.running.inj hrun
      exact ⟨(UInt64.add_zero _).symm, Nat.le_refl _⟩
  | succ count ih =>
      rw [advance] at hrun
      cases hstep : state.step program limits with
      | running middle =>
          rw [hstep] at hrun
          obtain ⟨hsteps, hdepth⟩ := costs_of_step hstep
          obtain ⟨hmore, hdeeper⟩ := ih hrun
          simp only [executed, hstep]
          refine ⟨?_, by omega⟩
          rw [hmore, hsteps, UInt64.ofNat_add, UInt64.add_assoc]
      | returned | failed =>
          rw [hstep] at hrun
          cases hrun

/-- An instruction is executed where the count of it is allowed. -/
theorem allows_of_executes (h : state.executes limits = true) :
    limits.Allows (state.steps + 1) := by
  apply Limits.allows_of_checkSteps
  rcases limits.checkSteps_cases (state.steps + 1) with ⟨hok, _⟩ | ⟨_, _, _, hcheck⟩
  · exact hok
  · simp [executes, hcheck, Except.isOk, Except.toBool] at h

/-- However many turns there are, they execute no more instructions than the bound leaves. -/
theorem executed_le (hbound : limits.stepBound? = some bound) (fuel : Nat)
    (hallows : limits.Allows state.steps) :
    state.steps.toNat + state.executed program limits fuel ≤ bound := by
  induction fuel generalizing state with
  | zero => exact hallows bound hbound
  | succ fuel ih =>
      have hcount : (state.steps + UInt64.ofNat (state.executes limits).toNat).toNat =
          state.steps.toNat + (state.executes limits).toNat ∧
          limits.Allows (state.steps + UInt64.ofNat (state.executes limits).toNat) := by
        cases h : state.executes limits with
        | false => exact ⟨congrArg UInt64.toNat (UInt64.add_zero _), by simpa using hallows⟩
        | true => exact ⟨hallows.toNat_succ hbound, allows_of_executes h⟩
      have hexecutes := hcount.2 bound hbound
      rw [executed]
      cases hstep : state.step program limits with
      | running next =>
          have hsteps := (costs_of_step hstep).1
          have hrest := ih (hsteps ▸ hcount.2)
          rw [hsteps] at hrest
          dsimp only
          omega
      | returned | failed =>
          dsimp only
          omega

theorem executed_initial_le (main : Function) (hbound : limits.stepBound? = some bound)
    (fuel : Nat) : (initial main).executed program limits fuel ≤ bound := by
  have hexecuted : (initial main).steps.toNat + (initial main).executed program limits fuel ≤
      bound := executed_le hbound fuel limits.allows_zero
  rwa [initial, UInt64.toNat_zero, Nat.zero_add] at hexecuted

/-- Between its turns a run has executed no more instructions than the bound, and its count is their
number. -/
theorem steps_of_advance {main : Function} (hbound : limits.stepBound? = some bound) {fuel : Nat}
    (hrun : (initial main).advance program limits fuel = .running state) :
    state.steps.toNat = (initial main).executed program limits fuel ∧
      state.steps.toNat ≤ bound := by
  have hle : (initial main).executed program limits fuel ≤ bound :=
    executed_initial_le main hbound _
  have hsteps : state.steps = 0 + UInt64.ofNat ((initial main).executed program limits fuel) :=
    (costs_of_advance hrun).1
  have hcount := limits.allows_zero.toNat_add hbound hle
  rw [UInt64.toNat_zero, Nat.zero_add] at hcount
  rw [hsteps, hcount]
  exact ⟨rfl, hle⟩

/-- A run does not go on for more than two turns for each instruction that it may execute. -/
theorem not_running_of_bound (main : Function) (hbound : limits.stepBound? = some bound) :
    (initial main).advance program limits (2 * bound + 1) ≠ .running next := by
  intro hrun
  obtain ⟨_, hdepth⟩ := costs_of_advance hrun
  have hexecuted : (initial main).executed program limits (2 * bound + 1) ≤ bound :=
    executed_initial_le main hbound _
  have hstart : (initial main).depth = 1 := rfl
  have hpositive : 0 < next.depth := Nat.succ_pos _
  omega

/-- Where there is no bound, every count passes its check. -/
theorem step_of_unbounded (hbound : limits.stepBound? = none) (state : State) :
    state.step program limits = state.step program { limits with maxSteps := none } := by
  have hcheck : limits.checkSteps (state.steps + 1) = .ok () := by
    cases h : limits.checkSteps (state.steps + 1) with
    | ok => rfl
    | error cause =>
        obtain ⟨_, hsome, _⟩ := Limits.exists_bound_of_checkSteps h
        cases hbound.symm.trans hsome
  cases hnext : state.top.next? with
  | none => rw [step_of_end hnext, step_of_end hnext]
  | some inst =>
      have hfree : Limits.checkSteps { limits with maxSteps := none } (state.steps + 1) = .ok () :=
        rfl
      rw [step_of_room program hnext hcheck, step_of_room program hnext hfree]
      rfl

theorem advance_of_unbounded (hbound : limits.stepBound? = none) (fuel : Nat) (state : State) :
    state.advance program limits fuel =
      state.advance program { limits with maxSteps := none } fuel := by
  induction fuel generalizing state with
  | zero => rfl
  | succ fuel ih => simp only [advance, step_of_unbounded hbound, ih]

end Costs

end State

/-- How many instructions the first `fuel` turns of a run execute. -/
def Program.executed (program : Program) (limits : Limits) (fuel : Nat) : Nat :=
  match program.main? with
  | none => 0
  | some main => (State.initial main).executed program limits fuel

namespace Program

/-- Where a run may execute `limit` instructions, and that is not the largest number, it ends within
`2 * limit + 1` turns of its loop, whatever the program, and executes no more than `limit`
instructions in any number of turns. Between two turns its count is the number of instructions that
it has executed, and not above `limit`. The largest number is no limit: with it every run is the one
that has none. -/
theorem stops_within_budget (program : Program) {limits : Limits} {limit : UInt64}
    (hlimit : limits.maxSteps = some limit) :
    (limit.toNat + 1 < UInt64.size →
      (∃ execution, ∀ fuel, 2 * limit.toNat + 1 ≤ fuel →
        program.run? limits fuel = some execution) ∧
      (∀ fuel, program.executed limits fuel ≤ limit.toNat) ∧
      ∀ main fuel state, program.main? = some main →
        (State.initial main).advance program limits fuel = .running state →
        state.steps.toNat = program.executed limits fuel ∧ state.steps ≤ limit) ∧
    (limit.toNat + 1 = UInt64.size → ∀ fuel,
      program.run? limits fuel = program.run? { limits with maxSteps := none } fuel) := by
  refine ⟨fun hlt => ⟨?_, fun fuel => ?_, fun main fuel state hmain hrun => ?_⟩,
    fun hlast fuel => ?_⟩
  · have hbound := Limits.stepBound?_eq_some_iff.mpr ⟨limit, hlimit, rfl, hlt⟩
    cases hmain : program.main? with
    | none => exact ⟨_, fun fuel _ => by rw [run?, hmain]⟩
    | some main =>
        have hstopped : ∀ next, (State.initial main).advance program limits
            (2 * limit.toNat + 1) ≠ .running next :=
          fun next => State.not_running_of_bound main hbound
        obtain ⟨execution, hexecution⟩ : ∃ execution, ((State.initial main).advance program limits
            (2 * limit.toNat + 1)).execution? = some execution := by
          cases hrun : (State.initial main).advance program limits (2 * limit.toNat + 1) with
          | running next => exact absurd hrun (hstopped next)
          | returned | failed => exact ⟨_, rfl⟩
        refine ⟨execution, fun fuel hfuel => ?_⟩
        obtain ⟨more, rfl⟩ := Nat.exists_eq_add_of_le hfuel
        rw [run?_of_main hmain, State.advance_of_stopped hstopped, hexecution]
  · have hbound := Limits.stepBound?_eq_some_iff.mpr ⟨limit, hlimit, rfl, hlt⟩
    unfold executed
    split
    next => exact Nat.zero_le _
    next main _ => exact State.executed_initial_le main hbound fuel
  · have hbound := Limits.stepBound?_eq_some_iff.mpr ⟨limit, hlimit, rfl, hlt⟩
    obtain ⟨hcount, hle⟩ := State.steps_of_advance hbound hrun
    rw [executed, hmain]
    exact ⟨hcount, UInt64.le_iff_toNat_le.mpr hle⟩
  · have hbound : limits.stepBound? = none := by
      rw [Limits.stepBound?, hlimit]
      exact if_neg (by omega)
    unfold run?
    cases program.main? with
    | none => rfl
    | some main => exact congrArg Step.execution? (State.advance_of_unbounded hbound fuel _)

/-- Calls an empty function twice, and comes to its end. -/
def idling : Program where
  functions := [
    { name := "main", params := [], locals := [],
      code := [.call "idle" [] none, .call "idle" [] none] },
    { name := "idle", params := [], locals := [], code := [] }]

/-- Two instructions may take all of the five turns. -/
theorem stops_within_budget_idling :
    (∃ execution, ∀ fuel, 5 ≤ fuel → idling.run? ⟨2, some 2, 0⟩ fuel = some execution) ∧
      (idling.run? ⟨2, some 2, 0⟩ 4).isNone = true ∧
      idling.executed ⟨2, some 2, 0⟩ 5 = 2 ∧ ∀ fuel, idling.executed ⟨2, some 2, 0⟩ fuel ≤ 2 := by
  have hlimit : (⟨2, some 2, 0⟩ : Limits).maxSteps = some 2 := rfl
  obtain ⟨hends, hexecuted, _⟩ := (stops_within_budget idling hlimit).1 (by decide)
  exact ⟨hends, rfl, rfl, hexecuted⟩

/-- Goes round without end. -/
def spinning : Program where
  functions := [
    { name := "main", params := [], locals := [],
      code := [.label "again", .jump "again"] }]

theorem exists_advance_spinning (fuel : Nat) {state : State}
    (hfunction : state.top.function = spinning.functions[0]) (hindex : state.top.index < 2) :
    ∃ next, state.advance spinning ⟨1, none, 0⟩ fuel = .running next := by
  induction fuel generalizing state with
  | zero => exact ⟨state, rfl⟩
  | succ fuel ih =>
      obtain ⟨⟨function, index, bindings, dest⟩, callers, heap, steps, output⟩ := state
      obtain rfl : function = spinning.functions[0] := hfunction
      match index, hindex with
      | 0, _ => exact ih rfl Nat.one_lt_two
      | 1, _ => exact ih rfl Nat.two_pos

/-- The largest number of instructions stops no run: that of `spinning` never ends. -/
theorem never_stops_spinning :
    ¬ ∃ fuel execution, spinning.run? ⟨1, some 18446744073709551615, 0⟩ fuel = some execution := by
  rintro ⟨fuel, execution, hrun⟩
  have hunbounded : Limits.stepBound? ⟨1, some 18446744073709551615, 0⟩ = none := rfl
  obtain ⟨next, hnext⟩ : ∃ next, (State.initial spinning.functions[0]).advance spinning
      ⟨1, none, 0⟩ fuel = .running next := exists_advance_spinning fuel rfl Nat.two_pos
  have hsame : (State.initial spinning.functions[0]).advance spinning
      ⟨1, some 18446744073709551615, 0⟩ fuel = .running next :=
    (State.advance_of_unbounded hunbounded fuel _).trans hnext
  have hmain : spinning.main? = some spinning.functions[0] := rfl
  rw [run?_of_main hmain, hsame] at hrun
  cases hrun

end Program

end ThreeAddress
