import ThreeAddress.Proofs.Eval.Effect

/-!
# Steps and runs

A step ends the running activation, fails, or applies an effect of the next
instruction. What holds at the start and is kept by every step holds in every
state that a run reaches.
-/

namespace ThreeAddress

namespace Frame

theorem function_assign? (frame : Frame) (dst : Option Dest) (value : Value) :
    (frame.assign? dst value).function = frame.function := by
  cases dst <;> rfl

theorem advance_assign? (frame : Frame) (dst : Option Dest) (value : Value) :
    (frame.assign? dst value).advance = frame.advance.assign? dst value := by
  cases dst <;> rfl

theorem resultDest_assign? (frame : Frame) (dst : Option Dest) (value : Value) :
    (frame.assign? dst value).resultDest = frame.resultDest := by
  cases dst <;> rfl

end Frame

/-- Whether a state passes a check, if there is one. -/
def Step.passes (check : State → Bool) : Step → Bool
  | .running state => check state
  | .returned _ _ | .failed _ _ => true

namespace State

variable {program : Program} {limits : Limits} {state next : State}

/-- The activations that wait, the most recent one first. -/
def waiting (state : State) : List Frame := state.callers.toList.reverse

theorem callers_eq (state : State) : state.callers = state.waiting.reverse.toArray := by
  simp [waiting]

theorem back?_callers (state : State) : state.callers.back? = state.waiting.head? := by
  simp [waiting, Array.back?, List.getLast?_eq_getElem?]

theorem toList_pop_callers (state : State) :
    state.callers.pop.toList.reverse = state.waiting.tail := by
  simp [waiting]

theorem depth_eq (state : State) : state.depth = state.waiting.length + 1 := by
  simp [depth, waiting]

/-- What an activation leads to when it ends. -/
theorem leave_eq (state : State) (value : Value) :
    state.leave value =
      match state.waiting with
      | [] => .returned value state
      | caller :: rest =>
          .running { state with
            top := caller.assign? state.top.resultDest value
            callers := rest.reverse.toArray } := by
  have hpop := state.toList_pop_callers
  rw [leave, back?_callers]
  cases hwaiting : state.waiting with
  | nil => rfl
  | cons caller rest =>
      have hcallers : state.callers.pop = rest.reverse.toArray := by
        rw [callers_eq, hwaiting]
        simp
      simp only [List.head?_cons, hcallers]

/-- A run goes on after the end of an activation where another one waits for it. -/
theorem exists_caller_of_leave {value : Value} (hleave : state.leave value = .running next) :
    ∃ caller rest, state.waiting = caller :: rest ∧
      next = { state with
        top := caller.assign? state.top.resultDest value
        callers := rest.reverse.toArray } := by
  rw [leave_eq] at hleave
  cases hwaiting : state.waiting with
  | nil => simp [hwaiting] at hleave
  | cons caller rest =>
      simp only [hwaiting, Step.running.injEq] at hleave
      exact ⟨caller, rest, rfl, hleave.symm⟩

@[simp] theorem waiting_mk (top : Frame) (waiting : List Frame) (heap : Heap) (steps : UInt64)
    (output : Array String) :
    State.waiting ⟨top, waiting.reverse.toArray, heap, steps, output⟩ = waiting := by
  simp [State.waiting]

@[simp] theorem waiting_push (state : State) (top frame : Frame) (heap : Heap) (steps : UInt64)
    (output : Array String) :
    State.waiting ⟨top, state.callers.push frame, heap, steps, output⟩ =
      frame :: state.waiting := by
  simp [State.waiting]

theorem step_of_end (hnext : state.top.next? = none) :
    state.step program limits = state.leave .undefined := by
  rw [step, hnext]

theorem step_eq_apply {inst : Inst} {effect : Effect} (hnext : state.top.next? = some inst)
    (hsteps : limits.checkSteps (state.steps + 1) = .ok ())
    (heffect : inst.effect program limits state.depth state.top state.heap = .ok effect) :
    state.step program limits = { state with steps := state.steps + 1 }.apply effect := by
  rw [step, hnext]
  simp [hsteps, heffect, bind, Except.bind]

theorem step_of_error {inst : Inst} {cause : Fault} (hnext : state.top.next? = some inst)
    (hcause : (limits.checkSteps (state.steps + 1) >>= fun _ =>
      inst.effect program limits state.depth state.top state.heap) = .error cause) :
    state.step program limits =
      .failed (.fault state.top.function.name state.top.index inst cause) state := by
  rw [step, hnext]
  dsimp only
  rw [hcause]

/-- An instruction fails where it is, or has its effect. -/
theorem step_of_next (program : Program) (limits : Limits) {inst : Inst}
    (hnext : state.top.next? = some inst) :
    (∃ cause, state.step program limits =
        .failed (.fault state.top.function.name state.top.index inst cause) state) ∨
      ∃ effect, inst.effect program limits state.depth state.top state.heap = .ok effect ∧
        state.step program limits = { state with steps := state.steps + 1 }.apply effect := by
  cases hresult : limits.checkSteps (state.steps + 1) >>= fun _ =>
      inst.effect program limits state.depth state.top state.heap with
  | error cause => exact .inl ⟨cause, step_of_error hnext hresult⟩
  | ok effect =>
      obtain ⟨_, hsteps, heffect⟩ := Except.bind_eq_ok.mp hresult
      exact .inr ⟨effect, heffect, step_eq_apply hnext hsteps heffect⟩

/-- A run fails at an instruction, which changes nothing. -/
theorem step_eq_failed {last : State} {error : RunError}
    (h : state.step program limits = .failed error last) :
    last = state ∧ ∃ inst cause, state.top.next? = some inst ∧
      error = .fault state.top.function.name state.top.index inst cause ∧
      (limits.checkSteps (state.steps + 1) >>= fun _ =>
        inst.effect program limits state.depth state.top state.heap) = .error cause := by
  unfold step at h
  split at h
  next =>
    rw [leave_eq] at h
    split at h <;> cases h
  next inst hnext =>
    dsimp only at h
    split at h
    next cause hcause =>
      obtain ⟨rfl, rfl⟩ := Step.failed.inj h
      exact ⟨rfl, inst, cause, hnext, rfl, hcause⟩
    next effect _ =>
      cases effect with
      | leave value =>
          rw [apply, leave_eq] at h
          split at h <;> cases h
      | _ => cases h

/-- A step to another state applies an effect of the next instruction. -/
theorem performs_of_step {inst : Inst} (hnext : state.top.next? = some inst)
    (hstep : state.step program limits = .running next) :
    ∃ effect, Performs program limits state.depth state.top state.heap inst effect ∧
      { state with steps := state.steps + 1 }.apply effect = .running next := by
  rcases step_of_next program limits hnext with ⟨_, hfailed⟩ | ⟨effect, heffect, happly⟩
  · cases hfailed.symm.trans hstep
  · exact ⟨effect, Inst.performs_of_effect heffect, happly.symm.trans hstep⟩

/-! ## Reachable states -/

/-- A state that the run of a program comes to. -/
def Reachable (program : Program) (limits : Limits) (state : State) : Prop :=
  ∃ main fuel, program.main? = some main ∧
    (initial main).advance program limits fuel = .running state

theorem advance_invariant {invariant : State → Prop}
    (hstep : ∀ {state next}, invariant state → state.step program limits = .running next →
      invariant next)
    {fuel : Nat} (h : invariant state) (hrun : state.advance program limits fuel = .running next) :
    invariant next := by
  induction fuel generalizing state with
  | zero =>
      obtain rfl := Step.running.inj hrun
      exact h
  | succ fuel ih =>
      rw [advance] at hrun
      split at hrun
      next middle hmiddle => exact ih (hstep h hmiddle) hrun
      next stopped hstopped => exact absurd hrun (hstopped next)

theorem advance_add {fuel : Nat} (h : state.advance program limits fuel = .running next)
    (more : Nat) :
    state.advance program limits (fuel + more) = next.advance program limits more := by
  induction fuel generalizing state with
  | zero =>
      obtain rfl := Step.running.inj h
      rw [Nat.zero_add]
  | succ fuel ih =>
      rw [Nat.add_right_comm, advance]
      rw [advance] at h
      split at h
      next middle hmiddle => exact ih h
      next stopped hstopped => exact absurd h (hstopped next)

theorem advance_of_stopped {fuel : Nat}
    (h : ∀ next, state.advance program limits fuel ≠ .running next) (more : Nat) :
    state.advance program limits (fuel + more) = state.advance program limits fuel := by
  induction fuel generalizing state with
  | zero => exact absurd rfl (h state)
  | succ fuel ih =>
      rw [Nat.add_right_comm, advance, advance]
      rw [advance] at h
      split at h
      next middle hmiddle => exact ih h
      next => rfl

theorem advance_one (state : State) (program : Program) (limits : Limits) :
    state.advance program limits 1 = state.step program limits := by
  rw [advance]
  cases state.step program limits <;> rfl

theorem advance_succ (program : Program) (limits : Limits) (state : State) (count : Nat) :
    state.advance program limits (count + 1) =
      match state.advance program limits count with
      | .running next => next.step program limits
      | stopped => stopped := by
  cases hrun : state.advance program limits count with
  | running next => exact (advance_add hrun 1).trans (advance_one next program limits)
  | returned | failed =>
      have hstopped (next : State) : state.advance program limits count ≠ .running next :=
        fun hnext => Step.noConfusion (hrun.symm.trans hnext)
      exact (advance_of_stopped hstopped 1).trans hrun

theorem Reachable.of_main {main : Function} (hmain : program.main? = some main) :
    Reachable program limits (initial main) :=
  ⟨main, 0, hmain, rfl⟩

theorem Reachable.of_step (h : Reachable program limits state)
    (hstep : state.step program limits = .running next) : Reachable program limits next := by
  obtain ⟨main, fuel, hmain, hrun⟩ := h
  refine ⟨main, fuel + 1, hmain, ?_⟩
  rw [advance_add hrun, advance, hstep]
  rfl

/-- A run that ends comes to no other states than those before its end. -/
theorem Reachable.of_passes {check : State → Bool} {main : Function} {fuel : Nat}
    (h : Reachable program limits state) (hmain : program.main? = some main)
    (hends : (((State.initial main).advance program limits fuel).execution?).isSome = true)
    (hall : ∀ count < fuel,
      ((State.initial main).advance program limits count).passes check = true) :
    check state = true := by
  obtain ⟨found, count, hfound, hrun⟩ := h
  obtain rfl := Option.some.inj (hmain.symm.trans hfound)
  have hstopped : ∀ next, (State.initial main).advance program limits fuel ≠ .running next := by
    intro next hnext
    simp [hnext, Step.execution?] at hends
  by_cases hcount : count < fuel
  · have hcheck := hall count hcount
    rwa [hrun] at hcheck
  · obtain ⟨more, rfl⟩ := Nat.exists_eq_add_of_le (Nat.not_lt.mp hcount)
    rw [advance_of_stopped hstopped] at hrun
    exact absurd hrun (hstopped state)

/-- What holds at the start and is kept by every step holds in every reachable state. -/
theorem Reachable.invariant {invariant : State → Prop}
    (hinitial : ∀ {main}, program.main? = some main → invariant (initial main))
    (hstep : ∀ {state next}, invariant state → state.step program limits = .running next →
      invariant next)
    (h : Reachable program limits state) : invariant state := by
  obtain ⟨main, fuel, hmain, hrun⟩ := h
  exact advance_invariant hstep (hinitial hmain) hrun

/-- All activations are of functions of the program. -/
structure Within (program : Program) (state : State) : Prop where
  top : state.top.function ∈ program.functions
  waiting : ∀ frame ∈ state.waiting, frame.function ∈ program.functions

theorem mem_of_callee? {name : String} {callee : Function}
    (h : program.callee? name = some callee) : callee ∈ program.functions :=
  List.mem_reverse.mp (List.mem_of_find?_eq_some h)

theorem Within.leave (h : Within program state) {value : Value}
    (hleave : state.leave value = .running next) : Within program next := by
  obtain ⟨caller, rest, hwaiting, rfl⟩ := exists_caller_of_leave hleave
  have hframes := h.waiting
  rw [hwaiting] at hframes
  refine ⟨?_, fun frame hmem => hframes frame (List.mem_cons_of_mem _ ?_)⟩
  · simpa [Frame.function_assign?] using hframes caller List.mem_cons_self
  · simpa using hmem

theorem Within.apply (h : Within program state) {effect : Effect}
    (hcallee : ∀ callee args dst, effect = .enter callee args dst → callee ∈ program.functions)
    (happly : state.apply effect = .running next) : Within program next := by
  cases effect with
  | leave value => exact h.leave happly
  | enter callee args dst =>
      obtain rfl := Step.running.inj happly
      refine ⟨hcallee callee args dst rfl, fun frame hmem => ?_⟩
      have hframe : frame = state.top.advance ∨ frame ∈ state.waiting := by
        simpa using hmem
      rcases hframe with rfl | hmem
      · exact h.top
      · exact h.waiting frame hmem
  | allocate count dst =>
      obtain rfl := Step.running.inj happly
      refine ⟨?_, h.waiting⟩
      change (state.top.assign? dst _).function ∈ program.functions
      rw [Frame.function_assign?]
      exact h.top
  | _ =>
      obtain rfl := Step.running.inj happly
      exact ⟨h.top, h.waiting⟩

theorem Within.step (h : Within program state) (hstep : state.step program limits = .running next) :
    Within program next := by
  cases hnext : state.top.next? with
  | none =>
      rw [step_of_end hnext] at hstep
      exact h.leave hstep
  | some inst =>
      obtain ⟨effect, hperforms, happly⟩ := performs_of_step hnext hstep
      have hcounted : Within program { state with steps := state.steps + 1 } :=
        ⟨h.top, h.waiting⟩
      refine hcounted.apply (fun callee args dst henter => ?_) happly
      subst henter
      cases hperforms with
      | enter _ _ hcallee => exact mem_of_callee? hcallee

theorem Within.initial {main : Function} (hmain : program.main? = some main) :
    Within program (initial main) :=
  ⟨List.mem_of_find?_eq_some hmain, by simp [State.waiting, State.initial]⟩

theorem Reachable.within (h : Reachable program limits state) : Within program state :=
  h.invariant Within.initial Within.step

/-! ## Depth -/

theorem depth_of_leave {value : Value} (hleave : state.leave value = .running next) :
    next.depth < state.depth := by
  obtain ⟨caller, rest, hwaiting, rfl⟩ := exists_caller_of_leave hleave
  rw [depth_eq, depth_eq, waiting_mk, hwaiting, List.length_cons]
  omega

/-- A step makes the stack of activations no deeper than the limit allows. -/
theorem depth_of_step (hstep : state.step program limits = .running next) :
    next.depth ≤ max state.depth limits.maxDepth := by
  cases hinst : state.top.next? with
  | none =>
      rw [step_of_end hinst] at hstep
      exact Nat.le_trans (Nat.le_of_lt (depth_of_leave hstep)) (Nat.le_max_left _ _)
  | some inst =>
      obtain ⟨effect, hperforms, happly⟩ := performs_of_step hinst hstep
      cases hperforms with
      | leave | leaveWith =>
          exact Nat.le_trans (Nat.le_of_lt (depth_of_leave happly)) (Nat.le_max_left _ _)
      | enter _ _ _ _ hdepth =>
          obtain rfl := Step.running.inj happly
          refine Nat.le_trans ?_ (Nat.le_trans hdepth (Nat.le_max_right _ _))
          rw [depth_eq, depth_eq, waiting_push, List.length_cons]
          exact Nat.le_refl _
      | _ =>
          obtain rfl := Step.running.inj happly
          exact Nat.le_max_left _ _

theorem Reachable.depth_le (h : Reachable program limits state) :
    state.depth ≤ max 1 limits.maxDepth := by
  have hkept : ∀ {state next : State}, state.depth ≤ max 1 limits.maxDepth →
      state.step program limits = .running next → next.depth ≤ max 1 limits.maxDepth :=
    fun hstate hstep =>
      Nat.le_trans (depth_of_step hstep) (Nat.max_le.mpr ⟨hstate, Nat.le_max_right _ _⟩)
  exact h.invariant (fun _ => Nat.le_max_left _ _) hkept

end State

/-- The run of a program that returns a value. -/
theorem Program.run?_eq_ok {program : Program} {limits : Limits} {fuel : Nat}
    {lines : List String} {value : Value}
    (h : program.run? limits fuel = some ⟨lines, .ok value⟩) :
    ∃ main last, program.main? = some main ∧
      (State.initial main).advance program limits fuel = .returned value last ∧
      last.output.toList = lines := by
  unfold Program.run? at h
  split at h
  next => cases h
  next main hmain =>
    cases hrun : (State.initial main).advance program limits fuel with
    | running => simp [hrun, Step.execution?] at h
    | failed => simp [hrun, Step.execution?] at h
    | returned result last =>
        simp only [hrun, Step.execution?, Option.some.injEq, Execution.mk.injEq,
          Except.ok.injEq] at h
        obtain ⟨hlines, rfl⟩ := h
        exact ⟨main, last, hmain, hrun, hlines⟩

end ThreeAddress
