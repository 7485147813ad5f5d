import ThreeAddress.Proofs.Eval.Evaluation

/-!
# Calls by recursion

A run with an explicit stack of frames does what an evaluation by recursion does:
whatever waits below, a call comes back with the value, the heap and the lines of
the callee's evaluation, or the run ends with its fault. What the evaluation uses
says exactly when a run stops at a limit instead.
-/

namespace ThreeAddress

/-- The execution that a step ended, and the heap it left. -/
def Step.ending? : Step → Option (Execution × Heap)
  | running _ => none
  | returned value state => some (⟨state.output.toList, .ok value⟩, state.heap)
  | failed error state => some (⟨state.output.toList, .error error⟩, state.heap)

theorem Step.execution?_of_ending? {step : Step} {execution : Execution} {heap : Heap}
    (h : step.ending? = some (execution, heap)) : step.execution? = some execution := by
  cases step with
  | running => cases h
  | returned | failed => exact congrArg (Option.map Prod.fst) h

theorem Step.exists_ending? {step : Step} {execution : Execution}
    (h : step.execution? = some execution) : ∃ heap, step.ending? = some (execution, heap) := by
  cases step with
  | running => cases h
  | returned | failed =>
      obtain rfl := Option.some.inj h
      exact ⟨_, rfl⟩

/-! ## Runs with a stack -/

namespace State

/-- The run of a state comes to the end of its topmost activation: it goes on below with the value,
or ends with the fault, of the outcome. -/
def Reaches (program : Program) (limits : Limits) (state : State) (outcome : Outcome) : Prop :=
  match outcome.result with
  | .ok value => ∃ count top, top.resultDest = state.top.resultDest ∧
      state.advance program limits count =
        State.leave ⟨top, state.callers, outcome.heap, state.steps + UInt64.ofNat outcome.steps,
          state.output ++ outcome.lines.toArray⟩ value
  | .error error => ∃ count last, state.advance program limits count = .failed error last ∧
      last.heap = outcome.heap ∧ last.output = state.output ++ outcome.lines.toArray

/-- The run of a state stops at a limit for calls or instructions. -/
def Overruns (program : Program) (limits : Limits) (state : State) : Prop :=
  ∃ count error last, state.advance program limits count = .failed error last ∧
    error.isRunLimit = true

/-- The run of a state that may have come so far comes to the outcome of its topmost activation,
unless that needs more than the limits leave. -/
structure Answers (program : Program) (limits : Limits) (state : State) (outcome : Outcome) :
    Prop where
  reaches : limits.Allows state.steps → outcome.Fits limits state.steps state.depth →
    state.Reaches program limits outcome
  overruns : limits.Allows state.steps → ¬ outcome.Fits limits state.steps state.depth →
    state.Overruns program limits

variable {program : Program} {limits : Limits} {state next : State} {inst : Inst}
  {outcome called rest : Outcome}

theorem Overruns.of_step {error : RunError} {last : State}
    (hstep : state.step program limits = .failed error last) (herror : error.isRunLimit = true) :
    state.Overruns program limits :=
  ⟨1, error, last, by rw [advance_one, hstep], herror⟩

theorem Overruns.of_advance {count : Nat} (h : next.Overruns program limits)
    (hrun : state.advance program limits count = .running next) :
    state.Overruns program limits := by
  obtain ⟨more, error, last, hlast, herror⟩ := h
  exact ⟨count + more, error, last, (advance_add hrun more).trans hlast, herror⟩

/-- What is ahead of a later state with the same activations waiting is ahead of the earlier one,
after the lines that were printed in between. -/
theorem Reaches.of_advance {count steps nesting : Nat} {lines : List String}
    (hrest : next.Reaches program limits rest)
    (hrun : state.advance program limits count = .running next)
    (hdest : next.top.resultDest = state.top.resultDest) (hcallers : next.callers = state.callers)
    (hsteps : next.steps + UInt64.ofNat rest.steps = state.steps + UInt64.ofNat steps)
    (houtput : next.output = state.output ++ lines.toArray) :
    state.Reaches program limits ⟨rest.result, rest.heap, lines ++ rest.lines, steps, nesting⟩ := by
  have hlines : next.output ++ rest.lines.toArray =
      state.output ++ (lines ++ rest.lines).toArray := by
    rw [houtput]
    simp
  unfold Reaches at hrest ⊢
  dsimp only
  cases hresult : rest.result with
  | ok value =>
      rw [hresult] at hrest
      obtain ⟨more, top, htop, hmore⟩ := hrest
      refine ⟨count + more, top, htop.trans hdest, (advance_add hrun more).trans ?_⟩
      rw [hmore, hcallers, hsteps, hlines]
  | error error =>
      rw [hresult] at hrest
      obtain ⟨more, last, hmore, hheap, hlast⟩ := hrest
      exact ⟨count + more, last, (advance_add hrun more).trans hmore, hheap, hlast.trans hlines⟩

theorem resultDest_within (effect : Effect) (frame : Frame) (heap : Heap) :
    (effect.within frame heap).1.resultDest = frame.resultDest := by
  cases effect with
  | allocate count dst => exact Frame.resultDest_assign? frame dst _
  | _ => rfl

/-- The state after an effect that stays in its activation. -/
def stayed (state : State) (effect : Effect) : State where
  top := (effect.within state.top state.heap).1
  callers := state.callers
  heap := (effect.within state.top state.heap).2.1
  steps := state.steps + 1
  output := state.output ++ (effect.within state.top state.heap).2.2.toArray

theorem step_of_stays {effect : Effect} (hnext : state.top.next? = some inst)
    (hcheck : limits.checkSteps (state.steps + 1) = .ok ())
    (heffect : inst.effect program (.heapOnly limits.maxHeapSlots) 0 state.top state.heap =
      .ok effect) (hstays : effect.stays = true) :
    state.step program limits = .running (state.stayed effect) := by
  rw [step_of_room program hnext hcheck, heffect]
  cases effect with
  | enter | leave => exact nomatch hstays
  | _ => simp [bind, Except.bind, Effect.limited, apply, stayed, Effect.within]

/-- One more instruction in an activation. -/
theorem Answers.of_stays {effect : Effect} (hnext : state.top.next? = some inst)
    (hcheck : limits.checkSteps (state.steps + 1) = .ok ())
    (heffect : inst.effect program (.heapOnly limits.maxHeapSlots) 0 state.top state.heap =
      .ok effect) (hstays : effect.stays = true)
    (h : (state.stayed effect).Answers program limits rest) :
    state.Answers program limits (rest.after (effect.within state.top state.heap).2.2) := by
  have hstep : state.step program limits = .running (state.stayed effect) :=
    step_of_stays hnext hcheck heffect hstays
  have hrun := (advance_one state program limits).trans hstep
  have hallowed : limits.Allows (state.stayed effect).steps := Limits.allows_of_checkSteps hcheck
  have hfits : limits.Allows state.steps →
      ((rest.after (effect.within state.top state.heap).2.2).Fits limits state.steps state.depth ↔
        rest.Fits limits (state.steps + 1) state.depth) :=
    fun hallows => Limits.hasRoom_succ_steps hallows hallowed
  refine ⟨fun hallows hfit => ?_, fun hallows hnot =>
    (h.overruns hallowed (mt (hfits hallows).mpr hnot)).of_advance hrun⟩
  refine (h.reaches hallowed ((hfits hallows).mp hfit)).of_advance hrun
    (resultDest_within _ _ _) rfl ?_ rfl
  change state.steps + 1 + UInt64.ofNat rest.steps = state.steps + UInt64.ofNat (rest.steps + 1)
  rw [UInt64.ofNat_add]
  ac_rfl

/-- The state in which a callee starts. -/
def entered (state : State) (callee : Function) (args : List Value) (dst : Option Dest) :
    State where
  top := .enter callee args dst
  callers := state.callers.push state.top.advance
  heap := state.heap
  steps := state.steps + 1
  output := state.output

theorem depth_entered (state : State) (callee : Function) (args : List Value)
    (dst : Option Dest) : (state.entered callee args dst).depth = state.depth + 1 := by
  simp [entered, depth]

/-- A callee that ends hands its value to the activation that called it. -/
theorem leave_push (top caller : Frame) (callers : Array Frame) (heap : Heap) (steps : UInt64)
    (output : Array String) (value : Value) :
    State.leave ⟨top, callers.push caller, heap, steps, output⟩ value =
      .running ⟨caller.assign? top.resultDest value, callers, heap, steps, output⟩ := by
  simp [leave]

/-- A call enters its callee, unless that is too deep. -/
theorem step_of_enter {callee : Function} {args : List Value} {dst : Option Dest}
    (hnext : state.top.next? = some inst)
    (hcheck : limits.checkSteps (state.steps + 1) = .ok ())
    (heffect : inst.effect program (.heapOnly limits.maxHeapSlots) 0 state.top state.heap =
      .ok (.enter callee args dst)) :
    (state.depth + 1 ≤ limits.maxDepth ∧
        state.step program limits = .running (state.entered callee args dst)) ∨
      limits.maxDepth < state.depth + 1 ∧ ∃ error last,
        state.step program limits = .failed error last ∧ error.isRunLimit = true := by
  have hstep := step_of_room program hnext hcheck
  rw [heffect] at hstep
  simp only [bind, Except.bind, Effect.limited] at hstep
  rcases limits.checkDepth_cases (state.depth + 1) with ⟨hdepth, hle⟩ | ⟨hlt, hdepth⟩
  · simp only [hdepth] at hstep
    exact .inl ⟨hle, hstep⟩
  · simp only [hdepth] at hstep
    exact .inr ⟨hlt, _, _, hstep, rfl⟩

/-- A call whose callee is answered for, and then what follows it. -/
theorem Answers.of_call {callee : Function} {args : List Value} {dst : Option Dest} {value : Value}
    (hnext : state.top.next? = some inst)
    (hcheck : limits.checkSteps (state.steps + 1) = .ok ())
    (heffect : inst.effect program (.heapOnly limits.maxHeapSlots) 0 state.top state.heap =
      .ok (.enter callee args dst))
    (hcalled : (state.entered callee args dst).Answers program limits called)
    (hvalue : called.result = .ok value)
    (hrest : Answers program limits ⟨state.top.advance.assign? dst value, state.callers, called.heap,
      state.steps + 1 + UInt64.ofNat called.steps, state.output ++ called.lines.toArray⟩ rest) :
    state.Answers program limits (called.followedBy rest) := by
  have hpositive : ∀ {steps : UInt64}, (called.followedBy rest).Fits limits steps state.depth →
      state.depth + 1 ≤ limits.maxDepth := fun hfit => by
    have hnesting : max (called.nesting + 1) rest.nesting ≤ limits.maxDepth - state.depth :=
      hfit.nesting
    omega
  rcases step_of_enter hnext hcheck heffect with ⟨hdepth, hstep⟩ | ⟨hlt, error, last, hstep, herror⟩
  · have hentered := (advance_one state program limits).trans hstep
    have hallowed : limits.Allows (state.steps + 1) := Limits.allows_of_checkSteps hcheck
    have hfits : limits.Allows state.steps →
        ((called.followedBy rest).Fits limits state.steps state.depth ↔
          called.Fits limits (state.steps + 1) (state.depth + 1) ∧
            rest.Fits limits (state.steps + 1 + UInt64.ofNat called.steps) state.depth) :=
      fun hallows => (Limits.hasRoom_succ_steps hallows hallowed).trans
        ((Limits.hasRoom_add hallowed).trans
          (and_congr_left' (Limits.hasRoom_succ_nesting hdepth)))
    by_cases hfit : called.Fits limits (state.steps + 1) (state.depth + 1)
    · have hreached := hcalled.reaches hallowed (by rw [depth_entered]; exact hfit)
      simp only [Reaches, hvalue] at hreached
      obtain ⟨count, top, hdest, hcount⟩ := hreached
      -- the callee's value is assigned in the frame that was pushed
      rw [entered, leave_push, hdest] at hcount
      have hreturned := (advance_add hentered count).trans hcount
      have hcounted := hfit.allows hallowed
      refine ⟨fun hallows hall => ?_, fun hallows hnot => ?_⟩
      · refine (hrest.reaches hcounted ((hfits hallows).mp hall).2).of_advance hreturned ?_ rfl ?_
          rfl
        · exact Frame.resultDest_assign? _ _ _
        · change state.steps + 1 + UInt64.ofNat called.steps + UInt64.ofNat rest.steps =
            state.steps + UInt64.ofNat (called.steps + rest.steps + 1)
          rw [UInt64.ofNat_add, UInt64.ofNat_add]
          ac_rfl
      · have hnone := fun h => hnot ((hfits hallows).mpr ⟨hfit, h⟩)
        exact (hrest.overruns hcounted hnone).of_advance hreturned
    · have hover : state.Overruns program limits :=
        (hcalled.overruns hallowed (by rw [depth_entered]; exact hfit)).of_advance hentered
      exact ⟨fun hallows hall => absurd ((hfits hallows).mp hall).1 hfit, fun _ _ => hover⟩
  · exact ⟨fun _ hfit => absurd (hpositive hfit) (by omega), fun _ _ => .of_step hstep herror⟩

/-- A call whose callee faults. -/
theorem Answers.of_callFault {callee : Function} {args : List Value} {dst : Option Dest}
    {error : RunError} (hnext : state.top.next? = some inst)
    (hcheck : limits.checkSteps (state.steps + 1) = .ok ())
    (heffect : inst.effect program (.heapOnly limits.maxHeapSlots) 0 state.top state.heap =
      .ok (.enter callee args dst))
    (hcalled : (state.entered callee args dst).Answers program limits called)
    (herror : called.result = .error error) :
    state.Answers program limits called.ofCall := by
  rcases step_of_enter hnext hcheck heffect with ⟨hdepth, hstep⟩ | ⟨hlt, cause, last, hstep, hcause⟩
  · have hentered := (advance_one state program limits).trans hstep
    have hallowed : limits.Allows (state.steps + 1) := Limits.allows_of_checkSteps hcheck
    have hfits : limits.Allows state.steps →
        (called.ofCall.Fits limits state.steps state.depth ↔
          called.Fits limits (state.steps + 1) (state.depth + 1)) :=
      fun hallows => (Limits.hasRoom_succ_steps hallows hallowed).trans
        (Limits.hasRoom_succ_nesting hdepth)
    refine ⟨fun hallows hfit => ?_, fun hallows hnot => ?_⟩
    · have hreached := hcalled.reaches hallowed
        (by rw [depth_entered]; exact (hfits hallows).mp hfit)
      simp only [Reaches, herror] at hreached
      obtain ⟨count, last, hcount, hheap, houtput⟩ := hreached
      simp only [Reaches, Outcome.ofCall, herror]
      exact ⟨1 + count, last, (advance_add hentered count).trans hcount, hheap, houtput⟩
    · refine Overruns.of_advance (hcalled.overruns hallowed ?_) hentered
      rw [depth_entered]
      exact mt (hfits hallows).mpr hnot
  · refine ⟨fun _ hfit => ?_, fun _ _ => .of_step hstep hcause⟩
    have hnesting : called.nesting + 1 ≤ limits.maxDepth - state.depth := hfit.nesting
    omega

/-- An instruction that faults. -/
theorem Answers.of_fault {cause : Fault} (hnext : state.top.next? = some inst)
    (hcheck : limits.checkSteps (state.steps + 1) = .ok ())
    (hcause : inst.effect program (.heapOnly limits.maxHeapSlots) 0 state.top state.heap =
      .error cause) :
    state.Answers program limits
      ⟨.error (.fault state.top.function.name state.top.index inst cause),
        state.heap, [], 1, 0⟩ := by
  have hstep := step_of_room program hnext hcheck
  rw [hcause] at hstep
  refine ⟨fun _ _ => ⟨1, state, ?_, rfl, by simp⟩, fun hallows hnot => ?_⟩
  · exact (advance_one state program limits).trans hstep
  · have hallowed := Limits.allows_of_checkSteps hcheck
    exact absurd ((Limits.hasRoom_succ_steps hallows hallowed).mpr (limits.hasRoom_nothing _ _))
      hnot

/-- An instruction that returns. -/
theorem Answers.of_leave {value : Value} (hnext : state.top.next? = some inst)
    (hcheck : limits.checkSteps (state.steps + 1) = .ok ())
    (hvalue : inst.effect program (.heapOnly limits.maxHeapSlots) 0 state.top state.heap =
      .ok (.leave value)) :
    state.Answers program limits ⟨.ok value, state.heap, [], 1, 0⟩ := by
  have hstep := step_of_room program hnext hcheck
  rw [hvalue] at hstep
  refine ⟨fun _ _ => ⟨1, state.top, rfl, ?_⟩, fun hallows hnot => ?_⟩
  · refine (advance_one state program limits).trans (hstep.trans ?_)
    simp [bind, Except.bind, Effect.limited, apply]
  · have hallowed := Limits.allows_of_checkSteps hcheck
    exact absurd ((Limits.hasRoom_succ_steps hallows hallowed).mpr (limits.hasRoom_nothing _ _))
      hnot

/-- Whatever waits below an activation, its run comes to the outcome of its evaluation. -/
theorem answers_of_evaluate {fuel : Nat} {state : State} {outcome : Outcome}
    (h : state.top.evaluate? program limits.maxHeapSlots fuel state.heap = some outcome) :
    state.Answers program limits outcome := by
  -- The induction is over all states at once, so that it covers callees above this activation.
  induction fuel generalizing state outcome with
  | zero => exact nomatch h
  | succ fuel ih =>
      cases hnext : state.top.next? with
      | none =>
          rw [Frame.evaluate?_of_end hnext] at h
          obtain rfl := Option.some.inj h
          refine ⟨fun _ _ => ⟨1, state.top, rfl, ?_⟩, fun _ hnot => ?_⟩
          · rw [advance_one, step_of_end hnext]
            simp
          · exact absurd (limits.hasRoom_nothing _ _) hnot
      | some inst =>
          rw [Frame.evaluate?_succ_iff hnext] at h
          rcases limits.checkSteps_cases (state.steps + 1) with ⟨hcheck, _⟩ | ⟨_, _, _, hcheck⟩
          · cases h with
            | fault hcause => exact .of_fault hnext hcheck hcause
            | leave hvalue => exact .of_leave hnext hcheck hvalue
            | callFault hcall hcalled herror =>
                exact .of_callFault hnext hcheck hcall (ih hcalled) herror
            | call hcall hcalled hvalue hrest =>
                exact .of_call hnext hcheck hcall (ih hcalled) hvalue (ih hrest)
            | stay heffect hstays hrest =>
                exact .of_stays hnext hcheck heffect hstays (ih hrest)
          · have hover : state.Overruns program limits :=
              .of_step (step_of_checkSteps hnext hcheck) rfl
            refine ⟨fun hallows hfit => ?_, fun _ _ => hover⟩
            have hone := h.steps_pos
            have hnone : outcome.steps = 0 :=
              Limits.HasRoom.eq_zero_of_checkSteps hfit hallows hcheck
            omega

theorem not_running_of_execution? {count : Nat} {execution : Execution}
    (h : (state.advance program limits count).execution? = some execution) :
    state.advance program limits count ≠ .running next := by
  intro hrun
  simp [hrun, Step.execution?] at h

/-- A run ends in one way. -/
theorem advance_unique {count count' : Nat} {first second : Execution}
    (hfirst : (state.advance program limits count).execution? = some first)
    (hsecond : (state.advance program limits count').execution? = some second) :
    state.advance program limits count = state.advance program limits count' :=
  calc
    _ = state.advance program limits (count + count') :=
      (advance_of_stopped (fun _ => not_running_of_execution? hfirst) count').symm
    _ = state.advance program limits (count' + count) := by rw [Nat.add_comm]
    _ = _ := advance_of_stopped (fun _ => not_running_of_execution? hsecond) count

/-- A run that ends, and for another reason than a limit for calls or instructions. -/
def Concludes (program : Program) (limits : Limits) (state : State) (count : Nat) : Prop :=
  ∃ execution, (state.advance program limits count).execution? = some execution ∧
    execution.overran = false

/-- A run that comes to another state concludes from there, in fewer steps. -/
theorem Concludes.of_advance {count passed : Nat} (h : state.Concludes program limits count)
    (hrun : state.advance program limits passed = .running next) :
    passed ≤ count ∧ next.Concludes program limits (count - passed) := by
  obtain ⟨execution, hexecution, hlimit⟩ := h
  have hle : passed ≤ count := by
    by_contra hlt
    obtain ⟨more, rfl⟩ := Nat.exists_eq_add_of_le (Nat.le_of_lt (Nat.not_le.mp hlt))
    rw [advance_of_stopped fun _ => not_running_of_execution? hexecution] at hrun
    exact not_running_of_execution? hexecution hrun
  obtain ⟨more, rfl⟩ := Nat.exists_eq_add_of_le hle
  rw [advance_add hrun] at hexecution
  rw [Nat.add_sub_cancel_left]
  exact ⟨hle, execution, hexecution, hlimit⟩

theorem Concludes.not_overruns {count : Nat} (h : state.Concludes program limits count) :
    ¬ state.Overruns program limits := by
  rintro ⟨count', error, last, hlast, herror⟩
  obtain ⟨execution, hexecution, hlimit⟩ := h
  have hstopped := congrArg Step.execution? hlast
  rw [advance_unique hexecution hstopped, hlast] at hexecution
  obtain rfl := Option.some.inj hexecution
  exact absurd (herror.symm.trans hlimit) (by decide)

/-- A call in a run that concludes has an outcome if its callee and what follows it have one. -/
theorem evaluate_call_of_concludes {count : Nat} {callee : Function} {args : List Value}
    {dst : Option Dest} (h : state.Concludes program limits count)
    (ih : ∀ {state : State} {fewer : Nat}, fewer < count → limits.Allows state.steps →
      state.Concludes program limits fewer → ∃ fuel outcome,
        state.top.evaluate? program limits.maxHeapSlots fuel state.heap = some outcome)
    (hnext : state.top.next? = some inst)
    (hcheck : limits.checkSteps (state.steps + 1) = .ok ())
    (heffect : inst.effect program (.heapOnly limits.maxHeapSlots) 0 state.top state.heap =
      .ok (.enter callee args dst)) :
    ∃ fuel outcome,
      state.top.evaluate? program limits.maxHeapSlots fuel state.heap = some outcome := by
  rcases step_of_enter hnext hcheck heffect with ⟨_, hstep⟩ | ⟨_, error, last, hstep, herror⟩
  · obtain ⟨hpositive, hentered⟩ :=
      h.of_advance ((advance_one state program limits).trans hstep)
    have hallowed : limits.Allows (state.entered callee args dst).steps :=
      Limits.allows_of_checkSteps hcheck
    obtain ⟨fuel, called, hcalled⟩ := ih (by omega) hallowed hentered
    have hanswers := answers_of_evaluate hcalled
    have hfits := by_contra fun hnot => hentered.not_overruns (hanswers.overruns hallowed hnot)
    have hreached := hanswers.reaches hallowed hfits
    cases hvalue : called.result with
    | error error =>
        exact ⟨fuel + 1, _,
          (Frame.evaluate?_succ_iff hnext).mpr (.callFault heffect hcalled hvalue)⟩
    | ok value =>
        simp only [Reaches, hvalue] at hreached
        obtain ⟨passed, top, hdest, hpassed⟩ := hreached
        rw [entered, leave_push, hdest] at hpassed
        obtain ⟨hle, hreturned⟩ := hentered.of_advance hpassed
        obtain ⟨fuel', rest, hrest⟩ := ih (by omega) (hfits.allows hallowed) hreturned
        have hcalled' := Frame.evaluate?_add hcalled fuel'
        have hrest' := Frame.evaluate?_add hrest fuel
        rw [Nat.add_comm] at hrest'
        exact ⟨fuel + fuel' + 1, _,
          (Frame.evaluate?_succ_iff hnext).mpr (.call heffect hcalled' hvalue hrest')⟩
  · exact absurd (.of_step hstep herror) h.not_overruns

/-- An activation whose run concludes has an outcome. -/
theorem exists_evaluate_of_concludes {count : Nat} (hallows : limits.Allows state.steps)
    (h : state.Concludes program limits count) :
    ∃ fuel outcome,
      state.top.evaluate? program limits.maxHeapSlots fuel state.heap = some outcome := by
  -- A call is followed by two runs, of the callee and of what comes after it. Both are shorter.
  induction count using Nat.strongRecOn generalizing state with
  | ind count ih =>
      have hlater : ∀ {next : State}, state.step program limits = .running next →
          next.Concludes program limits (count - 1) ∧ count - 1 < count := fun hstep => by
        obtain ⟨hle, hnext⟩ := h.of_advance ((advance_one state program limits).trans hstep)
        exact ⟨hnext, by omega⟩
      cases hnext : state.top.next? with
      | none => exact ⟨1, _, Frame.evaluate?_of_end hnext⟩
      | some inst =>
          rcases limits.checkSteps_cases (state.steps + 1) with ⟨hcheck, _⟩ | ⟨_, _, _, hcheck⟩
          · cases heffect :
                inst.effect program (.heapOnly limits.maxHeapSlots) 0 state.top state.heap with
            | error cause => exact ⟨1, _, (Frame.evaluate?_succ_iff hnext).mpr (.fault heffect)⟩
            | ok effect =>
                by_cases hstays : effect.stays = true
                · obtain ⟨hconcludes, hlt⟩ := hlater (step_of_stays hnext hcheck heffect hstays)
                  obtain ⟨fuel, rest, hrest⟩ :=
                    ih _ hlt (Limits.allows_of_checkSteps hcheck) hconcludes
                  exact ⟨fuel + 1, _,
                    (Frame.evaluate?_succ_iff hnext).mpr (.stay heffect hstays hrest)⟩
                · cases effect with
                  | leave value =>
                      exact ⟨1, _, (Frame.evaluate?_succ_iff hnext).mpr (.leave heffect)⟩
                  | enter callee args dst =>
                      exact evaluate_call_of_concludes h (fun hlt => ih _ hlt) hnext hcheck heffect
                  | _ => exact absurd rfl hstays
          · exact absurd (.of_step (step_of_checkSteps hnext hcheck) rfl) h.not_overruns

/-- A state with nothing but one activation. -/
def alone (frame : Frame) (heap : Heap) : State := ⟨frame, #[], heap, 0, #[]⟩

/-- The run of an activation on its own concludes with the outcome of its evaluation, if the limits
leave room for that. -/
theorem alone_concludes_iff {frame : Frame} {heap heap' : Heap} {execution : Execution} :
    (execution.overran = false ∧ ∃ count,
        ((alone frame heap).advance program limits count).ending? = some (execution, heap')) ↔
      ∃ fuel outcome, frame.evaluate? program limits.maxHeapSlots fuel heap = some outcome ∧
        outcome.Fits limits 0 1 ∧ (outcome.execution, outcome.heap) = (execution, heap') := by
  have hends : ∀ {outcome : Outcome}, (alone frame heap).Reaches program limits outcome →
      ∃ count, ((alone frame heap).advance program limits count).ending? =
        some (outcome.execution, outcome.heap) := by
    intro outcome hreaches
    unfold Reaches at hreaches
    cases hresult : outcome.result with
    | ok value =>
        rw [hresult] at hreaches
        obtain ⟨count, top, _, hcount⟩ := hreaches
        refine ⟨count, ?_⟩
        rw [hcount]
        simp [leave, alone, Step.ending?, Outcome.execution, hresult]
    | error error =>
        rw [hresult] at hreaches
        obtain ⟨count, last, hcount, hheap, houtput⟩ := hreaches
        refine ⟨count, ?_⟩
        rw [hcount]
        simp [hheap, houtput, alone, Step.ending?, Outcome.execution, hresult]
  constructor
  · rintro ⟨hlimit, count, hcount⟩
    have hexecution := Step.execution?_of_ending? hcount
    have hconcludes : (alone frame heap).Concludes program limits count :=
      ⟨execution, hexecution, hlimit⟩
    obtain ⟨fuel, outcome, houtcome⟩ :=
      exists_evaluate_of_concludes limits.allows_zero hconcludes
    have hanswers : (alone frame heap).Answers program limits outcome :=
      answers_of_evaluate houtcome
    have hfits : outcome.Fits limits 0 1 := by_contra fun hnot =>
      hconcludes.not_overruns (hanswers.overruns limits.allows_zero hnot)
    obtain ⟨count', hcount'⟩ := hends (hanswers.reaches limits.allows_zero hfits)
    rw [advance_unique (Step.execution?_of_ending? hcount') hexecution, hcount] at hcount'
    exact ⟨fuel, outcome, houtcome, hfits, (Option.some.inj hcount').symm⟩
  · rintro ⟨fuel, outcome, houtcome, hfits, heq⟩
    obtain ⟨rfl, rfl⟩ := Prod.mk.inj heq
    have hanswers : (alone frame heap).Answers program limits outcome :=
      answers_of_evaluate houtcome
    refine ⟨?_, hends (hanswers.reaches limits.allows_zero hfits)⟩
    cases hresult : outcome.result with
    | ok value => simp [Execution.overran, Outcome.execution, hresult]
    | error error =>
        simpa [Execution.overran, Outcome.execution, hresult] using
          Frame.isRunLimit_of_evaluate houtcome hresult

end State

namespace Program

theorem run?_concludes_iff {program : Program} {limits : Limits} {execution : Execution} :
    (execution.overran = false ∧ ∃ count, program.run? limits count = some execution) ↔
      ∃ fuel outcome, program.evaluate? limits.maxHeapSlots fuel = some outcome ∧
        outcome.Fits limits 0 1 ∧ outcome.execution = execution := by
  unfold run? evaluate?
  cases program.main? with
  | some main =>
      dsimp only
      constructor
      · rintro ⟨hlimit, count, hcount⟩
        obtain ⟨heap, hending⟩ := Step.exists_ending? hcount
        obtain ⟨fuel, outcome, houtcome, hfits, heq⟩ :=
          State.alone_concludes_iff.mp ⟨hlimit, count, hending⟩
        exact ⟨fuel, outcome, houtcome, hfits, (Prod.mk.inj heq).1⟩
      · rintro ⟨fuel, outcome, houtcome, hfits, rfl⟩
        obtain ⟨hlimit, count, hending⟩ :=
          State.alone_concludes_iff.mpr ⟨fuel, outcome, houtcome, hfits, rfl⟩
        exact ⟨hlimit, count, Step.execution?_of_ending? hending⟩
  | none =>
      constructor
      · rintro ⟨_, _, hexecution⟩
        exact ⟨0, _, rfl, limits.hasRoom_nothing 0 1, Option.some.inj hexecution⟩
      · rintro ⟨_, outcome, houtcome, _, rfl⟩
        obtain rfl := Option.some.inj houtcome
        exact ⟨rfl, 0, rfl⟩

/-- A stack of frames carries out calls as recursion does. Whatever waits below, a call leads to the
value, the heap and the lines of the callee's own evaluation, assigned where the caller wants it, or
to the callee's fault; only where that needs more than the limits leave, the run stops at a limit.
So an activation on its own and a whole program end as their evaluations do. -/
theorem stack_carries_out_recursion (program : Program) (limits : Limits) :
    (∀ {state : State} {name args callee values dst},
      state.top.next? = some (.call name args dst) →
      limits.checkSteps (state.steps + 1) = .ok () →
      (Inst.call name args dst).effect program limits state.depth state.top state.heap =
        .ok (.enter callee values dst) →
      ∀ {fuel outcome}, (Frame.enter callee values dst).evaluate? program limits.maxHeapSlots fuel
          state.heap = some outcome →
        (outcome.Fits limits (state.steps + 1) (state.depth + 1) →
          match outcome.result with
          | .ok value => ∃ count, state.advance program limits count = .running
              { top := (state.top.assign? dst value).advance
                callers := state.callers
                heap := outcome.heap
                steps := state.steps + 1 + UInt64.ofNat outcome.steps
                output := state.output ++ outcome.lines.toArray }
          | .error error => ∃ count last, state.advance program limits count =
              .failed error last ∧ last.output = state.output ++ outcome.lines.toArray) ∧
        (¬ outcome.Fits limits (state.steps + 1) (state.depth + 1) →
          state.Overruns program limits)) ∧
    (∀ {frame heap execution heap'},
      (execution.overran = false ∧ ∃ count,
          ((State.alone frame heap).advance program limits count).ending? =
            some (execution, heap')) ↔
        ∃ fuel outcome, frame.evaluate? program limits.maxHeapSlots fuel heap = some outcome ∧
          outcome.Fits limits 0 1 ∧ (outcome.execution, outcome.heap) = (execution, heap')) ∧
    ∀ {execution},
      (execution.overran = false ∧ ∃ count, program.run? limits count = some execution) ↔
        ∃ fuel outcome, program.evaluate? limits.maxHeapSlots fuel = some outcome ∧
          outcome.Fits limits 0 1 ∧ outcome.execution = execution := by
  refine ⟨?_, State.alone_concludes_iff, run?_concludes_iff⟩
  intro state name args callee values dst hnext hcheck heffect fuel outcome houtcome
  have hentered : state.advance program limits 1 = .running (state.entered callee values dst) :=
    (state.advance_one program limits).trans (State.step_eq_apply hnext hcheck heffect)
  have hanswers : (state.entered callee values dst).Answers program limits outcome :=
    State.answers_of_evaluate houtcome
  have hdepth := state.depth_entered callee values dst
  have hallowed : limits.Allows (state.entered callee values dst).steps :=
    Limits.allows_of_checkSteps hcheck
  refine ⟨fun hfits => ?_, fun hnot => ?_⟩
  · have hreached := hanswers.reaches hallowed (by rw [hdepth]; exact hfits)
    unfold State.Reaches at hreached
    cases hresult : outcome.result with
    | ok value =>
        rw [hresult] at hreached
        obtain ⟨count, top, hdest, hcount⟩ := hreached
        rw [State.entered, State.leave_push, hdest] at hcount
        refine ⟨1 + count, (State.advance_add hentered count).trans (hcount.trans ?_)⟩
        rw [Frame.advance_assign?]
        rfl
    | error error =>
        rw [hresult] at hreached
        obtain ⟨count, last, hcount, _, houtput⟩ := hreached
        exact ⟨1 + count, last, (State.advance_add hentered count).trans hcount, houtput⟩
  · exact (hanswers.overruns hallowed (by rw [hdepth]; exact hnot)).of_advance hentered

/-- Counts down and adds up by recursion. -/
def countdown : Program where
  functions := [
    { name := "main", params := [], locals := [],
      code := [
        .call "count" [.int 2] (some (.temp 0)),
        .ret (some (.temp 0))] },
    { name := "count", params := ["n"], locals := [],
      code := [
        .branch .eq (.var "n") (.int 0) "done",
        .call "printInt" [.var "n"] none,
        .binary (.arith .sub) (.temp 0) (.var "n") (.int 1),
        .call "count" [.temp 0] (some (.temp 1)),
        .binary (.arith .add) (.temp 1) (.temp 1) (.var "n"),
        .ret (some (.temp 1)),
        .label "done",
        .ret (some (.int 0))] }]

/-- The state of `countdown` before its second call, with `main` waiting. -/
def beforeSecond : State where
  top := ⟨countdown.functions[1], 3, ⟨[(.var "n", .int 2), (.temp 0, .int 1)]⟩, some (.temp 0)⟩
  callers := #[⟨countdown.functions[0], 1, .empty, none⟩]
  heap := .empty
  steps := 4
  output := #["2"]

theorem stack_carries_out_recursion_countdown :
    (∃ count, (State.initial countdown.functions[0]).advance countdown .standard 4 =
        .running beforeSecond ∧
      beforeSecond.advance countdown .standard count = .running
        { beforeSecond with
          top := ⟨countdown.functions[1], 4,
            ⟨[(.var "n", .int 2), (.temp 0, .int 1), (.temp 1, .int 1)]⟩, some (.temp 0)⟩
          steps := 14
          output := #["2", "1"] }) ∧
    ∃ count, countdown.run? .standard count = some ⟨["2", "1"], .ok (.int 3)⟩ := by
  have hcallee : (Frame.enter countdown.functions[1] [.int 1] (some (.temp 1))).evaluate? countdown
      Limits.standard.maxHeapSlots 9 beforeSecond.heap =
        some ⟨.ok (.int 1), .empty, ["1"], 9, 1⟩ := rfl
  have hprogram : countdown.evaluate? Limits.standard.maxHeapSlots 12 =
      some ⟨.ok (.int 3), .empty, ["2", "1"], 17, 3⟩ := rfl
  obtain ⟨hcalls, _, hruns⟩ := stack_carries_out_recursion countdown .standard
  have hunbounded : Limits.standard.stepBound? = none := rfl
  obtain ⟨count, hcount⟩ := (@hcalls beforeSecond _ _ _ _ _ rfl rfl rfl _ _ hcallee).1
    ⟨fun _ hbound => (by simp [hunbounded] at hbound), by decide⟩
  refine ⟨⟨count, rfl, hcount⟩, (hruns.mpr ⟨12, _, hprogram, ⟨?_, by decide⟩, rfl⟩).2⟩
  exact fun _ hbound => by simp [hunbounded] at hbound

end Program

end ThreeAddress
