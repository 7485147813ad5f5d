import ThreeAddress.Proofs.Eval.Recursion

/-!
# How deep calls nest

The depth of a run is checked where a call enters a function, and nowhere else. A call
that goes too deep fails before its callee begins. The activation of `main` comes from no
call, so it is there even if no activation may be.
-/

namespace ThreeAddress

/-- The next instruction of an activation is a call of `callee`, not of a built-in, with a value for
each parameter. -/
structure Frame.Calls (program : Program) (frame : Frame) (inst : Inst) (callee : Function)
    (values : List Value) (dst : Option Dest) : Prop where
  next : frame.next? = some inst
  call : ∃ name args, inst = .call name args dst ∧ Builtin.ofName? name = none ∧
    frame.evalAll args = .ok values ∧ program.callee? name = some callee
  arity : callee.params.length = values.length

namespace Frame.Calls

variable {program : Program} {frame : Frame} {inst : Inst} {callee : Function}
  {values : List Value} {dst : Option Dest}

/-- All that a call still needs is room for one more activation. -/
theorem effect_eq (h : frame.Calls program inst callee values dst) (limits : Limits) (depth : Nat)
    (heap : Heap) :
    inst.effect program limits depth frame heap =
      limits.checkDepth (depth + 1) >>= fun _ => .ok (.enter callee values dst) := by
  obtain ⟨name, args, rfl, hname, hargs, hcallee⟩ := h.call
  simp [Inst.effect, hname, hargs, hcallee, checkArity, h.arity, bind, Except.bind, pure,
    Except.pure]

theorem of_effect {limits : Limits} {depth : Nat} {heap : Heap} (hnext : frame.next? = some inst)
    (h : inst.effect program limits depth frame heap = .ok (.enter callee values dst)) :
    frame.Calls program inst callee values dst := by
  cases Inst.performs_of_effect h with
  | enter hname hargs hcallee harity =>
      exact ⟨hnext, ⟨_, _, rfl, hname, hargs, hcallee⟩, harity⟩

end Frame.Calls

/-- Only a call that goes too deep fails for its depth. -/
theorem Inst.calls_of_depth {program : Program} {limits : Limits} {depth used limit : Nat}
    {frame : Frame} {heap : Heap} {inst : Inst} (hnext : frame.next? = some inst)
    (h : inst.effect program limits depth frame heap =
      .error (.limitExceeded (.depth used limit))) :
    (∃ callee values dst, frame.Calls program inst callee values dst) ∧
      limits.maxDepth < depth + 1 := by
  rw [effect_eq_heapOnly] at h
  cases heffect : inst.effect program (.heapOnly limits.maxHeapSlots) 0 frame heap with
  | error cause =>
      -- with room for a call nothing fails for its depth
      have hcause := Unlimited.effect program limits.maxHeapSlots frame heap inst cause heffect
      rw [heffect] at h
      obtain rfl := Except.error.inj h
      cases hcause
  | ok effect =>
      rw [heffect] at h
      cases effect with
      | enter callee values dst =>
          refine ⟨⟨callee, values, dst, .of_effect hnext heffect⟩, ?_⟩
          rcases limits.checkDepth_cases (depth + 1) with ⟨hcheck, _⟩ | ⟨hlt, _⟩
          · simp [bind, Except.bind, Effect.limited, hcheck, pure, Except.pure] at h
          · exact hlt
      | _ => cases h

namespace State

variable {program : Program} {limits : Limits} {state last : State} {inst : Inst}
  {callee : Function} {values : List Value} {dst : Option Dest} {error : RunError}

/-- A call enters its callee if that leaves no more activations than may be. -/
theorem step_of_calls (h : state.top.Calls program inst callee values dst)
    (hcheck : limits.checkSteps (state.steps + 1) = .ok ())
    (hroom : state.depth < limits.maxDepth) :
    state.step program limits = .running (state.entered callee values dst) := by
  rcases limits.checkDepth_cases (state.depth + 1) with ⟨hdepth, _⟩ | ⟨hlt, _⟩
  · have heffect : inst.effect program limits state.depth state.top state.heap =
        .ok (.enter callee values dst) := by
      rw [h.effect_eq, hdepth]
      rfl
    exact step_eq_apply h.next hcheck heffect
  · omega

/-- A call that goes too deep fails, for its depth unless it is one instruction too many. -/
theorem step_of_calls_deep (h : state.top.Calls program inst callee values dst)
    (hdeep : limits.maxDepth ≤ state.depth) :
    ∃ excess, (limits.checkSteps (state.steps + 1) = .ok () →
        excess = .depth (state.depth + 1) limits.maxDepth) ∧
      state.step program limits =
        .failed (.fault state.top.function.name state.top.index inst (.limitExceeded excess))
          state := by
  rcases limits.checkSteps_cases (state.steps + 1) with ⟨hcheck, _⟩ | ⟨limit, _, _, hcheck⟩
  · rcases limits.checkDepth_cases (state.depth + 1) with ⟨_, hle⟩ | ⟨_, hdepth⟩
    · omega
    · refine ⟨_, fun _ => rfl, ?_⟩
      rw [step, h.next]
      simp only [hcheck, h.effect_eq, hdepth]
      rfl
  · refine ⟨.steps (state.steps + 1) limit, fun hok => ?_, step_of_checkSteps h.next hcheck⟩
    cases hcheck.symm.trans hok

/-- Where a run fails for its depth, a call goes too deep. -/
theorem calls_of_failed {name : String} {index used limit : Nat}
    (h : state.step program limits =
      .failed (.fault name index inst (.limitExceeded (.depth used limit))) last) :
    (∃ callee values dst, state.top.Calls program inst callee values dst) ∧
      limits.maxDepth ≤ state.depth := by
  obtain ⟨rfl, found, cause, hnext, herror, hcause⟩ := step_eq_failed h
  obtain ⟨_, _, rfl, rfl⟩ := RunError.fault.inj herror
  rcases limits.checkSteps_cases (last.steps + 1) with ⟨hcheck, _⟩ | ⟨_, _, _, hcheck⟩
  · rw [hcheck] at hcause
    obtain ⟨hcalls, hdeep⟩ := Inst.calls_of_depth hnext hcause
    exact ⟨hcalls, Nat.lt_succ_iff.mp hdeep⟩
  · rw [hcheck] at hcause
    cases hcause

/-- A failure is how the run ends, with the lines that were printed up to there. -/
theorem Reachable.run?_of_failed (h : Reachable program limits state)
    (hfailed : state.step program limits = .failed error last) :
    ∃ fuel, program.run? limits fuel = some ⟨last.output.toList, .error error⟩ := by
  obtain ⟨main, fuel, hmain, hrun⟩ := h
  refine ⟨fuel + 1, ?_⟩
  rw [Program.run?, hmain]
  dsimp only
  rw [advance_add hrun, advance_one, hfailed]
  rfl

/-- In every state of a run there are no more activations than may be, unless none may be and the
one there is is that of `main`. A call that leaves no more than may be enters its callee. Any other
call fails, and that ends the run with the heap and the lines from before the call. Nothing else
fails for the depth of the run. -/
theorem Reachable.depth_bounded (h : Reachable program limits state) :
    (state.depth ≤ limits.maxDepth ∨ limits.maxDepth = 0 ∧ state.depth = 1) ∧
    (∀ {inst callee values dst}, state.top.Calls program inst callee values dst →
      (state.depth < limits.maxDepth → limits.checkSteps (state.steps + 1) = .ok () →
        state.step program limits = .running (state.entered callee values dst)) ∧
      (limits.maxDepth ≤ state.depth → ∃ excess,
        (limits.checkSteps (state.steps + 1) = .ok () →
          excess = .depth (state.depth + 1) limits.maxDepth) ∧
        let error := .fault state.top.function.name state.top.index inst (.limitExceeded excess)
        state.step program limits = .failed error state ∧
          ∃ fuel, program.run? limits fuel = some ⟨state.output.toList, .error error⟩)) ∧
    ∀ {name index inst used limit last}, state.step program limits =
        .failed (.fault name index inst (.limitExceeded (.depth used limit))) last →
      (∃ callee values dst, state.top.Calls program inst callee values dst) ∧
        limits.maxDepth ≤ state.depth := by
  refine ⟨?_, fun hcalls => ⟨fun hroom hcheck => step_of_calls hcalls hcheck hroom, ?_⟩,
    calls_of_failed⟩
  · have hle := h.depth_le
    have hpositive : 0 < state.depth := Nat.succ_pos _
    omega
  · intro hdeep
    obtain ⟨excess, hexcess, hfailed⟩ := step_of_calls_deep hcalls hdeep
    exact ⟨excess, hexcess, hfailed, h.run?_of_failed hfailed⟩

end State

namespace Program

/-- Calls itself without end. -/
def descending : Program where
  functions := [
    { name := "main", params := [], locals := [],
      code := [
        .call "printStr" [.str "down"] none,
        .call "main" [] none,
        .call "printStr" [.str "up"] none] }]

/-- The state of `descending` before the call in its second activation. -/
def secondDescent : State where
  top := ⟨descending.functions[0], 1, .empty, none⟩
  callers := #[⟨descending.functions[0], 2, .empty, none⟩]
  heap := .empty
  steps := 3
  output := #["down", "down"]

/-- Where two activations may be, the call in the second one ends the run. -/
theorem depth_bounded_descending :
    State.Reachable descending ⟨2, none, 0⟩ secondDescent ∧
      secondDescent.depth = 2 ∧ secondDescent.depth ≤ 2 ∧
      secondDescent.top.Calls descending (.call "main" [] none) descending.functions[0] [] none ∧
      ∃ fuel, descending.run? ⟨2, none, 0⟩ fuel = some ⟨["down", "down"], .error
        (.fault "main" 1 (.call "main" [] none) (.limitExceeded (.depth 3 2)))⟩ := by
  have hreachable : State.Reachable descending ⟨2, none, 0⟩ secondDescent := ⟨_, 3, rfl, rfl⟩
  have hcalls : secondDescent.top.Calls descending (.call "main" [] none)
      descending.functions[0] [] none :=
    ⟨rfl, ⟨"main", [], rfl, rfl, rfl, rfl⟩, rfl⟩
  obtain ⟨hdepth, hcall, _⟩ := hreachable.depth_bounded
  obtain ⟨excess, hexcess, _, hrun⟩ := (hcall hcalls).2 (Nat.le_refl 2)
  obtain rfl := hexcess rfl
  exact ⟨hreachable, rfl, hdepth.resolve_right (by simp), hcalls, hrun⟩

/-- Prints a line. -/
def solitary : Program where
  functions := [
    { name := "main", params := [], locals := [],
      code := [
        .call "printInt" [.int 1] none,
        .ret (some (.int 0))] }]

/-- Where no activation may be, `main` runs all the same. -/
theorem run?_solitary :
    solitary.run? ⟨0, none, 0⟩ 2 = some ⟨["1"], .ok (.int 0)⟩ ∧
      ∃ state, State.Reachable solitary ⟨0, none, 0⟩ state ∧ 0 < state.depth :=
  ⟨rfl, _, ⟨_, 1, rfl, rfl⟩, Nat.succ_pos _⟩

end Program

end ThreeAddress
