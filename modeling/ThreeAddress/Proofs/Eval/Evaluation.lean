import ThreeAddress.Proofs.Eval.Limits

/-!
# Evaluation by recursion

An activation can be evaluated on its own, each of its calls by evaluating the
callee first. The evaluation counts the instructions and the calls above one
another that a run of it uses.
-/

namespace ThreeAddress

/-- How an activation ended, and what a run of it uses. -/
structure Outcome where
  result : Except RunError Value
  heap : Heap
  lines : List String
  /-- The instructions that were executed, a faulting one included. -/
  steps : Nat
  /-- The most activations that were active at once above this one. -/
  nesting : Nat

namespace Outcome

/-- An activation that first executed one more instruction, which printed the given lines. -/
def after (lines : List String) (rest : Outcome) : Outcome :=
  { rest with lines := lines ++ rest.lines, steps := rest.steps + 1 }

/-- An activation that ended with a callee's fault. -/
def ofCall (called : Outcome) : Outcome :=
  { called with steps := called.steps + 1, nesting := called.nesting + 1 }

/-- An activation that went on after a call. -/
def followedBy (called rest : Outcome) : Outcome where
  result := rest.result
  heap := rest.heap
  lines := called.lines ++ rest.lines
  steps := called.steps + rest.steps + 1
  nesting := max (called.nesting + 1) rest.nesting

def execution (outcome : Outcome) : Execution := ⟨outcome.lines, outcome.result⟩

/-- The limits leave room for an activation that is the topmost of `depth` and starts after
`steps` instructions. -/
def Fits (outcome : Outcome) (limits : Limits) (steps : UInt64) (depth : Nat) : Prop :=
  limits.HasRoom steps depth outcome.steps outcome.nesting

end Outcome

/-- Whether an effect stays in its activation. -/
def Effect.stays : Effect → Bool
  | .enter _ _ _ | .leave _ => false
  | _ => true

/-- The activation and the heap after an effect, and what it printed. A call leaves its activation
at the next instruction. -/
def Effect.within (frame : Frame) (heap : Heap) : Effect → Frame × Heap × List String
  | .skip | .enter _ _ _ => (frame.advance, heap, [])
  | .assign dst value => ((frame.assign dst value).advance, heap, [])
  | .store slot value => (frame.advance, heap.set slot value, [])
  | .allocate count dst =>
      ((frame.assign? dst (.int (Int32.ofNat heap.size))).advance, heap.grow count, [])
  | .print line => (frame.advance, heap, [line])
  | .jump index => (frame.goto index, heap, [])
  | .leave _ => (frame, heap, [])

/-- The outcome of an activation from its next instruction on, unless `fuel` is too little. A
callee is evaluated where it is called; nothing bounds the depth of calls. -/
def Frame.evaluate? (program : Program) (slots : Nat) : Nat → Frame → Heap → Option Outcome
  | 0, _, _ => none
  | fuel + 1, frame, heap =>
      match frame.next? with
      | none => some ⟨.ok .undefined, heap, [], 0, 0⟩
      | some inst =>
          match inst.effect program (.heapOnly slots) 0 frame heap with
          | .error cause =>
              some ⟨.error (.fault frame.function.name frame.index inst cause), heap, [], 1, 0⟩
          | .ok (.leave value) => some ⟨.ok value, heap, [], 1, 0⟩
          | .ok (.enter callee args dst) =>
              match evaluate? program slots fuel (.enter callee args dst) heap with
              | none => none
              | some called =>
                  match called.result with
                  | .error _ => some called.ofCall
                  | .ok value =>
                      (evaluate? program slots fuel (frame.advance.assign? dst value)
                        called.heap).map called.followedBy
          | .ok effect =>
              let (frame, heap, lines) := effect.within frame heap
              (evaluate? program slots fuel frame heap).map (.after lines)

/-- The outcome of the activation of `main`. -/
def Program.evaluate? (program : Program) (slots fuel : Nat) : Option Outcome :=
  match program.main? with
  | none => some ⟨.error .missingMain, .empty, [], 0, 0⟩
  | some main => (Frame.enter main [] none).evaluate? program slots fuel .empty

/-! ## Evaluations step by step -/

namespace Frame

variable {program : Program} {slots fuel : Nat} {frame : Frame} {heap : Heap} {inst : Inst}
  {outcome : Outcome}

/-- The ways in which an instruction is evaluated. -/
inductive Evaluated (program : Program) (slots fuel : Nat) (frame : Frame) (heap : Heap)
    (inst : Inst) : Outcome → Prop
  | fault {cause} :
      inst.effect program (.heapOnly slots) 0 frame heap = .error cause →
      Evaluated program slots fuel frame heap inst
        ⟨.error (.fault frame.function.name frame.index inst cause), heap, [], 1, 0⟩
  | leave {value} :
      inst.effect program (.heapOnly slots) 0 frame heap = .ok (.leave value) →
      Evaluated program slots fuel frame heap inst ⟨.ok value, heap, [], 1, 0⟩
  | callFault {callee args dst called error} :
      inst.effect program (.heapOnly slots) 0 frame heap = .ok (.enter callee args dst) →
      (Frame.enter callee args dst).evaluate? program slots fuel heap = some called →
      called.result = .error error →
      Evaluated program slots fuel frame heap inst called.ofCall
  | call {callee args dst called value rest} :
      inst.effect program (.heapOnly slots) 0 frame heap = .ok (.enter callee args dst) →
      (Frame.enter callee args dst).evaluate? program slots fuel heap = some called →
      called.result = .ok value →
      (frame.advance.assign? dst value).evaluate? program slots fuel called.heap = some rest →
      Evaluated program slots fuel frame heap inst (called.followedBy rest)
  | stay {effect rest} :
      inst.effect program (.heapOnly slots) 0 frame heap = .ok effect → effect.stays = true →
      (effect.within frame heap).1.evaluate? program slots fuel (effect.within frame heap).2.1 =
        some rest →
      Evaluated program slots fuel frame heap inst (rest.after (effect.within frame heap).2.2)

theorem evaluate?_of_end (hnext : frame.next? = none) :
    frame.evaluate? program slots (fuel + 1) heap = some ⟨.ok .undefined, heap, [], 0, 0⟩ := by
  rw [evaluate?, hnext]

theorem evaluate?_succ_iff (hnext : frame.next? = some inst) :
    frame.evaluate? program slots (fuel + 1) heap = some outcome ↔
      Evaluated program slots fuel frame heap inst outcome := by
  rw [evaluate?, hnext]
  dsimp only
  constructor
  · intro h
    split at h
    next cause hcause =>
      obtain rfl := Option.some.inj h
      exact .fault hcause
    next value hvalue =>
      obtain rfl := Option.some.inj h
      exact .leave hvalue
    next callee args dst hcall =>
      split at h
      next => exact nomatch h
      next called hcalled =>
        split at h
        next error herror =>
          obtain rfl := Option.some.inj h
          exact .callFault hcall hcalled herror
        next value hvalue =>
          obtain ⟨rest, hrest, rfl⟩ := Option.map_eq_some_iff.mp h
          exact .call hcall hcalled hvalue hrest
    next effect hleave henter heffect =>
      obtain ⟨rest, hrest, rfl⟩ := Option.map_eq_some_iff.mp h
      refine .stay heffect ?_ hrest
      cases effect with
      | leave value => exact absurd rfl (hleave value)
      | enter callee args dst => exact absurd rfl (henter callee args dst)
      | _ => rfl
  · intro h
    cases h with
    | fault hcause => rw [hcause]
    | leave hvalue => rw [hvalue]
    | callFault hcall hcalled herror => simp only [hcall, hcalled, herror]
    | call hcall hcalled hvalue hrest =>
        simp only [hcall, hcalled, hvalue, hrest, Option.map_some]
    | @stay effect rest heffect hstays hrest =>
        cases effect with
        | leave | enter => exact nomatch hstays
        | _ => simp only [heffect, Effect.within] at hrest ⊢; rw [hrest]; rfl

/-- An instruction is counted, and a call adds to the nesting. -/
theorem Evaluated.steps_pos (h : Evaluated program slots fuel frame heap inst outcome) :
    1 ≤ outcome.steps := by
  cases h with
  | fault | leave => exact Nat.le_refl 1
  | callFault | call | stay => exact Nat.succ_pos _

/-- An evaluation that ends needs no more fuel. -/
theorem evaluate?_add (h : frame.evaluate? program slots fuel heap = some outcome) (more : Nat) :
    frame.evaluate? program slots (fuel + more) heap = some outcome := by
  induction fuel generalizing frame heap outcome with
  | zero => exact nomatch h
  | succ fuel ih =>
      rw [Nat.add_right_comm]
      cases hnext : frame.next? with
      | none =>
          rw [evaluate?_of_end hnext] at h ⊢
          exact h
      | some inst =>
          rw [evaluate?_succ_iff hnext] at h ⊢
          cases h with
          | fault hcause => exact .fault hcause
          | leave hvalue => exact .leave hvalue
          | callFault hcall hcalled herror => exact .callFault hcall (ih hcalled) herror
          | call hcall hcalled hvalue hrest => exact .call hcall (ih hcalled) hvalue (ih hrest)
          | stay heffect hstays hrest => exact .stay heffect hstays (ih hrest)

/-- The fault of an activation is none at a limit of the run. -/
theorem isRunLimit_of_evaluate {error : RunError}
    (h : frame.evaluate? program slots fuel heap = some outcome)
    (herror : outcome.result = .error error) : error.isRunLimit = false := by
  induction fuel generalizing frame heap outcome with
  | zero => exact nomatch h
  | succ fuel ih =>
      cases hnext : frame.next? with
      | none =>
          rw [evaluate?_of_end hnext] at h
          obtain rfl := Option.some.inj h
          exact nomatch herror
      | some inst =>
          cases (evaluate?_succ_iff hnext).mp h with
          | fault hcause =>
              obtain rfl := Except.error.inj herror
              exact Unlimited.effect program slots frame heap inst _ hcause
          | leave => exact nomatch herror
          | callFault _ hcalled => exact ih hcalled herror
          | call _ _ _ hrest => exact ih hrest herror
          | stay _ _ hrest => exact ih hrest herror

end Frame

end ThreeAddress
