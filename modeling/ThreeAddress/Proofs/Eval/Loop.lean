import ThreeAddress.Proofs.Eval.CallSites
import ThreeAddress.Proofs.Eval.Recursion

/-!
# A loop over one stack

A run can be carried out as a loop over one stack of activations, which might find
the stack empty, and which looks up arguments, slots and instructions by their
numbers, without a test that they are there. Neither happens, whatever the program:
each turn of the loop is a step of the run, and each look-up comes after a check
that makes sure of it.
-/

namespace ThreeAddress

/-- A run between two turns of the loop. -/
structure Loop where
  /-- The activations, the running one first. -/
  stack : List Frame
  heap : Heap
  steps : UInt64
  output : Array String

/-- What a turn of the loop leads to. -/
inductive Turn where
  | running (loop : Loop)
  | returned (value : Value) (output : Array String)
  | failed (error : RunError) (output : Array String)
  /-- The stack was empty at the head of the loop. -/
  | emptied
  /-- Something was looked up at a number that it does not have. -/
  | crashed

/-- The effect of a call to a built-in, or `none` if it looks up an argument that is not there. -/
def Builtin.lookUp? (limits : Limits) (heap : Heap) (args : List Value) (dst : Option Dest)
    (builtin : Builtin) : Option (Except Fault Effect) :=
  match builtin with
  | .printInt | .printBool =>
      match checkArity builtin.name 1 args.length with
      | .error fault => some (.error fault)
      | .ok () => args[0]?.map fun value => .ok (.print value.text)
  | .printStr =>
      match args with
      | [] => some (.ok (.print ""))
      | [value] => some (.ok (.print value.text))
      | _ => some (.error (.arityMismatch builtin.name 1 args.length))
  | .malloc =>
      match checkArity builtin.name 1 args.length with
      | .error fault => some (.error fault)
      | .ok () => args[0]?.map fun
          | .int size => (heap.reserve limits size).map fun count => .allocate count dst
          | other => .error (.typeMismatch (.mallocSize other.type))

/-- The effect of an instruction, with room for the call it may be, or `none` if it looks up an
argument or a slot that is not there. -/
def Inst.lookUp? (program : Program) (limits : Limits) (frame : Frame) (heap : Heap) :
    Inst → Option (Except Fault Effect)
  | .load dst address =>
      match frame.address address >>= heap.slot with
      | .error fault => some (.error fault)
      | .ok slot => (heap.get? slot).map fun value => .ok (.assign dst value)
  | .store address src =>
      match frame.eval src with
      | .error fault => some (.error fault)
      | .ok value =>
          match frame.address address >>= heap.slot with
          | .error fault => some (.error fault)
          | .ok slot => if slot < heap.size then some (.ok (.store slot value)) else none
  | .call name args dst =>
      match Builtin.ofName? name with
      | none => some (Inst.effect program (.heapOnly limits.maxHeapSlots) 0 frame heap
          (.call name args dst))
      | some builtin =>
          match frame.evalAll args with
          | .error fault => some (.error fault)
          | .ok values => builtin.lookUp? limits heap values dst
  | inst => some (inst.effect program (.heapOnly limits.maxHeapSlots) 0 frame heap)

namespace Loop

def initial (main : Function) : Loop := ⟨[.enter main [] none], .empty, 0, #[]⟩

/-- Ends the running activation; `rest` are those below it. -/
def leave (loop : Loop) (top : Frame) (rest : List Frame) (value : Value) : Turn :=
  match rest with
  | [] => .returned value loop.output
  | caller :: rest =>
      .running { loop with stack := caller.assign? top.resultDest value :: rest }

/-- One turn. A callee's depth is checked when the call has been worked out, and if it is too deep
the call is looked up again for the message. -/
def turn (program : Program) (limits : Limits) (loop : Loop) : Turn :=
  match loop.stack with
  | [] => .emptied
  | top :: rest =>
      match top.next? with
      | none => loop.leave top rest .undefined
      | some inst =>
          let failed (inst : Inst) (cause : Fault) : Turn :=
            .failed (.fault top.function.name top.index inst cause) loop.output
          match limits.checkSteps (loop.steps + 1) with
          | .error cause => failed inst cause
          | .ok () =>
              let counted := { loop with steps := loop.steps + 1 }
              match inst.lookUp? program limits top loop.heap with
              | none => .crashed
              | some (.error cause) => failed inst cause
              | some (.ok (.leave value)) => counted.leave top rest value
              | some (.ok (.enter callee args dst)) =>
                  match limits.checkDepth (loop.stack.length + 1) with
                  | .error cause =>
                      match top.function.code[top.index]? with
                      | none => .crashed
                      | some inst => failed inst cause
                  | .ok () =>
                      .running { counted with
                        stack := .enter callee args dst :: top.advance :: rest }
              | some (.ok effect) =>
                  let (frame, heap, lines) := effect.within top loop.heap
                  .running { counted with
                    stack := frame :: rest, heap, output := loop.output ++ lines.toArray }

/-- A loop that the run of a program comes to. -/
inductive Reachable (program : Program) (limits : Limits) : Loop → Prop
  | initial {main : Function} (hmain : program.main? = some main) :
      Reachable program limits (.initial main)
  | turn {loop next : Loop} (h : Reachable program limits loop)
      (hturn : loop.turn program limits = .running next) : Reachable program limits next

end Loop

/-! ## Look-ups -/

section LookUps

variable {program : Program} {limits : Limits} {frame : Frame} {heap : Heap} {inst : Inst}

theorem Builtin.lookUp?_eq (limits : Limits) (heap : Heap) (args : List Value) (dst : Option Dest)
    (builtin : Builtin) :
    builtin.lookUp? limits heap args dst = some (builtin.effect limits heap args dst) := by
  match args with
  | [] => cases builtin <;> rfl
  | [value] =>
      cases builtin with
      | malloc =>
          cases value with
          | int size =>
              let allocate : Nat → Effect := fun count => .allocate count dst
              change some ((heap.reserve limits size).map allocate) =
                some (heap.reserve limits size >>= fun count => pure (allocate count))
              cases heap.reserve limits size <;> rfl
          | _ => rfl
      | _ => rfl
  | _ :: _ :: _ => cases builtin <;> simp [lookUp?, effect, checkArity]

/-- A slot that was found is there. -/
theorem Heap.get?_of_slot {index : Int} {slot : Nat} (h : heap.slot index = .ok slot) :
    heap.get? slot = some ((heap.get? slot).getD .undefined) := by
  have hlt : slot < heap.slots.size := (slot_eq_ok h).2.2
  simp [get?, hlt]

/-- Whatever is looked up is there. -/
theorem Inst.lookUp?_eq (program : Program) (limits : Limits) (frame : Frame) (heap : Heap)
    (inst : Inst) :
    inst.lookUp? program limits frame heap =
      some (inst.effect program (.heapOnly limits.maxHeapSlots) 0 frame heap) := by
  cases inst with
  | load dst address =>
      simp only [lookUp?, effect]
      cases frame.address address with
      | error => rfl
      | ok index =>
          simp only [bind, Except.bind]
          cases hslot : heap.slot index with
          | error => rfl
          | ok slot =>
              simp only
              rw [Heap.get?_of_slot hslot]
              rfl
  | store address src =>
      simp only [lookUp?, effect]
      cases frame.eval src with
      | error => rfl
      | ok value =>
          simp only [bind, Except.bind]
          cases frame.address address with
          | error => rfl
          | ok index =>
              simp only
              cases hslot : heap.slot index with
              | error => rfl
              | ok slot => exact if_pos (Heap.slot_eq_ok hslot).2.2
  | call name args dst =>
      simp only [lookUp?]
      cases hname : Builtin.ofName? name with
      | none => rfl
      | some builtin =>
          simp only [effect, hname]
          cases frame.evalAll args with
          | error => rfl
          | ok values => exact builtin.lookUp?_eq limits heap values dst
  | _ => rfl

end LookUps

/-! ## Turns and steps -/

/-- The stack that a state stands for, its running activation first. -/
def Loop.ofState (state : State) : Loop :=
  ⟨state.frames, state.heap, state.steps, state.output⟩

/-- The turn that a step stands for. -/
def Turn.ofStep : Step → Turn
  | .running state => .running (.ofState state)
  | .returned value state => .returned value state.output
  | .failed error state => .failed error state.output

namespace Loop

variable {program : Program} {limits : Limits} {state : State} {inst : Inst}

theorem leave_ofState (state : State) (value : Value) :
    (ofState state).leave state.top state.waiting value = .ofStep (state.leave value) := by
  rw [State.leave_eq]
  cases state.waiting with
  | nil => rfl
  | cons caller rest => simp [leave, Turn.ofStep, ofState, State.frames]

/-- A turn of the loop is a step of the run. -/
theorem turn_ofState (program : Program) (limits : Limits) (state : State) :
    (ofState state).turn program limits = .ofStep (state.step program limits) := by
  simp only [turn, ofState, State.frames]
  cases hnext : state.top.next? with
  | none =>
      rw [State.step_of_end hnext]
      exact leave_ofState state .undefined
  | some inst =>
      cases hcheck : limits.checkSteps (state.steps + 1) with
      | error cause =>
          rw [State.step_of_checkSteps hnext hcheck]
          rfl
      | ok =>
          simp only [Inst.lookUp?_eq]
          cases heffect :
              inst.effect program (.heapOnly limits.maxHeapSlots) 0 state.top state.heap with
          | error cause =>
              rw [State.step_of_room program hnext hcheck, heffect]
              rfl
          | ok effect =>
              by_cases hstays : effect.stays = true
              · rw [State.step_of_stays hnext hcheck heffect hstays]
                cases effect with
                | enter | leave => cases hstays
                | _ => rfl
              · rw [State.step_of_room program hnext hcheck, heffect]
                cases effect with
                | leave value => exact leave_ofState { state with steps := state.steps + 1 } value
                | enter callee args dst =>
                    have hdepth : (state.top :: state.waiting).length = state.depth :=
                      state.depth_eq.symm
                    have hcode : state.top.function.code[state.top.index]? = some inst := hnext
                    simp only [hdepth, hcode, bind, Except.bind, Effect.limited]
                    cases limits.checkDepth (state.depth + 1) with
                    | error cause => rfl
                    | ok =>
                        change _ = Turn.ofStep (.running (state.entered callee args dst))
                        simp [Turn.ofStep, ofState, State.frames, State.entered]
                | _ => exact absurd rfl hstays

/-- What the loop comes to is what the run comes to. -/
theorem Reachable.exists_state {loop : Loop} (h : Reachable program limits loop) :
    ∃ state, State.Reachable program limits state ∧ loop = ofState state := by
  induction h with
  | initial hmain => exact ⟨_, State.Reachable.of_main hmain, rfl⟩
  | turn _ hturn ih =>
      obtain ⟨state, hstate, rfl⟩ := ih
      rw [turn_ofState] at hturn
      cases hstep : state.step program limits with
      | running next =>
          rw [hstep] at hturn
          exact ⟨next, hstate.of_step hstep, (Turn.running.inj hturn).symm⟩
      | returned | failed =>
          rw [hstep] at hturn
          cases hturn

/-- Whatever the program, the stack is never empty at the head of the loop, its activations are at
places of their functions and were entered from the ones below, every declared label has a place,
and a turn looks up nothing that is not there: it is a step of the run, which goes on, returns or
fails with an error. -/
theorem Reachable.proceeds {loop : Loop} (h : Reachable program limits loop) :
    loop.stack ≠ [] ∧ program.WellStacked loop.stack ∧
      (∀ frame ∈ loop.stack, ∀ label, label ∈ frame.function.labels ↔
        ∃ index, frame.function.labelIndex? label = some index ∧
          index < frame.function.code.length ∧
          frame.function.code[index]? = some (.label label)) ∧
      loop.turn program limits ≠ .emptied ∧ loop.turn program limits ≠ .crashed ∧
      ∃ state, State.Reachable program limits state ∧ loop = ofState state ∧
        loop.turn program limits = .ofStep (state.step program limits) := by
  obtain ⟨state, hstate, rfl⟩ := h.exists_state
  have hturn := turn_ofState program limits state
  refine ⟨List.cons_ne_nil _ _, hstate.wellStacked, fun frame _ label => ?_, ?_, ?_, ?_⟩
  · exact ⟨Function.labelIndex?_of_mem, fun ⟨_, hindex, _⟩ =>
      Function.mem_labels_of_labelIndex? hindex⟩
  · rw [hturn]
    cases state.step program limits <;> exact Turn.noConfusion
  · rw [hturn]
    cases state.step program limits <;> exact Turn.noConfusion
  · exact ⟨state, hstate, rfl, hturn⟩

/-- A `main` with parameters, which calls the last of two functions of one name. That one declares a
label twice and jumps to another that is not there. -/
def careless : Program where
  functions := [
    { name := "main", params := ["x"], locals := [], code := [.call "f" [] (some (.temp 0))] },
    { name := "f", params := ["x", "y"], locals := [], code := [] },
    { name := "f", params := [], locals := [],
      code := [.label "a", .label "a", .jump "b"] }]

/-- Before the jump of `careless`, which fails. -/
theorem Reachable.proceeds_careless : ∃ loop, Reachable careless .strict loop ∧
    (loop.stack.map fun frame => (frame.function.name, frame.index)) = [("f", 2), ("main", 1)] ∧
    careless.WellStacked loop.stack ∧ loop.turn careless .strict =
      .failed (.fault "f" 2 (.jump "b") (.undefinedLabel "b")) #[] ∧
    loop.turn careless .strict ≠ .crashed := by
  have hmain : careless.main? = some careless.functions[0] := rfl
  have hreachable : Reachable careless .strict _ :=
    .turn (.turn (.turn (.initial hmain) rfl) rfl) rfl
  obtain ⟨_, hstacked, _, _, hlooked, _⟩ := hreachable.proceeds
  exact ⟨_, hreachable, rfl, hstacked, rfl, hlooked⟩

end Loop

end ThreeAddress
