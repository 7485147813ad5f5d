import ThreeAddress.Proofs.Eval.Depth
import ThreeAddress.Proofs.Eval.Loop

/-!
# Instructions in place

An instruction can be carried out in place: on the running activation, the heap and
the lines themselves, with its checks between the changes, and without taking any
change back when a check fails. Each check comes before the first change all the same,
so that an instruction that fails changes nothing that the program can observe, and
what is carried out in place is what a step does.
-/

namespace ThreeAddress

open MonadExcept (ofExcept)

/-- What an instruction may change. -/
structure Scene where
  frame : Frame
  heap : Heap
  output : Array String

/-- How the loop goes on after an instruction. -/
inductive Control where
  | proceed
  | jump (index : Nat)
  | enter (callee : Function) (args : List Value) (dst : Option Dest)
  | leave (value : Value)

/-- Work on a scene. If it fails, the scene is left as far as the work has come. -/
abbrev Work := EStateM Fault Scene

namespace Work

def eval (source : Source) : Work Value := do
  ofExcept ((← get).frame.eval source)

def address (address : Address) : Work Int := do
  match ← eval address.base with
  | .int base => return base.toInt + address.offset.toInt
  | other => throw (.typeMismatch (.addressBase other.type))

def labelIndex (label : String) : Work Nat := do
  ofExcept ((← get).frame.labelIndex label)

def assign (dst : Dest) (value : Value) : Work Unit :=
  modify fun scene => { scene with frame := scene.frame.assign dst value }

def read (index : Int) : Work Value := do
  let slot ← ofExcept ((← get).heap.slot index)
  return ((← get).heap.get? slot).getD .undefined

def write (index : Int) (value : Value) : Work Unit := do
  let slot ← ofExcept ((← get).heap.slot index)
  modify fun scene => { scene with heap := scene.heap.set slot value }

/-- Appends slots, and gives the number of the first one. -/
def allocate (limits : Limits) (size : Int32) : Work Value := do
  let first := (← get).heap.size
  let count ← ofExcept ((← get).heap.reserve limits size)
  modify fun scene => { scene with heap := scene.heap.grow count }
  return .int (Int32.ofNat first)

def print (line : String) : Work Unit :=
  modify fun scene => { scene with output := scene.output.push line }

end Work

/-- Calls a built-in. Printing gives no result. -/
def Builtin.work (limits : Limits) (args : List Value) (builtin : Builtin) :
    Work (Option Value) :=
  match builtin, args with
  | .printInt, [value] | .printBool, [value] | .printStr, [value] => do
      Work.print value.text
      return none
  | .printStr, [] => do
      Work.print ""
      return none
  | .malloc, [.int size] => do return some (← Work.allocate limits size)
  | .malloc, [other] => throw (.typeMismatch (.mallocSize other.type))
  | builtin, args => throw (.arityMismatch builtin.name 1 args.length)

/-- Carries out an instruction, up to where the loop goes on. -/
def Inst.work (program : Program) (limits : Limits) : Inst → Work Control
  | .binary op dst left right => do
      let left ← Work.eval left
      let right ← Work.eval right
      let value ← ofExcept (op.eval left right)
      Work.assign dst value
      return .proceed
  | .unary op dst src => do
      let operand ← Work.eval src
      let value ← ofExcept (op.eval operand)
      Work.assign dst value
      return .proceed
  | .move dst src => do
      let value ← Work.eval src
      Work.assign dst value
      return .proceed
  | .load dst address => do
      let index ← Work.address address
      let value ← Work.read index
      Work.assign dst value
      return .proceed
  | .store address src => do
      let value ← Work.eval src
      let index ← Work.address address
      Work.write index value
      return .proceed
  | .label _ => return .proceed
  | .jump target => do return .jump (← Work.labelIndex target)
  | .branch op left right target => do
      let left ← Work.eval left
      let right ← Work.eval right
      if ← ofExcept (op.eval left right) then return .jump (← Work.labelIndex target)
      else return .proceed
  | .call name args dst => do
      let values ← args.mapM Work.eval
      match Builtin.ofName? name with
      | some builtin =>
          if let some value ← builtin.work limits values then
            if let some dst := dst then Work.assign dst value
          return .proceed
      | none =>
          match program.callee? name with
          | none => throw (.undefinedFunction name)
          | some callee =>
              ofExcept (checkArity name callee.params.length values.length)
              return .enter callee values dst
  | .ret none => return .leave .undefined
  | .ret (some source) => do return .leave (← Work.eval source)

/-! ## Effects in place -/

namespace Effect

/-- How the loop goes on after an effect. -/
def control : Effect → Control
  | .jump index => .jump index
  | .enter callee args dst => .enter callee args dst
  | .leave value => .leave value
  | _ => .proceed

/-- The scene after an effect. -/
def settle (scene : Scene) : Effect → Scene
  | .assign dst value => { scene with frame := scene.frame.assign dst value }
  | .store slot value => { scene with heap := scene.heap.set slot value }
  | .allocate count dst =>
      { scene with
        frame := scene.frame.assign? dst (.int (Int32.ofNat scene.heap.size))
        heap := scene.heap.grow count }
  | .print line => { scene with output := scene.output.push line }
  | _ => scene

/-- The result of work that finds an effect and has it at the end. -/
def result (scene : Scene) : Except Fault Effect → EStateM.Result Fault Scene Control
  | .error cause => .error cause scene
  | .ok effect => .ok effect.control (effect.settle scene)

end Effect

section Effects

variable {α : Type} {work : Work α} {scene : Scene} {found : Except Fault α}

/-- What comes after something was looked up in a scene. -/
def Work.follow {β : Type} (scene : Scene) (next : α → Work β) :
    Except Fault α → EStateM.Result Fault Scene β
  | .error cause => .error cause scene
  | .ok value => next value scene

/-- Work that only looks something up or checks it: it changes nothing, whether it fails or not. -/
def Looks (work : Work α) (scene : Scene) (found : Except Fault α) : Prop :=
  work scene = Work.follow scene pure found

namespace Looks

theorem ofExcept (scene : Scene) (found : Except Fault α) : Looks (ofExcept found) scene found := by
  cases found <;> rfl

/-- What comes after a look finds the scene as it was. -/
theorem bind_apply {β : Type} (h : Looks work scene found) (next : α → Work β) :
    (work >>= next) scene = Work.follow scene next found := by
  unfold Looks at h
  change EStateM.bind work next scene = _
  rw [EStateM.bind, h]
  cases found <;> rfl

/-- Looks follow each other as they do without a scene. -/
theorem bind {β : Type} {next : α → Work β} {later : α → Except Fault β}
    (h : Looks work scene found) (hnext : ∀ value, Looks (next value) scene (later value)) :
    Looks (work >>= next) scene (found >>= later) := by
  refine (h.bind_apply next).trans ?_
  cases found with
  | error => rfl
  | ok value => exact hnext value

/-- A look may come before what finds an effect. -/
theorem result_bind {next : α → Work Control} {later : α → Except Fault Effect}
    (h : Looks work scene found)
    (hnext : ∀ value, next value scene = Effect.result scene (later value)) :
    (work >>= next) scene = Effect.result scene (found >>= later) := by
  rw [h.bind_apply]
  cases found with
  | error => rfl
  | ok value => exact hnext value

theorem eval (scene : Scene) (source : Source) :
    Looks (Work.eval source) scene (scene.frame.eval source) :=
  ofExcept scene (scene.frame.eval source)

theorem labelIndex (scene : Scene) (label : String) :
    Looks (Work.labelIndex label) scene (scene.frame.labelIndex label) :=
  ofExcept scene (scene.frame.labelIndex label)

theorem address (scene : Scene) (address : Address) :
    Looks (Work.address address) scene (scene.frame.address address) := by
  apply (eval scene address.base).bind
  intro base
  cases base <;> rfl

theorem read (scene : Scene) (index : Int) :
    Looks (Work.read index) scene
      (scene.heap.slot index >>= fun slot => pure ((scene.heap.get? slot).getD .undefined)) := by
  apply (ofExcept scene (scene.heap.slot index)).bind
  intro slot
  rfl

theorem evalAll (scene : Scene) (sources : List Source) :
    Looks (sources.mapM Work.eval) scene (scene.frame.evalAll sources) := by
  induction sources with
  | nil => rfl
  | cons source rest ih =>
      rw [List.mapM_cons]
      apply (eval scene source).bind
      intro value
      apply ih.bind
      intro values
      rfl

end Looks

theorem Work.write_apply (scene : Scene) (index : Int) (value : Value) :
    write index value scene =
      follow scene (fun slot => set { scene with heap := scene.heap.set slot value })
        (scene.heap.slot index) :=
  (Looks.ofExcept scene (scene.heap.slot index)).bind_apply _

theorem Work.allocate_apply (limits : Limits) (scene : Scene) (size : Int32) :
    allocate limits size scene =
      follow scene
        (fun count => do
          set { scene with heap := scene.heap.grow count }
          return .int (Int32.ofNat scene.heap.size))
        (scene.heap.reserve limits size) :=
  (Looks.ofExcept scene (scene.heap.reserve limits size)).bind_apply _

/-- What a call of a built-in does in place is the effect that it has. -/
theorem Builtin.work_eq (limits : Limits) (scene : Scene) (values : List Value)
    (dst : Option Dest) (builtin : Builtin) :
    (do
      if let some value ← builtin.work limits values then
        if let some dst := dst then Work.assign dst value
      return Control.proceed : Work Control) scene =
      Effect.result scene (builtin.effect limits scene.heap values dst) := by
  match values with
  | [] => cases builtin <;> rfl
  | [value] =>
      cases builtin with
      | malloc =>
          cases value with
          | int size =>
              change EStateM.bind (EStateM.bind (Work.allocate limits size) _) _ scene =
                Effect.result scene (scene.heap.reserve limits size >>= _)
              rw [EStateM.bind, EStateM.bind, Work.allocate_apply]
              cases scene.heap.reserve limits size with
              | error => rfl
              | ok count => cases dst <;> rfl
          | _ => rfl
      | _ => rfl
  | _ :: _ :: _ => cases builtin <;> simp only [work, effect] <;> rfl

/-- What an instruction does in place is the effect that it has, with room for the call that it may
be: whatever it checks comes before what it changes. -/
theorem Inst.work_eq (program : Program) (limits : Limits) (scene : Scene) (inst : Inst) :
    inst.work program limits scene =
      Effect.result scene
        (inst.effect program (.heapOnly limits.maxHeapSlots) 0 scene.frame scene.heap) := by
  cases inst with
  | binary op dst left right =>
      apply (Looks.eval scene left).result_bind
      intro left
      apply (Looks.eval scene right).result_bind
      intro right
      apply (Looks.ofExcept scene (op.eval left right)).result_bind
      intro value
      rfl
  | unary op dst src =>
      apply (Looks.eval scene src).result_bind
      intro operand
      apply (Looks.ofExcept scene (op.eval operand)).result_bind
      intro value
      rfl
  | move dst src =>
      apply (Looks.eval scene src).result_bind
      intro value
      rfl
  | load dst address =>
      apply (Looks.address scene address).result_bind
      intro index
      trans Effect.result scene ((scene.heap.slot index >>= fun slot =>
        pure ((scene.heap.get? slot).getD .undefined)) >>= fun value => pure (.assign dst value))
      · apply (Looks.read scene index).result_bind
        intro value
        rfl
      · rw [bind_assoc]
        rfl
  | store address src =>
      apply (Looks.eval scene src).result_bind
      intro value
      apply (Looks.address scene address).result_bind
      intro index
      change EStateM.bind (Work.write index value) _ scene = _
      rw [EStateM.bind, Work.write_apply]
      cases scene.heap.slot index <;> rfl
  | label => rfl
  | jump target =>
      apply (Looks.labelIndex scene target).result_bind
      intro index
      rfl
  | branch op left right target =>
      apply (Looks.eval scene left).result_bind
      intro left
      apply (Looks.eval scene right).result_bind
      intro right
      apply (Looks.ofExcept scene (op.eval left right)).result_bind
      intro holds
      cases holds with
      | false => rfl
      | true =>
          apply (Looks.labelIndex scene target).result_bind
          intro index
          rfl
  | call name args dst =>
      apply (Looks.evalAll scene args).result_bind
      intro values
      cases hname : Builtin.ofName? name with
      | some builtin => exact builtin.work_eq limits scene values dst
      | none =>
          cases program.callee? name with
          | none => rfl
          | some callee =>
              apply (Looks.ofExcept scene (checkArity name _ _)).result_bind
              intro _
              rfl
  | ret src =>
      cases src with
      | none => rfl
      | some src =>
          apply (Looks.eval scene src).result_bind
          intro value
          rfl

end Effects

/-! ## The loop in place -/

namespace Loop

/-- Carries out work on the activation on top of the stack; `rest` are those below it. -/
def onTop {α : Type} (top : Frame) (rest : List Frame) (work : Work α) : EStateM Fault Loop α :=
  fun loop =>
    let set (scene : Scene) : Loop :=
      { loop with stack := scene.frame :: rest, heap := scene.heap, output := scene.output }
    match work ⟨top, loop.heap, loop.output⟩ with
    | .ok value scene => .ok value (set scene)
    | .error cause scene => .error cause (set scene)

def updateTop (update : Frame → Frame) (loop : Loop) : Loop :=
  { loop with stack := loop.stack.modifyHead update }

/-- Ends the activation on top of the stack, and the loop with the last one. -/
def finish (value : Value) : EStateM RunError Loop (Option Value) := do
  match (← get).stack with
  | [] => return some value
  | finished :: rest =>
      modify fun loop => { loop with stack := rest }
      match rest with
      | [] => return some value
      | _ :: _ =>
          modify (updateTop (·.assign? finished.resultDest value))
          return none

/-- Goes on as an instruction says; `fault` says where it is. The activation is past its call before
the depth of the callee is checked. -/
def goOn (limits : Limits) (fault : Fault → RunError) :
    Control → EStateM RunError Loop (Option Value)
  | .proceed => do
      modify (updateTop Frame.advance)
      return none
  | .jump index => do
      modify (updateTop (·.goto index))
      return none
  | .enter callee args dst => do
      modify (updateTop Frame.advance)
      let check : EStateM Fault Loop Unit := do
        ofExcept (limits.checkDepth ((← get).stack.length + 1))
      check.adaptExcept fault
      modify fun loop => { loop with stack := .enter callee args dst :: loop.stack }
      return none
  | .leave value => finish value

/-- Executes an instruction that has been counted. -/
def execute (program : Program) (limits : Limits) (top : Frame) (rest : List Frame)
    (inst : Inst) : EStateM Fault Loop Control := do
  ofExcept (limits.checkSteps (← get).steps)
  onTop top rest (inst.work program limits)

/-- A turn of the loop in place, which gives the value of the run when it ends. -/
def turnInPlace (program : Program) (limits : Limits) :
    EStateM RunError Loop (Option Value) := do
  match (← get).stack with
  | [] => return some .undefined
  | top :: rest =>
      match top.next? with
      | none => finish .undefined
      | some inst =>
          let fault := RunError.fault top.function.name top.index inst
          modify fun loop => { loop with steps := loop.steps + 1 }
          goOn limits fault (← (execute program limits top rest inst).adaptExcept fault)

/-- Two loops have the same activations with the same bindings, the same heap and the same lines.
They may differ in where their activations are, and in how many instructions were counted. -/
structure Agrees (left right : Loop) : Prop where
  stack : left.stack.map (·.goto 0) = right.stack.map (·.goto 0)
  heap : left.heap = right.heap
  output : left.output = right.output

/-- What a turn in place leaves where a step leads to a state. -/
inductive Realizes : Step → EStateM.Result RunError Loop (Option Value) → Prop
  | running {next : State} : Realizes (.running next) (.ok none (ofState next))
  | returned {value : Value} {last : State} :
      Realizes (.returned value last) (.ok (some value) { ofState last with stack := [] })
  | failed {error : RunError} {last : State} {loop : Loop} (h : loop.Agrees (ofState last)) :
      Realizes (.failed error last) (.error error loop)

theorem Realizes.of_eq {next : State} {loop : Loop} (h : loop = ofState next) :
    Realizes (.running next) (.ok none loop) :=
  h ▸ .running

variable {program : Program} {limits : Limits} {state : State} {inst : Inst}

theorem get_bind {α : Type} (next : Loop → EStateM RunError Loop α) (loop : Loop) :
    (get >>= next) loop = next loop loop :=
  rfl

/-- The loop after an effect, before it goes on. -/
def settled (state : State) (effect : Effect) : Loop :=
  let scene := effect.settle ⟨state.top, state.heap, state.output⟩
  ⟨scene.frame :: state.waiting, scene.heap, state.steps, scene.output⟩

theorem onTop_work (program : Program) (limits : Limits) (state : State) (inst : Inst) :
    onTop state.top state.waiting (inst.work program limits) (ofState state) =
      match inst.effect program (.heapOnly limits.maxHeapSlots) 0 state.top state.heap with
      | .error cause => .error cause (ofState state)
      | .ok effect => .ok effect.control (settled state effect) := by
  unfold onTop
  simp only [Inst.work_eq, ofState]
  cases inst.effect program (.heapOnly limits.maxHeapSlots) 0 state.top state.heap <;> rfl

/-- An instruction that has been counted is checked before it changes anything. -/
theorem execute_eq (program : Program) (limits : Limits) (state : State) (inst : Inst) :
    execute program limits state.top state.waiting inst
        (ofState { state with steps := state.steps + 1 }) =
      match (do
        limits.checkSteps (state.steps + 1)
        inst.effect program (.heapOnly limits.maxHeapSlots) 0 state.top state.heap) with
      | .error cause => .error cause (ofState { state with steps := state.steps + 1 })
      | .ok effect =>
          .ok effect.control (settled { state with steps := state.steps + 1 } effect) := by
  change EStateM.bind (ofExcept (limits.checkSteps (state.steps + 1))) _ _ = _
  rw [EStateM.bind]
  cases limits.checkSteps (state.steps + 1) with
  | error => rfl
  | ok => exact onTop_work program limits { state with steps := state.steps + 1 } inst

theorem turnInPlace_of_next (hnext : state.top.next? = some inst) :
    let fault := RunError.fault state.top.function.name state.top.index inst
    turnInPlace program limits (ofState state) =
      match (do
        limits.checkSteps (state.steps + 1)
        inst.effect program (.heapOnly limits.maxHeapSlots) 0 state.top state.heap) with
      | .error cause => .error (fault cause) (ofState { state with steps := state.steps + 1 })
      | .ok effect =>
          goOn limits fault effect.control
            (settled { state with steps := state.steps + 1 } effect) := by
  intro fault
  have hturn : turnInPlace program limits (ofState state) =
      EStateM.bind ((execute program limits state.top state.waiting inst).adaptExcept fault)
        (goOn limits fault) (ofState { state with steps := state.steps + 1 }) := by
    rw [turnInPlace, get_bind]
    simp only [ofState, State.frames, hnext]
    rfl
  rw [hturn, EStateM.bind, EStateM.adaptExcept, execute_eq]
  cases limits.checkSteps (state.steps + 1) >>= fun _ =>
    inst.effect program (.heapOnly limits.maxHeapSlots) 0 state.top state.heap <;> rfl

theorem turnInPlace_of_end (hnext : state.top.next? = none) :
    turnInPlace program limits (ofState state) = finish .undefined (ofState state) := by
  rw [turnInPlace, get_bind]
  simp only [ofState, State.frames, hnext]

theorem finish_realizes (state : State) (value : Value) :
    Realizes (state.leave value) (finish value (ofState state)) := by
  rw [State.leave_eq]
  cases hwaiting : state.waiting with
  | nil =>
      have hfinish : finish value (ofState state) =
          .ok (some value) { ofState state with stack := [] } := by
        rw [finish, get_bind]
        simp only [ofState, State.frames, hwaiting]
        rfl
      rw [hfinish]
      exact .returned
  | cons caller rest =>
      have hfinish : finish value (ofState state) =
          .ok none { ofState state with
            stack := caller.assign? state.top.resultDest value :: rest } := by
        rw [finish, get_bind]
        simp only [ofState, State.frames, hwaiting]
        rfl
      rw [hfinish]
      exact .of_eq (by simp [ofState, State.frames])

/-- An activation that calls too deep is past its call, and there is no other trace of the call. -/
theorem goOn_enter (fault : Fault → RunError) (loop : Loop) (callee : Function)
    (args : List Value) (dst : Option Dest) :
    goOn limits fault (.enter callee args dst) loop =
      match limits.checkDepth (loop.stack.length + 1) with
      | .error cause => .error (fault cause) (loop.updateTop Frame.advance)
      | .ok () =>
          .ok none { loop.updateTop Frame.advance with
            stack := .enter callee args dst :: (loop.updateTop Frame.advance).stack } := by
  have hlength : (loop.updateTop Frame.advance).stack.length = loop.stack.length :=
    List.length_modifyHead
  rw [← hlength]
  change EStateM.bind (EStateM.adaptExcept fault
    (ofExcept (limits.checkDepth ((loop.updateTop Frame.advance).stack.length + 1)))) _
    (loop.updateTop Frame.advance) = _
  cases limits.checkDepth ((loop.updateTop Frame.advance).stack.length + 1) <;> rfl

/-- A turn in place does what a step does. -/
theorem turnInPlace_realizes (program : Program) (limits : Limits) (state : State) :
    Realizes (state.step program limits) (turnInPlace program limits (ofState state)) := by
  cases hnext : state.top.next? with
  | none =>
      rw [State.step_of_end hnext, turnInPlace_of_end hnext]
      exact finish_realizes state .undefined
  | some inst =>
      rw [turnInPlace_of_next hnext]
      cases hcheck : limits.checkSteps (state.steps + 1) with
      | error cause =>
          rw [State.step_of_checkSteps hnext hcheck]
          exact .failed ⟨rfl, rfl, rfl⟩
      | ok =>
          rw [State.step_of_room program hnext hcheck]
          simp only [bind, Except.bind]
          cases heffect :
              inst.effect program (.heapOnly limits.maxHeapSlots) 0 state.top state.heap with
          | error cause => exact .failed ⟨rfl, rfl, rfl⟩
          | ok effect =>
            cases effect with
            | leave value => exact finish_realizes { state with steps := state.steps + 1 } value
            | enter callee args dst =>
                simp only [Effect.control, goOn_enter, Effect.limited]
                have hdepth : (settled { state with steps := state.steps + 1 }
                    (.enter callee args dst)).stack.length = state.depth := state.depth_eq.symm
                rw [hdepth]
                cases limits.checkDepth (state.depth + 1) with
                | error cause => exact .failed ⟨rfl, rfl, rfl⟩
                | ok =>
                    apply Realizes.of_eq
                    simp [settled, Effect.settle, ofState, State.frames, State.waiting, updateTop]
            | _ => exact .running

/-- Up to `fuel` turns in place. -/
def turnsInPlace (program : Program) (limits : Limits) :
    Nat → EStateM RunError Loop (Option Value)
  | 0 => return none
  | fuel + 1 => do
      match ← turnInPlace program limits with
      | some value => return some value
      | none => turnsInPlace program limits fuel

theorem turnsInPlace_realizes (program : Program) (limits : Limits) (fuel : Nat) (state : State) :
    Realizes (state.advance program limits fuel)
      (turnsInPlace program limits fuel (ofState state)) := by
  induction fuel generalizing state with
  | zero => exact .running
  | succ fuel ih =>
      have hturn := turnInPlace_realizes program limits state
      change Realizes _ (EStateM.bind (turnInPlace program limits) _ (ofState state))
      rw [State.advance, EStateM.bind]
      generalize turnInPlace program limits (ofState state) = result at hturn
      generalize state.step program limits = step at hturn
      cases hturn with
      | running => exact ih _
      | returned => exact .returned
      | failed h => exact .failed h

/-- The outcome of turns in place, if they ended the run. -/
def execution? : EStateM.Result RunError Loop (Option Value) → Option Execution
  | .ok none _ => none
  | .ok (some value) loop => some ⟨loop.output.toList, .ok value⟩
  | .error error loop => some ⟨loop.output.toList, .error error⟩

theorem Realizes.execution?_eq {step : Step}
    {result : EStateM.Result RunError Loop (Option Value)} (h : Realizes step result) :
    execution? result = step.execution? := by
  cases h with
  | failed h => rw [execution?, h.output]; rfl
  | _ => rfl

end Loop

/-- The outcome of a program that is carried out in place, unless it takes more than `fuel` turns. -/
def Program.runInPlace? (program : Program) (limits : Limits) (fuel : Nat) : Option Execution :=
  match program.main? with
  | none => some ⟨[], .error .missingMain⟩
  | some main => Loop.execution? (Loop.turnsInPlace program limits fuel (.initial main))

/-- In place a program does what it does in steps. -/
theorem Program.runInPlace?_eq (program : Program) (limits : Limits) (fuel : Nat) :
    program.runInPlace? limits fuel = program.run? limits fuel := by
  rw [runInPlace?, run?]
  cases program.main? with
  | none => rfl
  | some main =>
      exact (Loop.turnsInPlace_realizes program limits fuel (.initial main)).execution?_eq

namespace State

variable {program : Program} {limits : Limits} {state : State} {error : RunError} {left : Loop}

/-- An instruction that fails in place, because of what it does or at a limit, leaves the bindings
of every activation, the heap and the lines as they were, although nothing is taken back. The run
ends there, with the lines from before the instruction and an error that says where it is and why it
failed. -/
theorem Reachable.failure_changes_nothing (h : Reachable program limits state)
    (hfailed : Loop.turnInPlace program limits (.ofState state) = .error error left) :
    left.Agrees (.ofState state) ∧
    ∃ inst cause, state.top.next? = some inst ∧
      (limits.checkSteps (state.steps + 1) >>= fun _ =>
        inst.effect program limits state.depth state.top state.heap) = .error cause ∧
      error = .fault state.top.function.name state.top.index inst cause ∧
      ∃ fuel, program.run? limits fuel = some ⟨state.output.toList, .error error⟩ ∧
        program.runInPlace? limits fuel = program.run? limits fuel := by
  have hturn := Loop.turnInPlace_realizes program limits state
  rw [hfailed] at hturn
  cases hstep : state.step program limits with
  | running | returned =>
      rw [hstep] at hturn
      cases hturn
  | failed found last =>
      rw [hstep] at hturn
      cases hturn with
      | failed hagrees =>
          obtain ⟨rfl, inst, cause, hnext, herror, hcause⟩ := step_eq_failed hstep
          obtain ⟨fuel, hrun⟩ := h.run?_of_failed hstep
          exact ⟨hagrees, inst, cause, hnext, hcause, herror, fuel, hrun,
            program.runInPlace?_eq limits fuel⟩

end State

namespace Program

/-- Prints, allocates and stores, and then calls itself. -/
def recurring : Program where
  functions := [
    { name := "main", params := [], locals := [],
      code := [
        .call "printInt" [.int 7] none,
        .call "malloc" [.int 2] (some (.temp 0)),
        .store ⟨.temp 0, 0⟩ (.int 5),
        .call "main" [] none] }]

/-- The state of `recurring` before the call. -/
def beforeRecurring : State where
  top := ⟨recurring.functions[0], 3, .set .empty (.temp 0) (.int 0), none⟩
  callers := #[]
  heap := ⟨#[.int 5, .undefined]⟩
  steps := 3
  output := #["7"]

/-- Where one activation may be, the call fails past itself, and is to blame all the same. -/
theorem failure_changes_nothing_recurring :
    State.Reachable recurring ⟨1, none, 2⟩ beforeRecurring ∧
    ∃ left, Loop.turnInPlace recurring ⟨1, none, 2⟩ (.ofState beforeRecurring) =
        .error (.fault "main" 3 (.call "main" [] none) (.limitExceeded (.depth 2 1))) left ∧
      left.stack.map Frame.index = [4] ∧ left.steps = 4 ∧
      left.Agrees (.ofState beforeRecurring) ∧
      ∃ fuel, recurring.run? ⟨1, none, 2⟩ fuel = some ⟨["7"], .error
        (.fault "main" 3 (.call "main" [] none) (.limitExceeded (.depth 2 1)))⟩ := by
  have hreachable : State.Reachable recurring ⟨1, none, 2⟩ beforeRecurring := ⟨_, 3, rfl, rfl⟩
  refine ⟨hreachable, _, rfl, rfl, rfl, ?_⟩
  obtain ⟨hagrees, _, _, _, _, _, fuel, hrun, _⟩ := hreachable.failure_changes_nothing rfl
  exact ⟨hagrees, fuel, hrun⟩

end Program

end ThreeAddress
