import ThreeAddress.Eval.Heap
import ThreeAddress.Eval.Operators

/-!
# Running a program

A run is a sequence of steps between states. A state is a stack of activations
(frames), the heap, and what has been printed. A step first works out the effect
of the next instruction, which may fault and changes nothing, and then applies
that effect, which cannot fail.
-/

namespace ThreeAddress

/-- One activation of a function. -/
structure Frame where
  function : Function
  /-- The index of the next instruction. -/
  index : Nat
  bindings : Bindings
  /-- Where the caller wants the result. -/
  resultDest : Option Dest
deriving DecidableEq, Repr, Inhabited

namespace Frame

def enter (function : Function) (args : List Value) (resultDest : Option Dest) : Frame :=
  ⟨function, 0, .ofParams function.params args, resultDest⟩

def eval (frame : Frame) : Source → Except Fault Value
  | .temp number =>
      match frame.bindings.get? (.temp number) with
      | some value => .ok value
      | none => .error (.undefinedTemp number)
  | .var name =>
      match frame.bindings.get? (.var name) with
      | some value => .ok value
      | none => .error (.undefinedVariable name)
  | .int value => .ok (.int value)
  | .bool value => .ok (.bool value)
  | .str text => .ok (.str text)

/-- The values of operands from left to right, up to the first fault. -/
def evalAll (frame : Frame) : List Source → Except Fault (List Value)
  | [] => .ok []
  | source :: rest => do
      let value ← frame.eval source
      let values ← frame.evalAll rest
      return value :: values

/-- The heap index that an address stands for. -/
def address (frame : Frame) (address : Address) : Except Fault Int := do
  match ← frame.eval address.base with
  | .int base => return base.toInt + address.offset.toInt
  | other => throw (.typeMismatch (.addressBase other.type))

def labelIndex (frame : Frame) (label : String) : Except Fault Nat :=
  match frame.function.labelIndex? label with
  | some index => .ok index
  | none => .error (.undefinedLabel label)

def next? (frame : Frame) : Option Inst :=
  frame.function.code[frame.index]?

end Frame

/-- What an instruction does, once its operands are known. -/
inductive Effect where
  | skip
  | assign (dst : Dest) (value : Value)
  | store (slot : Nat) (value : Value)
  | allocate (count : Nat) (dst : Option Dest)
  | print (line : String)
  | jump (index : Nat)
  | enter (callee : Function) (args : List Value) (dst : Option Dest)
  | leave (value : Value)
deriving DecidableEq, Repr

def checkArity (callee : String) (expected got : Nat) : Except Fault Unit :=
  if expected = got then .ok () else .error (.arityMismatch callee expected got)

/-- The effect of a call to a built-in. Printing gives no result. -/
def Builtin.effect (limits : Limits) (heap : Heap) (args : List Value) (dst : Option Dest)
    (builtin : Builtin) : Except Fault Effect :=
  match builtin, args with
  | .printInt, [value] | .printBool, [value] | .printStr, [value] => .ok (.print value.text)
  | .printStr, [] => .ok (.print "")
  | .malloc, [.int size] => do
      let count ← heap.reserve limits size
      return .allocate count dst
  | .malloc, [other] => .error (.typeMismatch (.mallocSize other.type))
  | builtin, args => .error (.arityMismatch builtin.name 1 args.length)

/-- The effect of an instruction in the topmost of `depth` frames. -/
def Inst.effect (program : Program) (limits : Limits) (depth : Nat) (frame : Frame)
    (heap : Heap) : Inst → Except Fault Effect
  | .binary op dst left right => do
      let left ← frame.eval left
      let right ← frame.eval right
      return .assign dst (← op.eval left right)
  | .unary op dst src => do
      let operand ← frame.eval src
      return .assign dst (← op.eval operand)
  | .move dst src => do
      return .assign dst (← frame.eval src)
  | .load dst address => do
      let index ← frame.address address
      let slot ← heap.slot index
      return .assign dst ((heap.get? slot).getD .undefined)
  | .store address src => do
      let value ← frame.eval src
      let index ← frame.address address
      return .store (← heap.slot index) value
  | .label _ => .ok .skip
  | .jump target => do
      return .jump (← frame.labelIndex target)
  | .branch op left right target => do
      let left ← frame.eval left
      let right ← frame.eval right
      if ← op.eval left right then return .jump (← frame.labelIndex target)
      else return .skip
  | .call name args dst => do
      let args ← frame.evalAll args
      match Builtin.ofName? name with
      | some builtin => builtin.effect limits heap args dst
      | none =>
          match program.callee? name with
          | none => throw (.undefinedFunction name)
          | some callee =>
              checkArity name callee.params.length args.length
              limits.checkDepth (depth + 1)
              return .enter callee args dst
  | .ret none => .ok (.leave .undefined)
  | .ret (some source) => do
      return .leave (← frame.eval source)

/-- A run between two steps. -/
structure State where
  /-- The running activation. -/
  top : Frame
  /-- The activations that wait for it, the most recent one last. -/
  callers : Array Frame
  heap : Heap
  /-- The count of executed instructions, which starts over after the largest number. -/
  steps : UInt64
  output : Array String
deriving DecidableEq, Repr, Inhabited

/-- What a step leads to. -/
inductive Step where
  | running (state : State)
  | returned (value : Value) (state : State)
  | failed (error : RunError) (state : State)
deriving Repr

def Frame.assign (frame : Frame) (dst : Dest) (value : Value) : Frame :=
  { frame with bindings := frame.bindings.set dst value }

def Frame.assign? (frame : Frame) (dst : Option Dest) (value : Value) : Frame :=
  match dst with
  | some dst => frame.assign dst value
  | none => frame

def Frame.advance (frame : Frame) : Frame :=
  { frame with index := frame.index + 1 }

def Frame.goto (frame : Frame) (index : Nat) : Frame :=
  { frame with index := index }

namespace State

def initial (main : Function) : State :=
  ⟨.enter main [] none, #[], .empty, 0, #[]⟩

/-- How many activations there are. -/
def depth (state : State) : Nat := state.callers.size + 1

/-- Ends the running activation. -/
def leave (state : State) (value : Value) : Step :=
  match state.callers.back? with
  | none => .returned value state
  | some caller =>
      .running { state with
        top := caller.assign? state.top.resultDest value
        callers := state.callers.pop }

def apply (state : State) : Effect → Step
  | .skip => .running { state with top := state.top.advance }
  | .assign dst value => .running { state with top := (state.top.assign dst value).advance }
  | .store slot value =>
      .running { state with top := state.top.advance, heap := state.heap.set slot value }
  | .allocate count dst =>
      .running { state with
        top := (state.top.assign? dst (.int (Int32.ofNat state.heap.size))).advance
        heap := state.heap.grow count }
  | .print line =>
      .running { state with top := state.top.advance, output := state.output.push line }
  | .jump index => .running { state with top := state.top.goto index }
  | .enter callee args dst =>
      .running { state with
        top := .enter callee args dst
        callers := state.callers.push state.top.advance }
  | .leave value => state.leave value

/-- One step. Past the end of its code a function returns, which executes no instruction. -/
def step (program : Program) (limits : Limits) (state : State) : Step :=
  match state.top.next? with
  | none => state.leave .undefined
  | some inst =>
      let effect : Except Fault Effect := do
        limits.checkSteps (state.steps + 1)
        inst.effect program limits state.depth state.top state.heap
      match effect with
      | .error cause =>
          .failed (.fault state.top.function.name state.top.index inst cause) state
      | .ok effect => { state with steps := state.steps + 1 }.apply effect

/-- Up to `fuel` steps. -/
def advance (program : Program) (limits : Limits) : Nat → State → Step
  | 0, state => .running state
  | fuel + 1, state =>
      match state.step program limits with
      | .running next => advance program limits fuel next
      | stopped => stopped

end State

/-- The lines that a run printed, and the value that `main` returned or why it failed. -/
structure Execution where
  output : List String
  result : Except RunError Value
deriving Repr

/-- The outcome of a step that ended a run. -/
def Step.execution? : Step → Option Execution
  | running _ => none
  | returned value state => some ⟨state.output.toList, .ok value⟩
  | failed error state => some ⟨state.output.toList, .error error⟩

/-- The outcome of a program, unless it takes more than `fuel` steps. -/
def Program.run? (program : Program) (limits : Limits) (fuel : Nat) : Option Execution :=
  match program.main? with
  | none => some ⟨[], .error .missingMain⟩
  | some main => ((State.initial main).advance program limits fuel).execution?

end ThreeAddress
