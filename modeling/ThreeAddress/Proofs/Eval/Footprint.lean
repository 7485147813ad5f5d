import ThreeAddress.Proofs.Eval.Run

/-!
# What an instruction reads and writes

`Inst.uses` and `Inst.def?` say which bindings of its activation an instruction depends on
and which one it changes. A call is carried out when its callee has ended; until then the
activation waits and the callee knows nothing of its bindings. A call that prints changes
no binding, whatever destination it has.
-/

namespace ThreeAddress

/-- A call, but not of a built-in. -/
def Inst.CallsFunction (inst : Inst) : Prop :=
  ∃ name args dst, inst = .call name args dst ∧ Builtin.ofName? name = none

theorem Inst.CallsFunction.assignsPrint {inst : Inst} (h : inst.CallsFunction) :
    inst.assignsPrint = false := by
  obtain ⟨name, args, dst, rfl, hname⟩ := h
  cases dst <;> simp [Inst.assignsPrint, hname]

/-- The bindings of two activations before and after the same instruction. -/
structure Inst.Writes (inst : Inst) (left right left' right' : Bindings) : Prop where
  /-- Only its own destination may change. -/
  kept : ∀ {dest}, inst.def? ≠ some dest →
    left'.get? dest = left.get? dest ∧ right'.get? dest = right.get? dest
  /-- Its own destination has one new value in both. -/
  written : inst.assignsPrint = false → ∀ {dest}, inst.def? = some dest →
    ∃ value, left'.get? dest = some value ∧ right'.get? dest = some value
  /-- A call that prints writes none. -/
  printed : inst.assignsPrint = true → left' = left ∧ right' = right

namespace Inst.Writes

variable {program : Program} {limits : Limits} {depth : Nat} {frame : Frame} {heap : Heap}
  {inst : Inst} {effect : Effect}

/-- An effect that assigns no destination leaves the bindings as they are. -/
theorem of_dst?_eq_none (h : Performs program limits depth frame heap inst effect)
    (hdst : effect.dst? = none) (left right : Bindings) : inst.Writes left right left right where
  kept := fun _ => ⟨rfl, rfl⟩
  written := fun hprint _ hdef => by
    rw [← h.dst?_eq_def? hprint, hdst] at hdef
    cases hdef
  printed := fun _ => ⟨rfl, rfl⟩

/-- The destination of an instruction is assigned the same value in both activations. -/
theorem assign? (hprint : inst.assignsPrint = false) (left right : Frame) (value : Value) :
    inst.Writes left.bindings right.bindings (left.assign? inst.def? value).bindings
      (right.assign? inst.def? value).bindings := by
  cases hdef : inst.def? with
  | none =>
      refine ⟨fun _ => ⟨rfl, rfl⟩, fun _ _ hdest => ?_, fun _ => ⟨rfl, rfl⟩⟩
      cases hdef.symm.trans hdest
  | some dst =>
      have hget (frame : Frame) (dest : Dest) :
          (frame.assign? (some dst) value).bindings.get? dest =
            if dst = dest then some value else frame.bindings.get? dest :=
        frame.bindings.get?_set dst dest value
      refine ⟨fun {dest} hne => ?_, fun _ {dest} hdest => ?_, fun htrue => ?_⟩
      · have hdst : dst ≠ dest := fun heq => hne (hdef.trans (congrArg some heq))
        rw [hget, hget, if_neg hdst, if_neg hdst]
        exact ⟨rfl, rfl⟩
      · obtain rfl := Option.some.inj (hdef.symm.trans hdest)
        exact ⟨value, (hget left dst).trans (if_pos rfl), (hget right dst).trans (if_pos rfl)⟩
      · cases hprint.symm.trans htrue

end Inst.Writes

/-- An effect assigns the destination of its instruction if it assigns any. -/
theorem Performs.def?_of_dst? {program : Program} {limits : Limits} {depth : Nat} {frame : Frame}
    {heap : Heap} {inst : Inst} {effect : Effect} {dst : Dest}
    (h : Performs program limits depth frame heap inst effect) (hdst : effect.dst? = some dst) :
    inst.assignsPrint = false ∧ inst.def? = some dst := by
  have hprint : inst.assignsPrint = false := by
    cases h with
    | allocate hname | enter hname =>
        obtain rfl := hdst
        simp [Inst.assignsPrint, hname]
    | print | printNothing => cases hdst
    | _ => rfl
  exact ⟨hprint, (h.dst?_eq_def? hprint).symm.trans hdst⟩

namespace State

variable {program : Program} {limits : Limits} {state : State} {inst : Inst} {bindings : Bindings}

/-- The state with other bindings in its running activation. -/
def rebind (state : State) (bindings : Bindings) : State :=
  { state with top := { state.top with bindings := bindings } }

/-- Where one instruction has one outcome, it fails in both states or has its effect in both. -/
theorem step_same (program : Program) (limits : Limits) (left right : State)
    (hnext : left.top.next? = some inst) (hfunction : left.top.function = right.top.function)
    (hindex : left.top.index = right.top.index) (hsteps : left.steps = right.steps)
    (heffect : inst.effect program limits left.depth left.top left.heap =
      inst.effect program limits right.depth right.top right.heap) :
    (∃ error, left.step program limits = .failed error left ∧
        right.step program limits = .failed error right) ∨
      ∃ effect, Performs program limits left.depth left.top left.heap inst effect ∧
        left.step program limits = { left with steps := left.steps + 1 }.apply effect ∧
        right.step program limits = { right with steps := right.steps + 1 }.apply effect := by
  have hnext' : right.top.next? = some inst := by
    rw [← hnext, Frame.next?, Frame.next?, hfunction, hindex]
  cases hresult : limits.checkSteps (left.steps + 1) >>= fun _ =>
      inst.effect program limits left.depth left.top left.heap with
  | error cause =>
      have hleft := step_of_error hnext hresult
      rw [hfunction, hindex] at hleft
      rw [hsteps, heffect] at hresult
      exact .inl ⟨_, hleft, step_of_error hnext' hresult⟩
  | ok effect =>
      obtain ⟨_, hcheck, hleft⟩ := Except.bind_eq_ok.mp hresult
      exact .inr ⟨effect, Inst.performs_of_effect hleft, step_eq_apply hnext hcheck hleft,
        step_eq_apply hnext' (hsteps ▸ hcheck) (heffect.symm.trans hleft)⟩

/-! ## Activations that wait -/

/-- Where the lowest of some activations wants its result, if the one above it wants its own at
`dest`. -/
def lowestDest (dest : Option Dest) : List Frame → Option Dest
  | [] => dest
  | frame :: below => lowestDest frame.resultDest below

/-- A state in which `caller` waits for activations above it. -/
def atop (state : State) (caller top : Frame) (between : List Frame) (heap : Heap) (steps : UInt64)
    (output : Array String) : State :=
  ⟨top, (between ++ caller :: state.waiting).reverse.toArray, heap, steps, output⟩

section Waiting

variable (state : State) (caller top : Frame) (between : List Frame) (heap : Heap) (steps : UInt64)
  (output : Array String)

@[simp] theorem waiting_atop :
    (state.atop caller top between heap steps output).waiting =
      between ++ caller :: state.waiting :=
  waiting_mk ..

theorem depth_atop :
    (state.atop caller top between heap steps output).depth =
      state.depth + between.length + 1 := by
  rw [depth_eq, depth_eq, waiting_atop, List.length_append, List.length_cons]
  omega

theorem apply_enter (callee : Function) (args : List Value) (dst : Option Dest) :
    state.apply (.enter callee args dst) =
      .running (state.atop state.top.advance (.enter callee args dst) [] state.heap state.steps
        state.output) := by
  rw [apply, atop, callers_eq]
  simp

theorem leave_atop (value : Value) :
    (state.atop caller top between heap steps output).leave value =
      match between with
      | [] =>
          .running ⟨caller.assign? top.resultDest value, state.callers, heap, steps, output⟩
      | frame :: rest =>
          .running (state.atop caller (frame.assign? top.resultDest value) rest heap steps
            output) := by
  rw [leave_eq, waiting_atop]
  cases between with
  | nil =>
      rw [callers_eq state]
      rfl
  | cons frame rest => rfl

theorem atop_atop (frame top' : Frame) (heap' : Heap) (steps' : UInt64) (output' : Array String) :
    (state.atop caller top between heap steps output).atop frame top' [] heap' steps' output' =
      state.atop caller top' (frame :: between) heap' steps' output' := by
  rw [atop, waiting_atop]
  rfl

/-- An effect does not look at the activations that wait. -/
theorem apply_atop {effect : Effect} (h : ∀ value, effect ≠ .leave value) :
    ∃ top' between' heap' output',
      lowestDest top'.resultDest between' = lowestDest top.resultDest between ∧
      ∀ caller, (state.atop caller top between heap steps output).apply effect =
        .running (state.atop caller top' between' heap' steps output') := by
  cases effect with
  | leave value => exact absurd rfl (h value)
  | skip => exact ⟨top.advance, between, heap, output, rfl, fun _ => rfl⟩
  | assign dst value =>
      exact ⟨(top.assign dst value).advance, between, heap, output, rfl, fun _ => rfl⟩
  | store slot value =>
      exact ⟨top.advance, between, heap.set slot value, output, rfl, fun _ => rfl⟩
  | allocate count dst =>
      exact ⟨(top.assign? dst (.int (Int32.ofNat heap.size))).advance, between, heap.grow count,
        output, congrArg (lowestDest · between) (Frame.resultDest_assign? top dst _),
        fun _ => rfl⟩
  | print line =>
      exact ⟨top.advance, between, heap, output.push line, rfl, fun _ => rfl⟩
  | jump index => exact ⟨top.goto index, between, heap, output, rfl, fun _ => rfl⟩
  | enter callee args dst =>
      refine ⟨.enter callee args dst, top.advance :: between, heap, output, rfl, fun caller => ?_⟩
      rw [apply_enter]
      exact congrArg Step.running (atop_atop ..)

end Waiting

/-- What `state` comes to, and what it would come to with other `bindings` in its activation,
after as many steps that carry out no more than its next instruction `inst`. -/
inductive Alike (inst : Inst) (state : State) (bindings : Bindings) : Step → Step → Prop
  /-- The instruction is done and the activation goes on. -/
  | goesOn {top : Frame} {bindings' : Bindings} {heap : Heap} {steps : UInt64}
      {output : Array String} :
      top.function = state.top.function → top.resultDest = state.top.resultDest →
      inst.Writes state.top.bindings bindings top.bindings bindings' →
      Alike inst state bindings (.running ⟨top, state.callers, heap, steps, output⟩)
        (.running ⟨{ top with bindings := bindings' }, state.callers, heap, steps, output⟩)
  /-- The activation waits for a callee. -/
  | calls {top : Frame} {between : List Frame} {heap : Heap} {steps : UInt64}
      {output : Array String} :
      inst.CallsFunction → lowestDest top.resultDest between = inst.def? →
      Alike inst state bindings
        (.running (state.atop state.top.advance top between heap steps output))
        (.running (state.atop (state.rebind bindings).top.advance top between heap steps output))
  /-- The instruction ended the activation. -/
  | ends {result : Option Source} {next : State} : inst = .ret result → next.depth < state.depth →
      Alike inst state bindings (.running next) (.running next)
  /-- The instruction ended the run. -/
  | returned {result : Option Source} {value : Value} {last : State} : inst = .ret result →
      Alike inst state bindings (.returned value last) (.returned value (last.rebind bindings))
  /-- The instruction failed, or one that its callee came to. -/
  | failed {error : RunError} {last last' : State} : last.heap = last'.heap →
      last.steps = last'.steps → last.output = last'.output →
      Alike inst state bindings (.failed error last) (.failed error last')

/-- An activation that ends takes its bindings with it. -/
theorem alike_leave (result : Option Source) (state : State) (bindings : Bindings) (steps : UInt64)
    (value : Value) :
    Alike (.ret result) state bindings ({ state with steps := steps }.leave value)
      (({ state with steps := steps }.rebind bindings).leave value) := by
  rw [leave_eq, leave_eq]
  change Alike _ state bindings (match state.waiting with | [] => _ | caller :: rest => _)
    (match state.waiting with | [] => _ | caller :: rest => _)
  cases hwaiting : state.waiting with
  | nil => exact .returned rfl
  | cons caller rest =>
      refine .ends rfl ?_
      rw [depth_eq, depth_eq, hwaiting, waiting_mk, List.length_cons]
      exact Nat.lt_succ_self _

/-- The first step carries out the instruction, or enters its callee. -/
theorem alike_step (program : Program) (limits : Limits) (hnext : state.top.next? = some inst)
    (huses : ∀ dest ∈ inst.uses, bindings.get? dest = state.top.bindings.get? dest) :
    Alike inst state bindings (state.step program limits)
      ((state.rebind bindings).step program limits) := by
  have hsame : inst.effect program limits state.depth state.top state.heap =
      inst.effect program limits state.depth (state.rebind bindings).top state.heap :=
    Inst.effect_congr rfl fun dest hdest => (huses dest hdest).symm
  rcases step_same program limits state (state.rebind bindings) hnext rfl rfl rfl hsame with
    ⟨error, hleft, hright⟩ | ⟨effect, hperforms, hleft, hright⟩
  · rw [hleft, hright]
    exact .failed rfl rfl rfl
  · rw [hleft, hright]
    cases effect with
    | assign dst value =>
        obtain ⟨hprint, hdef⟩ := hperforms.def?_of_dst? rfl
        have hwrites := Inst.Writes.assign? hprint state.top (state.rebind bindings).top value
        rw [hdef] at hwrites
        exact .goesOn rfl rfl hwrites
    | allocate count dst =>
        cases dst with
        | none => exact .goesOn rfl rfl (.of_dst?_eq_none hperforms rfl _ _)
        | some dst =>
            obtain ⟨hprint, hdef⟩ := hperforms.def?_of_dst? rfl
            have hwrites := Inst.Writes.assign? hprint state.top (state.rebind bindings).top
              (.int (Int32.ofNat state.heap.size))
            rw [hdef] at hwrites
            exact .goesOn rfl rfl hwrites
    | enter callee args dst =>
        cases hperforms with
        | enter hname =>
            rw [apply_enter, apply_enter]
            exact .calls ⟨_, _, _, rfl, hname⟩ rfl
    | leave value =>
        cases hperforms with
        | leave | leaveWith => exact alike_leave _ state bindings _ _
    | _ => exact .goesOn rfl rfl (.of_dst?_eq_none hperforms rfl _ _)

section Calls

variable {top : Frame} {between : List Frame} {heap : Heap} {steps : UInt64} {output : Array String}

theorem assign?_rebind (state : State) (bindings : Bindings) (dst : Option Dest) (value : Value) :
    (state.rebind bindings).top.advance.assign? dst value =
      { state.top.advance.assign? dst value with
        bindings := ((state.rebind bindings).top.advance.assign? dst value).bindings } := by
  cases dst <;> rfl

/-- The result of a call is assigned, whatever the activation holds. -/
theorem alike_leave_atop (hcalls : inst.CallsFunction)
    (hdest : lowestDest top.resultDest between = inst.def?) (value : Value) :
    Alike inst state bindings
      ((state.atop state.top.advance top between heap steps output).leave value)
      ((state.atop (state.rebind bindings).top.advance top between heap steps output).leave
        value) := by
  rw [leave_atop, leave_atop]
  cases between with
  | nil =>
      change top.resultDest = inst.def? at hdest
      have hwrites := Inst.Writes.assign? hcalls.assignsPrint state.top.advance
        (state.rebind bindings).top.advance value
      rw [hdest, assign?_rebind]
      exact .goesOn (Frame.function_assign? _ _ _) (Frame.resultDest_assign? _ _ _) hwrites
  | cons frame rest =>
      refine .calls hcalls (Eq.trans ?_ hdest)
      exact congrArg (lowestDest · rest) (Frame.resultDest_assign? frame top.resultDest value)

/-- A callee does not look at the activation that waits for it. -/
theorem alike_step_atop (program : Program) (limits : Limits) (hcalls : inst.CallsFunction)
    (hdest : lowestDest top.resultDest between = inst.def?) :
    Alike inst state bindings
      ((state.atop state.top.advance top between heap steps output).step program limits)
      ((state.atop (state.rebind bindings).top.advance top between heap steps output).step
        program limits) := by
  cases hnext : top.next? with
  | none =>
      rw [step_of_end hnext, step_of_end hnext]
      exact alike_leave_atop hcalls hdest .undefined
  | some next =>
      let left := state.atop state.top.advance top between heap steps output
      let right := state.atop (state.rebind bindings).top.advance top between heap steps output
      have hdepth : left.depth = right.depth := (depth_atop ..).trans (depth_atop ..).symm
      have hsame := congrArg (next.effect program limits · top heap) hdepth
      rcases step_same program limits left right hnext rfl rfl rfl hsame with
        ⟨error, hleft, hright⟩ | ⟨effect, _, hleft, hright⟩
      · rw [hleft, hright]
        exact .failed rfl rfl rfl
      · by_cases hleave : ∃ value, effect = .leave value
        · obtain ⟨value, rfl⟩ := hleave
          rw [hleft, hright]
          exact alike_leave_atop hcalls hdest value
        · obtain ⟨_, _, _, _, hlowest, happly⟩ :=
            apply_atop state top between heap (steps + 1) output (not_exists.mp hleave)
          rw [hleft.trans (happly _), hright.trans (happly _)]
          exact .calls hcalls (hlowest.trans hdest)

end Calls

/-- While no more than the next instruction is carried out, what becomes of a state depends on the
bindings of its activation only through those that the instruction reads. When the activation goes
on, no binding has changed but that of the destination that the instruction writes. That one has a
new value, unless the instruction is a call that prints. -/
theorem alike_advance (program : Program) (limits : Limits)
    (hnext : state.top.next? = some inst)
    (huses : ∀ dest ∈ inst.uses, bindings.get? dest = state.top.bindings.get? dest)
    {count : Nat} (hcount : 0 < count)
    (hwithin : ∀ {earlier next}, 0 < earlier → earlier < count →
      state.advance program limits earlier = .running next → state.depth < next.depth) :
    Alike inst state bindings (state.advance program limits count)
      ((state.rebind bindings).advance program limits count) := by
  obtain ⟨count, rfl⟩ := Nat.exists_eq_succ_of_ne_zero (Nat.pos_iff_ne_zero.mp hcount)
  induction count with
  | zero =>
      rw [advance_one, advance_one]
      exact alike_step program limits hnext huses
  | succ count ih =>
      have halike := ih (Nat.succ_pos _) fun hpos hlt => hwithin hpos (Nat.lt_succ_of_lt hlt)
      rw [Nat.succ_eq_add_one, advance_succ program limits state,
        advance_succ program limits (state.rebind bindings)]
      generalize hleft : state.advance program limits (count + 1) = left at halike
      generalize (state.rebind bindings).advance program limits (count + 1) = right at halike
      -- the instruction is not done before the last step, so its callee runs or the run is over
      cases halike with
      | goesOn =>
          exact absurd (hwithin (Nat.succ_pos _) (Nat.lt_succ_self _) hleft) (Nat.lt_irrefl _)
      | calls hcalls hdest => exact alike_step_atop program limits hcalls hdest
      | ends _ hlt =>
          exact absurd (hwithin (Nat.succ_pos _) (Nat.lt_succ_self _) hleft) (Nat.lt_asymm hlt)
      | returned hret => exact .returned hret
      | failed hheap hsteps houtput => exact .failed hheap hsteps houtput

end State

namespace Program

/-- Doubles a number that it keeps. -/
def doubling : Program where
  functions := [
    { name := "main", params := [], locals := [],
      code := [
        .move (.temp 0) (.int 4),
        .call "double" [.temp 0] (some (.temp 1)),
        .ret (some (.temp 1))] },
    { name := "double", params := ["n"], locals := [],
      code := [
        .binary (.arith .add) (.temp 0) (.var "n") (.var "n"),
        .ret (some (.temp 0))] }]

/-- The state of `doubling` before its call, in an activation with these bindings. -/
def doublingCalls (bindings : Bindings) : State where
  top := ⟨doubling.functions[0], 1, bindings, none⟩
  callers := #[]
  heap := .empty
  steps := 1
  output := #[]

/-- A call binds its result whatever was bound there, if anything was. -/
theorem alike_advance_doubling :
    let number := (Dest.temp 0, Value.int 4)
    State.Alike (.call "double" [.temp 0] (some (.temp 1)))
      (doublingCalls ⟨[number, (.temp 1, .str "old")]⟩) ⟨[number]⟩
      ((doublingCalls ⟨[number, (.temp 1, .str "old")]⟩).advance doubling .strict 3)
      ((doublingCalls ⟨[number]⟩).advance doubling .strict 3) ∧
    ((doublingCalls ⟨[number]⟩).advance doubling .strict 3).passes
      (·.top.bindings.get? (.temp 1) = some (.int 8)) = true := by
  refine ⟨State.alike_advance doubling .strict rfl ?_ (by decide) ?_, rfl⟩
  · intro dest hdest
    obtain rfl := List.mem_singleton.mp hdest
    rfl
  · intro earlier next hpos hlt hrun
    obtain rfl | rfl : earlier = 1 ∨ earlier = 2 := by omega
    all_goals
      obtain rfl := Step.running.inj hrun
      decide

/-- Binds what a line that it prints might have given it. -/
def printBound : Program where
  functions := [
    { name := "main", params := [], locals := [],
      code := [
        .call "printInt" [.int 1] (some (.temp 0)),
        .move (.temp 1) (.temp 0),
        .call "printStr" [.str "bound"] none,
        .ret (some (.int 0))] }]

/-- The destination of a call that prints stays unbound. -/
theorem run?_printBound :
    printBound.run? .standard 4 = some ⟨["1"], .error
      (.fault "main" 1 (.move (.temp 1) (.temp 0)) (.undefinedTemp 0))⟩ :=
  rfl

end Program

end ThreeAddress
