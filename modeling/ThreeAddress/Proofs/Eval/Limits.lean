import ThreeAddress.Proofs.Eval.Run

/-!
# Limits of a run

A run stops at a limit for calls that nest too deep or for too many
instructions. An instruction with room for one more call never does, and apart
from that room it does the same at any depth.
-/

namespace ThreeAddress

/-- Whether a run stopped because it called too deep or executed too many instructions. -/
def Fault.isRunLimit : Fault → Bool
  | .limitExceeded (.depth _ _) | .limitExceeded (.steps _ _) => true
  | _ => false

def RunError.isRunLimit : RunError → Bool
  | .missingMain => false
  | .fault _ _ _ cause => cause.isRunLimit

/-- Whether a run stopped at a limit for calls or instructions. -/
def Execution.overran (execution : Execution) : Bool :=
  match execution.result with
  | .ok _ => false
  | .error error => error.isRunLimit

/-- A bound on the heap, and room for one call. -/
def Limits.heapOnly (slots : Nat) : Limits := ⟨1, none, slots⟩

/-! ## Room for calls and instructions -/

/-- The number of instructions after which a run is stopped, if there is one. The count cannot go
beyond the largest number, which stops no run. -/
def Limits.stepBound? (limits : Limits) : Option Nat :=
  match limits.maxSteps with
  | some limit => if limit.toNat + 1 < UInt64.size then some limit.toNat else none
  | none => none

/-- A run may have executed that many instructions. -/
def Limits.Allows (limits : Limits) (steps : UInt64) : Prop :=
  ∀ bound, limits.stepBound? = some bound → steps.toNat ≤ bound

theorem Limits.checkSteps_cases (limits : Limits) (steps : UInt64) :
    (limits.checkSteps steps = .ok () ∧
        ∀ limit, limits.maxSteps = some limit → steps ≤ limit) ∨
      ∃ limit, limits.maxSteps = some limit ∧ limit < steps ∧
        limits.checkSteps steps = .error (.limitExceeded (.steps steps limit)) := by
  unfold checkSteps
  split
  next limit hlimit =>
    split
    next hlt => exact .inr ⟨limit, hlimit, hlt, rfl⟩
    next hle =>
      refine .inl ⟨rfl, fun other hother => ?_⟩
      obtain rfl := Option.some.inj (hlimit.symm.trans hother)
      exact UInt64.not_lt.mp hle
  next hnone => exact .inl ⟨rfl, fun limit hlimit => by simp [hnone] at hlimit⟩

theorem Limits.checkDepth_cases (limits : Limits) (depth : Nat) :
    (limits.checkDepth depth = .ok () ∧ depth ≤ limits.maxDepth) ∨
      limits.maxDepth < depth ∧
        limits.checkDepth depth = .error (.limitExceeded (.depth depth limits.maxDepth)) := by
  unfold checkDepth
  split
  next hlt => exact .inr ⟨hlt, rfl⟩
  next hle => exact .inl ⟨rfl, Nat.not_lt.mp hle⟩

/-- After `steps` instructions the topmost of `depth` activations may execute `more` of them, and
have `nesting` activations above it. -/
structure Limits.HasRoom (limits : Limits) (steps : UInt64) (depth more nesting : Nat) : Prop where
  steps : ∀ bound, limits.stepBound? = some bound → more ≤ bound - steps.toNat
  nesting : nesting ≤ limits.maxDepth - depth

namespace Limits

variable {limits : Limits} {steps : UInt64} {depth more nesting : Nat}

theorem stepBound?_eq_some_iff {bound : Nat} : limits.stepBound? = some bound ↔
    ∃ limit, limits.maxSteps = some limit ∧ limit.toNat = bound ∧ bound + 1 < UInt64.size := by
  unfold stepBound?
  split
  next limit hlimit =>
    split
    next hlt => grind
    next hge => grind
  next hnone => simp [hnone]

theorem allows_zero (limits : Limits) : limits.Allows 0 := fun _ _ => Nat.zero_le _

/-- A count that passes its check is allowed. -/
theorem allows_of_checkSteps (h : limits.checkSteps steps = .ok ()) : limits.Allows steps := by
  intro bound hbound
  obtain ⟨limit, hlimit, rfl, _⟩ := stepBound?_eq_some_iff.mp hbound
  rcases limits.checkSteps_cases steps with ⟨_, hle⟩ | ⟨_, _, _, herror⟩
  · exact UInt64.le_iff_toNat_le.mp (hle limit hlimit)
  · cases h.symm.trans herror

/-- A count that fails its check goes beyond the bound, so that there is one. -/
theorem exists_bound_of_checkSteps {cause : Fault} (h : limits.checkSteps steps = .error cause) :
    ∃ bound, limits.stepBound? = some bound ∧ bound < steps.toNat := by
  rcases limits.checkSteps_cases steps with ⟨hok, _⟩ | ⟨limit, hlimit, hlt, _⟩
  · cases hok.symm.trans h
  · have hlt := UInt64.lt_iff_toNat_lt.mp hlt
    have hlast : limit.toNat + 1 < UInt64.size := Nat.lt_of_le_of_lt hlt steps.toNat_lt
    exact ⟨_, stepBound?_eq_some_iff.mpr ⟨limit, hlimit, rfl, hlast⟩, hlt⟩

theorem hasRoom_nothing (limits : Limits) (steps : UInt64) (depth : Nat) :
    limits.HasRoom steps depth 0 0 :=
  ⟨fun _ _ => Nat.zero_le _, Nat.zero_le _⟩

/-- Where there is a bound, the count after an allowed one has not started over. -/
theorem Allows.toNat_succ (hallows : limits.Allows steps) {bound : Nat}
    (hbound : limits.stepBound? = some bound) : (steps + 1).toNat = steps.toNat + 1 := by
  obtain ⟨_, _, _, hlt⟩ := stepBound?_eq_some_iff.mp hbound
  have hsteps := hallows bound hbound
  rw [UInt64.toNat_add, Nat.mod_eq_of_lt]
  · rfl
  · exact Nat.lt_of_le_of_lt (Nat.succ_le_succ hsteps) hlt

/-- Where there is a bound, the count has not started over when it is reached. -/
theorem Allows.toNat_add (hallows : limits.Allows steps) {bound : Nat}
    (hbound : limits.stepBound? = some bound) (hmore : more ≤ bound - steps.toNat) :
    (steps + UInt64.ofNat more).toNat = steps.toNat + more := by
  obtain ⟨_, _, _, hlt⟩ := stepBound?_eq_some_iff.mp hbound
  have hsteps := hallows bound hbound
  rw [UInt64.toNat_add, UInt64.toNat_ofNat', Nat.add_mod_mod, Nat.mod_eq_of_lt]
  exact Nat.lt_trans (by omega) hlt

/-- What there is room for is allowed in the end. -/
theorem HasRoom.allows (h : limits.HasRoom steps depth more nesting)
    (hallows : limits.Allows steps) : limits.Allows (steps + UInt64.ofNat more) := by
  intro bound hbound
  have hmore := h.steps bound hbound
  have hsteps := hallows bound hbound
  rw [hallows.toNat_add hbound hmore]
  omega

/-- Where the next instruction may not be executed there is room for none. -/
theorem HasRoom.eq_zero_of_checkSteps {cause : Fault}
    (h : limits.HasRoom steps depth more nesting) (hallows : limits.Allows steps)
    (hcheck : limits.checkSteps (steps + 1) = .error cause) : more = 0 := by
  obtain ⟨bound, hbound, hlt⟩ := exists_bound_of_checkSteps hcheck
  have hmore := h.steps bound hbound
  have hsteps := hallows bound hbound
  have hcount := hallows.toNat_succ hbound
  omega

/-- Room for one thing after the other. -/
theorem hasRoom_add {more' nesting' : Nat} (hallows : limits.Allows steps) :
    limits.HasRoom steps depth (more + more') (max nesting nesting') ↔
      limits.HasRoom steps depth more nesting ∧
        limits.HasRoom (steps + UInt64.ofNat more) depth more' nesting' := by
  constructor
  · rintro ⟨hsteps, hnesting⟩
    refine ⟨⟨fun bound hbound => ?_, by omega⟩, ⟨fun bound hbound => ?_, by omega⟩⟩
    · have hall := hsteps bound hbound
      omega
    · have hall := hsteps bound hbound
      rw [hallows.toNat_add hbound (by omega)]
      omega
  · rintro ⟨⟨hsteps, hnesting⟩, ⟨hsteps', hnesting'⟩⟩
    refine ⟨fun bound hbound => ?_, by omega⟩
    have hmore := hsteps bound hbound
    have hmore' := hsteps' bound hbound
    have hallowed := hallows bound hbound
    rw [hallows.toNat_add hbound hmore] at hmore'
    omega

/-- Room for an instruction that may be executed, and for what follows it. -/
theorem hasRoom_succ_steps (hallows : limits.Allows steps) (hnext : limits.Allows (steps + 1)) :
    limits.HasRoom steps depth (more + 1) nesting ↔
      limits.HasRoom (steps + 1) depth more nesting := by
  have hone : limits.HasRoom steps depth 1 0 := by
    refine ⟨fun bound hbound => ?_, Nat.zero_le _⟩
    have hcount := hallows.toNat_succ hbound
    have hle := hnext bound hbound
    omega
  have hadd : limits.HasRoom steps depth (1 + more) (max 0 nesting) ↔
      limits.HasRoom steps depth 1 0 ∧ limits.HasRoom (steps + 1) depth more nesting :=
    hasRoom_add hallows
  rw [Nat.add_comm, Nat.zero_max] at hadd
  exact hadd.trans ⟨fun h => h.2, fun h => ⟨hone, h⟩⟩

/-- Room for an activation and for those above it. -/
theorem hasRoom_succ_nesting (hdepth : depth + 1 ≤ limits.maxDepth) :
    limits.HasRoom steps depth more (nesting + 1) ↔
      limits.HasRoom steps (depth + 1) more nesting := by
  constructor
  · rintro ⟨hsteps, hnesting⟩
    exact ⟨hsteps, by omega⟩
  · rintro ⟨hsteps, hnesting⟩
    exact ⟨hsteps, by omega⟩

end Limits

section Effects

variable {program : Program} {limits : Limits} {frame : Frame} {heap : Heap} {inst : Inst}
  {slots : Nat}

/-- An effect in the topmost of `depth` frames: a call needs room for one more. -/
def Effect.limited (limits : Limits) (depth : Nat) : Effect → Except Fault Effect
  | .enter callee args dst => do
      limits.checkDepth (depth + 1)
      return .enter callee args dst
  | effect => .ok effect

theorem Effect.limited_of_not_enter {effect : Effect}
    (h : ∀ callee args dst, effect ≠ .enter callee args dst) (limits : Limits) (depth : Nat) :
    effect.limited limits depth = .ok effect := by
  cases effect with
  | enter callee args dst => exact absurd rfl (h callee args dst)
  | _ => rfl

theorem Effect.bind_limited {result : Except Fault Effect}
    (h : ∀ callee args dst, result ≠ .ok (.enter callee args dst)) (limits : Limits)
    (depth : Nat) : result >>= Effect.limited limits depth = result := by
  cases result with
  | error cause => rfl
  | ok effect =>
      exact limited_of_not_enter (fun callee args dst heq => h callee args dst (by rw [heq]))
        limits depth

/-- Only a call of a function of the program enters one. -/
theorem Inst.of_enter {depth : Nat} {callee : Function} {args : List Value} {dst : Option Dest}
    (h : inst.effect program limits depth frame heap = .ok (.enter callee args dst)) :
    ∃ name sources, inst = .call name sources dst ∧ Builtin.ofName? name = none := by
  cases performs_of_effect h with
  | enter hname => exact ⟨_, _, rfl, hname⟩

/-- The depth of the stack matters to a call that enters a function, and to nothing else. -/
theorem Inst.effect_eq_heapOnly (program : Program) (limits : Limits) (depth : Nat)
    (frame : Frame) (heap : Heap) (inst : Inst) :
    inst.effect program limits depth frame heap =
      inst.effect program (.heapOnly limits.maxHeapSlots) 0 frame heap >>=
        Effect.limited limits depth := by
  by_cases hcall : ∃ name args dst, inst = .call name args dst ∧ Builtin.ofName? name = none
  · obtain ⟨name, args, dst, rfl, hname⟩ := hcall
    simp only [effect, bind_assoc, hname]
    cases frame.evalAll args with
    | error cause => rfl
    | ok values =>
        cases program.callee? name with
        | none => rfl
        | some callee =>
            simp only [bind, Except.bind]
            cases checkArity name callee.params.length values.length <;> rfl
  · -- no other instruction looks at the depth, and its effect enters no function
    have hsame : inst.effect program limits depth frame heap =
        inst.effect program (.heapOnly limits.maxHeapSlots) 0 frame heap := by
      cases inst with
      | call name args dst =>
          cases hname : Builtin.ofName? name with
          | none => exact absurd ⟨name, args, dst, rfl, hname⟩ hcall
          | some builtin => simp only [effect, hname]; rfl
      | ret value => cases value <;> rfl
      | _ => rfl
    rw [← hsame]
    refine (Effect.bind_limited (fun callee args dst h => hcall ?_) limits depth).symm
    obtain ⟨name, sources, hinst, hname⟩ := of_enter h
    exact ⟨name, sources, dst, hinst, hname⟩

end Effects

namespace State

variable {program : Program} {limits : Limits} {state : State} {inst : Inst}

/-- An instruction that may be executed has its effect if there is room for the call it may be. -/
theorem step_of_room (program : Program) (hnext : state.top.next? = some inst)
    (hcheck : limits.checkSteps (state.steps + 1) = .ok ()) :
    state.step program limits =
      match inst.effect program (.heapOnly limits.maxHeapSlots) 0 state.top state.heap >>=
          Effect.limited limits state.depth with
      | .error cause => .failed (.fault state.top.function.name state.top.index inst cause) state
      | .ok effect => { state with steps := state.steps + 1 }.apply effect := by
  rw [step, hnext, ← Inst.effect_eq_heapOnly]
  simp only [hcheck]
  rfl

theorem step_of_checkSteps {cause : Fault} (hnext : state.top.next? = some inst)
    (hcheck : limits.checkSteps (state.steps + 1) = .error cause) :
    state.step program limits =
      .failed (.fault state.top.function.name state.top.index inst cause) state := by
  rw [step, hnext]
  simp only [hcheck]
  rfl

end State

/-! ## Faults of instructions -/

/-- What fails, if it does, for another reason than a limit of the run. -/
def Unlimited {α : Type} (result : Except Fault α) : Prop :=
  ∀ cause, result = .error cause → cause.isRunLimit = false

namespace Unlimited

variable {α β : Type}

theorem ok (value : α) : Unlimited (.ok value) := fun _ h => nomatch h

theorem error {cause : Fault} (h : cause.isRunLimit = false) :
    Unlimited (.error cause : Except Fault α) := by
  rintro _ ⟨⟩
  exact h

theorem bind {first : Except Fault α} {next : α → Except Fault β} (hfirst : Unlimited first)
    (hnext : ∀ value, Unlimited (next value)) : Unlimited (first >>= next) := by
  cases first with
  | ok value => exact hnext value
  | error cause => exact error (hfirst cause rfl)

theorem eval (frame : Frame) (source : Source) : Unlimited (frame.eval source) := by
  cases source with
  | temp number | var name =>
      simp only [Frame.eval]
      split <;> [exact ok _; exact error rfl]
  | _ => exact ok _

theorem evalAll (frame : Frame) (sources : List Source) : Unlimited (frame.evalAll sources) := by
  induction sources with
  | nil => exact ok _
  | cons source rest ih => exact (eval frame source).bind fun _ => ih.bind fun _ => ok _

theorem address (frame : Frame) (place : Address) : Unlimited (frame.address place) := by
  refine (eval frame place.base).bind fun value => ?_
  cases value <;> [exact ok _; exact error rfl; exact error rfl; exact error rfl]

theorem labelIndex (frame : Frame) (label : String) : Unlimited (frame.labelIndex label) := by
  unfold Frame.labelIndex
  split <;> [exact ok _; exact error rfl]

theorem slot (heap : Heap) (index : Int) : Unlimited (heap.slot index) := by
  unfold Heap.slot
  split <;> [exact ok _; exact error rfl]

theorem relOp (op : RelOp) (left right : Value) : Unlimited (op.eval left right) := by
  unfold RelOp.eval
  split <;> first | exact ok _ | exact error rfl

theorem arithOp (op : ArithOp) (left right : Value) : Unlimited (op.eval left right) := by
  unfold ArithOp.eval
  split <;> first | exact ok _ | exact error rfl | skip
  split <;> [exact error rfl; exact ok _]

theorem binaryOp (op : BinaryOp) (left right : Value) : Unlimited (op.eval left right) := by
  cases op with
  | arith op => exact arithOp op left right
  | rel op =>
      intro cause h
      apply relOp op left right cause
      simp only [BinaryOp.eval] at h
      cases hop : op.eval left right with
      | error found => simpa [hop, Except.map] using h
      | ok value => simp [hop, Except.map] at h

theorem unaryOp (op : UnaryOp) (operand : Value) : Unlimited (op.eval operand) := by
  unfold UnaryOp.eval
  split <;> first | exact ok _ | exact error rfl

theorem reserve (heap : Heap) (limits : Limits) (size : Int32) :
    Unlimited (heap.reserve limits size) := by
  unfold Heap.reserve Limits.checkHeap
  split
  next => exact error rfl
  next =>
    split
    next cause hcause =>
      split at hcause
      next => obtain rfl := Except.error.inj hcause; exact error rfl
      next => cases hcause
    next => split <;> [exact ok _; exact error rfl]

theorem builtin (found : Builtin) (limits : Limits) (heap : Heap) (args : List Value)
    (dst : Option Dest) : Unlimited (found.effect limits heap args dst) := by
  unfold Builtin.effect
  split <;> first | exact ok _ | exact error rfl | exact (reserve _ _ _).bind fun _ => ok _

/-- An instruction of an activation with room for a call fails at no limit of the run. -/
theorem effect (program : Program) (slots : Nat) (frame : Frame) (heap : Heap) (inst : Inst) :
    Unlimited (inst.effect program (.heapOnly slots) 0 frame heap) := by
  cases inst with
  | binary op dst left right =>
      exact (eval _ _).bind fun _ => (eval _ _).bind fun _ => (binaryOp _ _ _).bind fun _ => ok _
  | unary op dst src => exact (eval _ _).bind fun _ => (unaryOp _ _).bind fun _ => ok _
  | move dst src => exact (eval _ _).bind fun _ => ok _
  | load dst place => exact (address _ _).bind fun _ => (slot _ _).bind fun _ => ok _
  | store place src =>
      exact (eval _ _).bind fun _ => (address _ _).bind fun _ => (slot _ _).bind fun _ => ok _
  | label name => exact ok _
  | jump target => exact (labelIndex _ _).bind fun _ => ok _
  | branch op left right target =>
      refine (eval _ _).bind fun _ => (eval _ _).bind fun _ => (relOp _ _ _).bind fun holds => ?_
      cases holds with
      | true => exact (labelIndex _ _).bind fun _ => ok _
      | false => exact ok _
  | call name args dst =>
      refine (evalAll _ _).bind fun values => ?_
      split
      next found _ => exact builtin found _ _ _ _
      next =>
        split
        next => exact error rfl
        next callee _ =>
          refine Unlimited.bind ?_ fun _ => ok _
          unfold checkArity
          split <;> [exact ok _; exact error rfl]
  | ret value =>
      cases value with
      | none => exact ok _
      | some src => exact (eval _ _).bind fun _ => ok _

end Unlimited

end ThreeAddress
