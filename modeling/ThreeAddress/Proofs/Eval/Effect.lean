import ThreeAddress.Eval.Machine
import ThreeAddress.Proofs.Liveness.Fixpoint

/-!
# What an instruction does

Each effect of an instruction is listed once, with the values that its operands
have. An effect assigns the destination of its instruction or none, and stays
within the successors of the instruction.
-/

namespace ThreeAddress

theorem Except.bind_eq_ok {ε α β : Type} {first : Except ε α} {next : α → Except ε β} {result : β} :
    (first >>= next) = .ok result ↔ ∃ value, first = .ok value ∧ next value = .ok result := by
  cases first <;> simp [bind, Except.bind]

namespace Heap

theorem slot_eq_ok {heap : Heap} {index : Int} {slot : Nat} (h : heap.slot index = .ok slot) :
    0 ≤ index ∧ slot = index.toNat ∧ slot < heap.size := by
  unfold Heap.slot at h
  split at h
  next hindex =>
    obtain rfl := Except.ok.inj h
    exact ⟨hindex.1, rfl, hindex.2⟩
  next => cases h

theorem reserve_eq_ok {heap : Heap} {limits : Limits} {size : Int32} {count : Nat}
    (h : heap.reserve limits size = .ok count) :
    size.toInt = count ∧ count < 2147483648 ∧ heap.size < 2147483648 := by
  unfold reserve at h
  split at h
  next => cases h
  next hsize =>
    have hnonneg : 0 ≤ size.toInt := Int32.le_iff_toInt_le.mp (Int32.not_lt.mp hsize)
    have hlt := size.toInt_lt
    split at h
    next => cases h
    next =>
      split at h
      next hheap =>
        obtain rfl := Except.ok.inj h
        exact ⟨by omega, by omega, hheap⟩
      next => cases h

end Heap

/-- The effects of an instruction in the topmost of `depth` frames. -/
inductive Performs (program : Program) (limits : Limits) (depth : Nat) (frame : Frame)
    (heap : Heap) : Inst → Effect → Prop
  | binary {op dst left right leftValue rightValue value} :
      frame.eval left = .ok leftValue → frame.eval right = .ok rightValue →
      BinaryOp.eval op leftValue rightValue = .ok value →
      Performs program limits depth frame heap (.binary op dst left right) (.assign dst value)
  | unary {op dst src operand value} :
      frame.eval src = .ok operand → UnaryOp.eval op operand = .ok value →
      Performs program limits depth frame heap (.unary op dst src) (.assign dst value)
  | move {dst src value} :
      frame.eval src = .ok value →
      Performs program limits depth frame heap (.move dst src) (.assign dst value)
  | load {dst address index slot} :
      frame.address address = .ok index → heap.slot index = .ok slot →
      Performs program limits depth frame heap (.load dst address)
        (.assign dst ((heap.get? slot).getD .undefined))
  | store {address src value index slot} :
      frame.eval src = .ok value → frame.address address = .ok index →
      heap.slot index = .ok slot →
      Performs program limits depth frame heap (.store address src) (.store slot value)
  | label {name} : Performs program limits depth frame heap (.label name) .skip
  | jump {target index} :
      frame.function.labelIndex? target = some index →
      Performs program limits depth frame heap (.jump target) (.jump index)
  | taken {op left right target leftValue rightValue index} :
      frame.eval left = .ok leftValue → frame.eval right = .ok rightValue →
      RelOp.eval op leftValue rightValue = .ok true →
      frame.function.labelIndex? target = some index →
      Performs program limits depth frame heap (.branch op left right target) (.jump index)
  | passed {op left right target leftValue rightValue} :
      frame.eval left = .ok leftValue → frame.eval right = .ok rightValue →
      RelOp.eval op leftValue rightValue = .ok false →
      Performs program limits depth frame heap (.branch op left right target) .skip
  | print {name args dst builtin value} :
      Builtin.ofName? name = some builtin → builtin ≠ .malloc →
      frame.evalAll args = .ok [value] →
      Performs program limits depth frame heap (.call name args dst) (.print value.text)
  | printNothing {name args dst} :
      Builtin.ofName? name = some .printStr → frame.evalAll args = .ok [] →
      Performs program limits depth frame heap (.call name args dst) (.print "")
  | allocate {name args dst size count} :
      Builtin.ofName? name = some .malloc → frame.evalAll args = .ok [.int size] →
      heap.reserve limits size = .ok count →
      Performs program limits depth frame heap (.call name args dst) (.allocate count dst)
  | enter {name args dst values callee} :
      Builtin.ofName? name = none → frame.evalAll args = .ok values →
      program.callee? name = some callee → callee.params.length = values.length →
      depth + 1 ≤ limits.maxDepth →
      Performs program limits depth frame heap (.call name args dst) (.enter callee values dst)
  | leave : Performs program limits depth frame heap (.ret none) (.leave .undefined)
  | leaveWith {src value} :
      frame.eval src = .ok value →
      Performs program limits depth frame heap (.ret (some src)) (.leave value)

section Inversion

variable {program : Program} {limits : Limits} {depth : Nat} {frame : Frame} {heap : Heap}

theorem Frame.labelIndex_eq_ok {label : String} {index : Nat}
    (h : frame.labelIndex label = .ok index) : frame.function.labelIndex? label = some index := by
  unfold labelIndex at h
  split at h
  next found hfound => rw [hfound, Except.ok.inj h]
  next => exact absurd h (by simp)

/-- Operands are evaluated one by one. -/
theorem Frame.evalAll_eq_ok {args : List Source} {values : List Value}
    (h : frame.evalAll args = .ok values) :
    values.length = args.length ∧ ∀ (index : Nat) value, values[index]? = some value →
      ∃ source, args[index]? = some source ∧ frame.eval source = .ok value := by
  induction args generalizing values with
  | nil =>
      obtain rfl := Except.ok.inj h
      exact ⟨rfl, by simp⟩
  | cons source rest ih =>
      obtain ⟨first, hfirst, h⟩ := Except.bind_eq_ok.mp h
      obtain ⟨others, hothers, h⟩ := Except.bind_eq_ok.mp h
      obtain rfl := Except.ok.inj h
      obtain ⟨hlength, hall⟩ := ih hothers
      refine ⟨congrArg (· + 1) hlength, fun index value hvalue => ?_⟩
      cases index with
      | zero =>
          obtain rfl := Option.some.inj hvalue
          exact ⟨source, rfl, hfirst⟩
      | succ index => exact hall index value hvalue

theorem Builtin.performs_of_effect {builtin : Builtin} {name : String} {args : List Source}
    {values : List Value} {dst : Option Dest} {effect : Effect}
    (hname : Builtin.ofName? name = some builtin) (hargs : frame.evalAll args = .ok values)
    (h : builtin.effect limits heap values dst = .ok effect) :
    Performs program limits depth frame heap (.call name args dst) effect := by
  unfold Builtin.effect at h
  split at h
  next =>
    obtain rfl := Except.ok.inj h
    exact .print hname (by simp) hargs
  next =>
    obtain rfl := Except.ok.inj h
    exact .print hname (by simp) hargs
  next =>
    obtain rfl := Except.ok.inj h
    exact .print hname (by simp) hargs
  next =>
    obtain rfl := Except.ok.inj h
    exact .printNothing hname hargs
  next =>
    obtain ⟨count, hreserve, heffect⟩ := Except.bind_eq_ok.mp h
    obtain rfl := Except.ok.inj heffect
    exact .allocate hname hargs hreserve
  next => exact absurd h (by simp)
  next => exact absurd h (by simp)

/-- An instruction that does not fault has one of the listed effects. -/
theorem Inst.performs_of_effect {inst : Inst} {effect : Effect}
    (h : inst.effect program limits depth frame heap = .ok effect) :
    Performs program limits depth frame heap inst effect := by
  cases inst with
  | binary op dst left right =>
      obtain ⟨_, hleft, h⟩ := Except.bind_eq_ok.mp h
      obtain ⟨_, hright, h⟩ := Except.bind_eq_ok.mp h
      obtain ⟨_, hop, h⟩ := Except.bind_eq_ok.mp h
      obtain rfl := Except.ok.inj h
      exact .binary hleft hright hop
  | unary op dst src =>
      obtain ⟨_, hsrc, h⟩ := Except.bind_eq_ok.mp h
      obtain ⟨_, hop, h⟩ := Except.bind_eq_ok.mp h
      obtain rfl := Except.ok.inj h
      exact .unary hsrc hop
  | move dst src =>
      obtain ⟨_, hsrc, h⟩ := Except.bind_eq_ok.mp h
      obtain rfl := Except.ok.inj h
      exact .move hsrc
  | load dst address =>
      obtain ⟨_, haddress, h⟩ := Except.bind_eq_ok.mp h
      obtain ⟨_, hslot, h⟩ := Except.bind_eq_ok.mp h
      obtain rfl := Except.ok.inj h
      exact .load haddress hslot
  | store address src =>
      obtain ⟨_, hsrc, h⟩ := Except.bind_eq_ok.mp h
      obtain ⟨_, haddress, h⟩ := Except.bind_eq_ok.mp h
      obtain ⟨_, hslot, h⟩ := Except.bind_eq_ok.mp h
      obtain rfl := Except.ok.inj h
      exact .store hsrc haddress hslot
  | label name =>
      obtain rfl := Except.ok.inj h
      exact .label
  | jump target =>
      obtain ⟨_, htarget, h⟩ := Except.bind_eq_ok.mp h
      obtain rfl := Except.ok.inj h
      exact .jump (Frame.labelIndex_eq_ok htarget)
  | branch op left right target =>
      obtain ⟨_, hleft, h⟩ := Except.bind_eq_ok.mp h
      obtain ⟨_, hright, h⟩ := Except.bind_eq_ok.mp h
      obtain ⟨holds, hop, h⟩ := Except.bind_eq_ok.mp h
      cases holds with
      | true =>
          obtain ⟨_, htarget, h⟩ := Except.bind_eq_ok.mp h
          obtain rfl := Except.ok.inj h
          exact .taken hleft hright hop (Frame.labelIndex_eq_ok htarget)
      | false =>
          obtain rfl := Except.ok.inj h
          exact .passed hleft hright hop
  | call name args dst =>
      obtain ⟨values, hargs, h⟩ := Except.bind_eq_ok.mp h
      split at h
      next builtin hname => exact Builtin.performs_of_effect hname hargs h
      next hname =>
        split at h
        next => exact absurd h (by simp [throw, throwThe, MonadExceptOf.throw])
        next callee hcallee =>
          obtain ⟨_, harity, h⟩ := Except.bind_eq_ok.mp h
          obtain ⟨_, hdepth, h⟩ := Except.bind_eq_ok.mp h
          obtain rfl := Except.ok.inj h
          refine .enter hname hargs hcallee ?_ ?_
          · unfold checkArity at harity
            split at harity
            next heq => exact heq
            next => exact absurd harity (by simp)
          · unfold Limits.checkDepth at hdepth
            split at hdepth
            next => exact absurd hdepth (by simp)
            next hle => omega
  | ret value =>
      cases value with
      | none =>
          obtain rfl := Except.ok.inj h
          exact .leave
      | some src =>
          obtain ⟨_, hsrc, h⟩ := Except.bind_eq_ok.mp h
          obtain rfl := Except.ok.inj h
          exact .leaveWith hsrc

end Inversion

/-! ## Bindings that an instruction does not read -/

section Congruence

variable {program : Program} {limits : Limits} {depth : Nat} {heap : Heap} {frame frame' : Frame}

theorem Frame.eval_congr {source : Source}
    (h : ∀ dest, source.dest? = some dest →
      frame.bindings.get? dest = frame'.bindings.get? dest) :
    frame.eval source = frame'.eval source := by
  cases source with
  | temp number => simp only [eval, h (.temp number) rfl]
  | var name => simp only [eval, h (.var name) rfl]
  | int | bool | str => rfl

theorem Frame.evalAll_congr {sources : List Source}
    (h : ∀ source ∈ sources, frame.eval source = frame'.eval source) :
    frame.evalAll sources = frame'.evalAll sources := by
  induction sources with
  | nil => rfl
  | cons source rest ih =>
      rw [evalAll, evalAll, h source List.mem_cons_self,
        ih fun other hother => h other (List.mem_cons_of_mem _ hother)]

/-- What an instruction does depends on the destinations that it reads alone. -/
theorem Inst.effect_congr {inst : Inst} (hfunction : frame.function = frame'.function)
    (h : ∀ dest ∈ inst.uses, frame.bindings.get? dest = frame'.bindings.get? dest) :
    inst.effect program limits depth frame heap = inst.effect program limits depth frame' heap := by
  have heval : ∀ source ∈ inst.sources, frame.eval source = frame'.eval source :=
    fun source hsource => Frame.eval_congr fun dest hdest =>
      h dest (List.mem_filterMap.mpr ⟨source, hsource, hdest⟩)
  have hlabel : ∀ label, frame.labelIndex label = frame'.labelIndex label := fun label => by
    rw [Frame.labelIndex, Frame.labelIndex, hfunction]
  cases inst with
  | binary op dst left right | branch op left right target =>
      simp only [effect, hlabel, heval left (by simp [sources]), heval right (by simp [sources])]
  | unary op dst src | move dst src => simp only [effect, heval src (by simp [sources])]
  | load dst address =>
      simp only [effect, Frame.address, heval address.base (by simp [sources])]
  | store address src =>
      simp only [effect, Frame.address, heval address.base (by simp [sources]),
        heval src (by simp [sources])]
  | label name => rfl
  | jump target => simp only [effect, hlabel]
  | call name args dst =>
      have hargs : frame.evalAll args = frame'.evalAll args := Frame.evalAll_congr heval
      simp only [effect, hargs]
  | ret value =>
      cases value with
      | none => rfl
      | some src => simp only [effect, heval src (by simp [sources])]

end Congruence

/-! ## Destinations and successors -/

/-- A call that prints and has a destination, which printing does not assign. -/
def Inst.assignsPrint : Inst → Bool
  | .call name _ (some _) =>
      match Builtin.ofName? name with
      | none | some .malloc => false
      | some _ => true
  | _ => false

/-- No call that prints has a destination. -/
def Program.DiscardsPrints (program : Program) : Prop :=
  ∀ function ∈ program.functions, ∀ inst ∈ function.code, inst.assignsPrint = false

instance (program : Program) : Decidable program.DiscardsPrints :=
  inferInstanceAs (Decidable (∀ function ∈ program.functions, ∀ inst ∈ function.code,
    inst.assignsPrint = false))

namespace Effect

/-- The destination that an effect assigns, at once or when the callee returns. -/
def dst? : Effect → Option Dest
  | assign dst _ => some dst
  | allocate _ dst | enter _ _ dst => dst
  | skip | store _ _ | print _ | jump _ | leave _ => none

/-- Where an effect at `index` continues in the same function, if it does. -/
def next? (index : Nat) : Effect → Option Nat
  | jump target => some target
  | leave _ => none
  | _ => some (index + 1)

end Effect

namespace Performs

variable {program : Program} {limits : Limits} {depth : Nat} {frame : Frame} {heap : Heap}
  {inst : Inst} {effect : Effect}

/-- An effect assigns what its instruction is said to write. -/
theorem dst?_eq_def? (h : Performs program limits depth frame heap inst effect)
    (hprint : inst.assignsPrint = false) : effect.dst? = inst.def? := by
  cases h with
  | @print name args dst builtin value hname hbuiltin hargs =>
      cases dst with
      | none => rfl
      | some dst => cases builtin <;> simp_all [Inst.assignsPrint]
  | @printNothing name args dst hname hargs =>
      cases dst with
      | none => rfl
      | some dst => simp [Inst.assignsPrint, hname] at hprint
  | _ => rfl

/-- What is live where an effect continues is live after its instruction. -/
theorem mem_liveAfter (h : Performs program limits depth frame heap inst effect)
    (hinst : frame.next? = some inst) {next : Nat} (hnext : effect.next? frame.index = some next)
    {dest : Dest} (hlive : dest ∈ frame.function.liveness.liveBefore next) :
    dest ∈ frame.function.liveness.liveAfter frame.index := by
  refine Function.mem_liveAfter_iff.mpr ⟨next, ?_, hlive⟩
  have hlength := Function.lt_length_of_mem_liveBefore hlive
  have hcode : frame.function.code[frame.index]? = some inst := hinst
  cases h with
  | leave | leaveWith => exact absurd hnext (by simp [Effect.next?])
  | jump htarget | taken _ _ _ htarget =>
      obtain rfl := Option.some.inj hnext
      simp [Function.successors, hcode, htarget]
  | _ =>
      obtain rfl := Option.some.inj hnext
      simp [Function.successors, hcode, hlength]

end Performs

end ThreeAddress
