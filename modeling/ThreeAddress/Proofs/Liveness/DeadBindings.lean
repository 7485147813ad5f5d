import ThreeAddress.Proofs.Eval.Run

/-!
# Dead bindings do not matter

Two runs that differ in bindings of dead destinations alone print the same lines
and end in the same way. While a call runs, the destination of its result may
differ in the caller that waits for it, whatever is live there.
-/

namespace ThreeAddress

namespace Frame

/-- Two activations at the same place of a function, with the same bindings of the destinations
that are live there, other than that of a result which is still to come. -/
structure Agrees (pending : Option Dest) (left right : Frame) : Prop where
  function : left.function = right.function
  index : left.index = right.index
  resultDest : left.resultDest = right.resultDest
  bindings : ∀ {dest}, dest ∈ left.function.liveness.liveBefore left.index →
    pending ≠ some dest → left.bindings.get? dest = right.bindings.get? dest

theorem Agrees.refl (pending : Option Dest) (frame : Frame) : frame.Agrees pending frame :=
  ⟨rfl, rfl, rfl, fun _ _ => rfl⟩

/-- Once the result has come, nothing is left to differ. -/
theorem Agrees.assign? {pending : Option Dest} {left right : Frame}
    (h : left.Agrees pending right) (value : Value) :
    (left.assign? pending value).Agrees none (right.assign? pending value) := by
  cases pending with
  | none => exact h
  | some dst =>
      refine ⟨h.function, h.index, h.resultDest, fun {dest} hlive _ => ?_⟩
      change (left.bindings.set dst value).get? dest = (right.bindings.set dst value).get? dest
      rw [Bindings.get?_set, Bindings.get?_set]
      split
      next => rfl
      next hne => exact h.bindings hlive fun heq => hne (Option.some.inj heq)

variable {program : Program} {limits : Limits} {depth : Nat} {heap : Heap}

/-- Where control goes after an instruction, the activations agree but for what it assigns. -/
theorem Agrees.goto {left right : Frame} {inst : Inst} {effect : Effect} {next : Nat}
    (h : left.Agrees none right) (hinst : left.next? = some inst)
    (hperforms : Performs program limits depth left heap inst effect)
    (hprint : inst.assignsPrint = false) (hnext : effect.next? left.index = some next) :
    (left.goto next).Agrees effect.dst? (right.goto next) := by
  refine ⟨h.function, rfl, h.resultDest, fun {dest} hlive hpending => ?_⟩
  have hafter := hperforms.mem_liveAfter hinst hnext hlive
  rw [hperforms.dst?_eq_def? hprint] at hpending
  exact h.bindings ((Function.mem_liveBefore_iff hinst).mpr (.inr ⟨hafter, hpending⟩)) (by simp)

theorem Agrees.advance {left right : Frame} {inst : Inst} {effect : Effect}
    (h : left.Agrees none right) (hinst : left.next? = some inst)
    (hperforms : Performs program limits depth left heap inst effect)
    (hprint : inst.assignsPrint = false)
    (hnext : effect.next? left.index = some (left.index + 1)) :
    left.advance.Agrees effect.dst? right.advance := by
  have hright : right.advance = right.goto (left.index + 1) := by
    rw [Frame.advance, Frame.goto, h.index]
  rw [hright]
  exact h.goto hinst hperforms hprint hnext

theorem Agrees.effect_eq {left right : Frame} {inst : Inst} (h : left.Agrees none right)
    (hinst : left.next? = some inst) :
    inst.effect program limits depth left heap = inst.effect program limits depth right heap :=
  Inst.effect_congr h.function fun _ huse =>
    h.bindings ((Function.mem_liveBefore_iff hinst).mpr (.inl huse)) (by simp)

end Frame

/-- Waiting activations that agree but for the results that they wait for, the most recent
one first. -/
inductive StackAgrees : Option Dest → List Frame → List Frame → Prop
  | nil {pending} : StackAgrees pending [] []
  | cons {pending left right lefts rights} : left.Agrees pending right →
      StackAgrees left.resultDest lefts rights →
      StackAgrees pending (left :: lefts) (right :: rights)

theorem StackAgrees.refl (pending : Option Dest) (frames : List Frame) :
    StackAgrees pending frames frames := by
  induction frames generalizing pending with
  | nil => exact .nil
  | cons frame rest ih => exact .cons (.refl pending frame) (ih frame.resultDest)

theorem StackAgrees.length_eq {pending : Option Dest} {lefts rights : List Frame}
    (h : StackAgrees pending lefts rights) : lefts.length = rights.length := by
  induction h with
  | nil => rfl
  | cons _ _ ih => rw [List.length_cons, List.length_cons, ih]

/-- Two states of a run that differ in dead bindings alone. -/
structure State.Agrees (left right : State) : Prop where
  top : left.top.Agrees none right.top
  waiting : StackAgrees left.top.resultDest left.waiting right.waiting
  heap : left.heap = right.heap
  steps : left.steps = right.steps
  output : left.output = right.output

/-- Two outcomes of steps that print the same and end in the same way, if they end. -/
inductive Step.Agrees : Step → Step → Prop
  | running {left right : State} : left.Agrees right → Agrees (.running left) (.running right)
  | returned {left right : State} {value : Value} : left.output = right.output →
      Agrees (.returned value left) (.returned value right)
  | failed {left right : State} {error : RunError} : left.output = right.output →
      Agrees (.failed error left) (.failed error right)

/-- The lines that were printed, and how the run ended, if it did. -/
def Step.observed : Step → List String × Option (Except RunError Value)
  | running state => (state.output.toList, none)
  | returned value state => (state.output.toList, some (.ok value))
  | failed error state => (state.output.toList, some (.error error))

theorem Step.Agrees.observed_eq {left right : Step} (h : left.Agrees right) :
    left.observed = right.observed := by
  cases h with
  | running h => simp only [observed, h.output]
  | returned h | failed h => simp only [observed, h]

namespace State

variable {program : Program} {limits : Limits} {left right : State}

theorem Agrees.leave (h : left.Agrees right) (value : Value) :
    (left.leave value).Agrees (right.leave value) := by
  rw [leave_eq, leave_eq]
  have hwaiting := h.waiting
  cases hleft : left.waiting with
  | nil =>
      rw [hleft] at hwaiting
      cases hright : right.waiting with
      | nil => exact .returned h.output
      | cons =>
          rw [hright] at hwaiting
          cases hwaiting
  | cons caller rest =>
      rw [hleft] at hwaiting
      cases hright : right.waiting with
      | nil =>
          rw [hright] at hwaiting
          cases hwaiting
      | cons caller' rest' =>
          rw [hright] at hwaiting
          cases hwaiting with
          | cons hcaller hrest =>
              refine .running ⟨?_, ?_, h.heap, h.steps, h.output⟩
              · simpa only [h.top.resultDest] using hcaller.assign? value
              · simpa [Frame.resultDest_assign?] using hrest

theorem Agrees.apply {inst : Inst} {effect : Effect} {depth : Nat} {heap : Heap}
    (h : left.Agrees right) (hinst : left.top.next? = some inst)
    (hperforms : Performs program limits depth left.top heap inst effect)
    (hprint : inst.assignsPrint = false) : (left.apply effect).Agrees (right.apply effect) := by
  have hadvance := h.top.advance hinst hperforms hprint
  cases effect with
  | leave value => exact h.leave value
  | jump index =>
      have hgoto := h.top.goto hinst hperforms hprint rfl
      exact .running ⟨hgoto, h.waiting, h.heap, h.steps, h.output⟩
  | skip => exact .running ⟨hadvance rfl, h.waiting, h.heap, h.steps, h.output⟩
  | assign dst value =>
      exact .running ⟨(hadvance rfl).assign? value, h.waiting, h.heap, h.steps, h.output⟩
  | store slot value =>
      exact .running ⟨hadvance rfl, h.waiting, congrArg (·.set slot value) h.heap, h.steps,
        h.output⟩
  | allocate count dst =>
      refine .running ⟨?_, ?_, congrArg (·.grow count) h.heap, h.steps, h.output⟩
      · change (left.top.assign? dst _).advance.Agrees none (right.top.assign? dst _).advance
        rw [Frame.advance_assign?, Frame.advance_assign?, h.heap]
        exact (hadvance rfl).assign? _
      · change StackAgrees (left.top.assign? dst _).resultDest left.waiting right.waiting
        rw [Frame.resultDest_assign?]
        exact h.waiting
  | print line =>
      exact .running ⟨hadvance rfl, h.waiting, h.heap, h.steps, congrArg (·.push line) h.output⟩
  | enter callee args dst =>
      -- The callee starts from its arguments alone; the caller may differ in what is dead in it.
      refine .running ⟨.refl none _, ?_, h.heap, h.steps, h.output⟩
      rw [waiting_push, waiting_push]
      exact .cons (hadvance rfl) h.waiting

theorem Agrees.step (h : left.Agrees right) (hleft : Within program left)
    (hprints : program.DiscardsPrints) :
    (left.step program limits).Agrees (right.step program limits) := by
  have hcode : left.top.next? = right.top.next? := by
    rw [Frame.next?, Frame.next?, h.top.function, h.top.index]
  cases hinst : left.top.next? with
  | none =>
      rw [step_of_end hinst, step_of_end (hcode ▸ hinst)]
      exact h.leave .undefined
  | some inst =>
      -- What an instruction reads is live before it, so both sides have one effect or one fault.
      have heffect : inst.effect program limits left.depth left.top left.heap =
          inst.effect program limits left.depth right.top left.heap := h.top.effect_eq hinst
      have hdepth : left.depth = right.depth := by
        rw [depth_eq, depth_eq, h.waiting.length_eq]
      have hprint := hprints _ hleft.top inst (List.mem_of_getElem? hinst)
      rw [State.step, State.step, ← hcode, hinst]
      dsimp only
      rw [← h.steps, ← h.heap, ← hdepth, ← heffect]
      cases hresult : (do
          limits.checkSteps (left.steps + 1)
          inst.effect program limits left.depth left.top left.heap) with
      | error cause =>
          dsimp only
          rw [h.top.function, h.top.index]
          exact .failed h.output
      | ok effect =>
          obtain ⟨_, _, hperforms⟩ := Except.bind_eq_ok.mp hresult
          dsimp only
          have hcounted : Agrees { left with steps := left.steps + 1 }
              { right with heap := left.heap, steps := left.steps + 1 } :=
            ⟨h.top, h.waiting, rfl, rfl, h.output⟩
          exact hcounted.apply hinst (Inst.performs_of_effect hperforms) hprint

/-- Runs from agreeing states agree for as long as they last. -/
theorem Agrees.run (h : left.Agrees right) (hleft : Within program left)
    (hprints : program.DiscardsPrints) (fuel : Nat) :
    (left.advance program limits fuel).Agrees (right.advance program limits fuel) := by
  induction fuel generalizing left right with
  | zero => exact .running h
  | succ fuel ih =>
      have hstep : (left.step program limits).Agrees (right.step program limits) :=
        h.step hleft hprints
      rw [advance, advance]
      generalize hnext : left.step program limits = first at hstep
      generalize right.step program limits = second at hstep
      cases hstep with
      | running hagrees => exact ih hagrees (hleft.step hnext)
      | returned houtput => exact .returned houtput
      | failed houtput => exact .failed houtput

/-- Whatever a destination that is not live in the running activation is bound to, and whether it
is bound at all, a run prints the same lines and ends in the same way. -/
theorem Reachable.observed_eq_of_dead {state : State} {dest : Dest} {bindings : Bindings}
    (hprints : program.DiscardsPrints) (hreachable : Reachable program limits state)
    (hdead : dest ∉ state.top.function.liveness.liveBefore state.top.index)
    (hother : ∀ other, other ≠ dest → bindings.get? other = state.top.bindings.get? other)
    (fuel : Nat) :
    ({ state with top := { state.top with bindings } }.advance program limits fuel).observed =
      (state.advance program limits fuel).observed := by
  have hagrees : state.Agrees { state with top := { state.top with bindings } } := by
    refine ⟨⟨rfl, rfl, rfl, fun {other} hlive _ => ?_⟩, .refl _ _, rfl, rfl, rfl⟩
    exact (hother other fun heq => hdead (heq ▸ hlive)).symm
  exact (hagrees.run hreachable.within hprints fuel).observed_eq.symm

/-- A program whose first temporary is dead until a call returns its result. -/
def tripling : Program where
  functions := [
    { name := "main", params := [], locals := [],
      code := [
        .move (.temp 0) (.int 5),
        .move (.temp 1) (.int 2),
        .call "triple" [.temp 1] (some (.temp 0)),
        .call "printInt" [.temp 0] none,
        .ret (some (.temp 1))] },
    { name := "triple", params := ["n"], locals := [],
      code := [
        .binary (.arith .mul) (.temp 0) (.var "n") (.int 3),
        .ret (some (.temp 0))] }]

/-- The state of `tripling` before its call. -/
def beforeTriple : State where
  top := ⟨tripling.functions[0], 2, ⟨[(.temp 0, .int 5), (.temp 1, .int 2)]⟩, none⟩
  callers := #[]
  heap := .empty
  steps := 2
  output := #[]

theorem observed_eq_of_dead_tripling :
    tripling.DiscardsPrints ∧ Reachable tripling .standard beforeTriple ∧
      Dest.temp 0 ∉ beforeTriple.top.function.liveness.liveBefore beforeTriple.top.index ∧
      ∀ fuel, ({ beforeTriple with
          top := { beforeTriple.top with bindings := ⟨[(.temp 1, .int 2)]⟩ } }.advance
            tripling .standard fuel).observed =
        (beforeTriple.advance tripling .standard fuel).observed := by
  have hprints : tripling.DiscardsPrints := by decide
  have hreachable : Reachable tripling .standard beforeTriple := ⟨_, 2, rfl, rfl⟩
  have hdead : Dest.temp 0 ∉
      beforeTriple.top.function.liveness.liveBefore beforeTriple.top.index := by decide
  refine ⟨hprints, hreachable, hdead, hreachable.observed_eq_of_dead hprints hdead ?_⟩
  intro other hne
  simp [Bindings.get?, Bindings.find?, beforeTriple, Ne.symm hne]

end State

end ThreeAddress
