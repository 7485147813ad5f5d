import ThreeAddress.Proofs.Eval.Run

/-!
# Call sites

Whatever the program, each activation of a run is at an instruction of its
function or past the last one, and each one but the first was entered by the call
that the activation below it has just executed. Nothing is asked of the program:
names may repeat, and jumps and calls may go nowhere.
-/

namespace ThreeAddress

namespace Function

theorem mem_labels {function : Function} {label : String} :
    label ∈ function.labels ↔ .label label ∈ function.code := by
  simp only [labels, List.mem_filterMap]
  constructor
  · rintro ⟨inst, hinst, heq⟩
    cases inst with
    | label name => exact Option.some.inj heq ▸ hinst
    | _ => cases heq
  · exact fun h => ⟨_, h, rfl⟩

/-- Every declared label is found, at a place where it is declared. -/
theorem labelIndex?_of_mem {function : Function} {label : String} (h : label ∈ function.labels) :
    ∃ index, function.labelIndex? label = some index ∧ index < function.code.length ∧
      function.code[index]? = some (.label label) := by
  obtain ⟨index, hindex⟩ := exists_lastLabelFrom (mem_labels.mp h) 0
  have hcode := getElem?_labelIndex hindex
  exact ⟨index, hindex, (List.getElem?_eq_some_iff.mp hcode).1, hcode⟩

/-- Only declared labels are found. -/
theorem mem_labels_of_labelIndex? {function : Function} {label : String} {index : Nat}
    (h : function.labelIndex? label = some index) : label ∈ function.labels :=
  mem_labels.mpr (List.mem_of_getElem? (getElem?_labelIndex h))

end Function

/-- The activation below has just executed the call that entered the one above it: a call of a
function, not of a built-in, with an argument for each parameter, whose destination is where the
result is wanted. -/
def Frame.EnteredFrom (program : Program) (above below : Frame) : Prop :=
  ∃ name args, 0 < below.index ∧
    below.function.code[below.index - 1]? = some (.call name args above.resultDest) ∧
    Builtin.ofName? name = none ∧ program.callee? name = some above.function ∧
    args.length = above.function.params.length

/-- Activations, the running one first, are at places of their functions, and each one was entered
from the one below. -/
structure Program.WellStacked (program : Program) (frames : List Frame) : Prop where
  within : ∀ frame ∈ frames, frame.index ≤ frame.function.code.length
  entered : frames.IsChain (Frame.EnteredFrom program)

namespace Program.WellStacked

variable {program : Program} {top above below : Frame} {rest : List Frame}

theorem tail (h : program.WellStacked (above :: rest)) : program.WellStacked rest where
  within := fun frame hframe => h.within frame (List.mem_cons_of_mem _ hframe)
  entered := h.entered.of_cons

/-- Where the running activation is does not matter to those below. -/
theorem replace (h : program.WellStacked (above :: rest))
    (hfunction : top.function = above.function) (hdest : top.resultDest = above.resultDest)
    (hindex : top.index ≤ above.function.code.length) : program.WellStacked (top :: rest) where
  within := List.forall_mem_cons.mpr ⟨hfunction ▸ hindex, h.tail.within⟩
  entered := by
    have hentered := h.entered
    cases rest with
    | nil => exact .singleton _
    | cons below rest =>
        rw [List.isChain_cons_cons] at hentered
        refine List.isChain_cons_cons.mpr ⟨?_, hentered.2⟩
        rw [Frame.EnteredFrom, hfunction, hdest]
        exact hentered.1

theorem push (h : program.WellStacked (below :: rest)) (hentered : above.EnteredFrom program below)
    (hindex : above.index ≤ above.function.code.length) :
    program.WellStacked (above :: below :: rest) where
  within := List.forall_mem_cons.mpr ⟨hindex, h.within⟩
  entered := List.isChain_cons_cons.mpr ⟨hentered, h.entered⟩

end Program.WellStacked

namespace State

variable {program : Program} {limits : Limits} {state next : State}

/-- All activations, the running one first. -/
def frames (state : State) : List Frame := state.top :: state.waiting

/-- The activation below a result goes on where it is. -/
theorem wellStacked_leave (h : program.WellStacked state.frames) {value : Value}
    (hleave : state.leave value = .running next) : program.WellStacked next.frames := by
  obtain ⟨caller, rest, hwaiting, rfl⟩ := exists_caller_of_leave hleave
  rw [frames, hwaiting] at h
  rw [frames, waiting_mk]
  have hindex : (caller.assign? state.top.resultDest value).index = caller.index := by
    cases state.top.resultDest <;> rfl
  refine h.tail.replace (Frame.function_assign? ..) (Frame.resultDest_assign? ..) ?_
  rw [hindex]
  exact h.tail.within caller List.mem_cons_self

/-- An instruction that stays in its activation leads to the next one or to a declared label. -/
theorem wellStacked_apply {inst : Inst} {effect : Effect} {depth : Nat} {heap : Heap}
    (h : program.WellStacked state.frames) (hnext : state.top.next? = some inst)
    (hperforms : Performs program limits depth state.top heap inst effect)
    (happly : state.apply effect = .running next) : program.WellStacked next.frames := by
  have hlength : state.top.index < state.top.function.code.length :=
    (List.getElem?_eq_some_iff.mp hnext).1
  have hadvance : program.WellStacked (state.top.advance :: state.waiting) :=
    h.replace rfl rfl hlength
  cases hperforms with
  | leave | leaveWith => exact wellStacked_leave h happly
  | jump htarget | taken _ _ _ htarget =>
      obtain rfl := Step.running.inj happly
      have hindex := (List.getElem?_eq_some_iff.mp (Function.getElem?_labelIndex htarget)).1
      exact h.replace rfl rfl (Nat.le_of_lt hindex)
  | @allocate _ _ dst =>
      obtain rfl := Step.running.inj happly
      refine h.replace ?_ ?_ ?_
      · exact Frame.function_assign? state.top dst _
      · exact Frame.resultDest_assign? state.top dst _
      · cases dst <;> exact hlength
  | @enter name args dst values callee hname hargs hcallee harity hdepth =>
      obtain rfl := Step.running.inj happly
      rw [frames, waiting_push]
      refine hadvance.push ⟨name, args, Nat.succ_pos _, hnext, hname, hcallee, ?_⟩ (Nat.zero_le _)
      exact (Frame.evalAll_eq_ok hargs).1.symm.trans harity.symm
  | _ =>
      obtain rfl := Step.running.inj happly
      exact h.replace rfl rfl hlength

theorem wellStacked_step (h : program.WellStacked state.frames)
    (hstep : state.step program limits = .running next) : program.WellStacked next.frames := by
  cases hnext : state.top.next? with
  | none =>
      rw [step_of_end hnext] at hstep
      exact wellStacked_leave h hstep
  | some inst =>
      obtain ⟨effect, hperforms, happly⟩ := performs_of_step hnext hstep
      have hcounted :
          program.WellStacked ({ state with steps := state.steps + 1 } : State).frames := h
      exact wellStacked_apply hcounted hnext hperforms happly

theorem Reachable.wellStacked (h : Reachable program limits state) :
    program.WellStacked state.frames := by
  refine h.invariant (fun {main} _ => ⟨?_, .singleton _⟩) wellStacked_step
  intro frame hframe
  obtain rfl := List.mem_singleton.mp hframe
  exact Nat.zero_le _

end State

end ThreeAddress
