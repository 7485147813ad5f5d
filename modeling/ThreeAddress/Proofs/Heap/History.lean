import ThreeAddress.Proofs.Eval.Run

/-!
# What the heap remembers

Beside a run goes a history of what its steps did to the heap. The heap is what the
history made of it: allocations lie one after the other, and each slot holds what the last
store to it stored, whichever activation that was in.
-/

namespace ThreeAddress

/-- What a step did to the heap. -/
inductive Access where
  /-- `malloc` appended slots to the ones there were. -/
  | allocated (first count : Nat)
  | stored (index : Int) (value : Value)
deriving DecidableEq, Repr

/-- Whether a slot is among those that were appended. -/
def Access.Reserves (slot : Nat) : Access → Prop
  | allocated first count => first ≤ slot ∧ slot < first + count
  | stored _ _ => False

/-- What steps did to the heap, the most recent one first. -/
abbrev History := List Access

namespace History

/-- How many slots have been allocated. -/
def slots : History → Nat
  | [] => 0
  | .allocated _ count :: earlier => slots earlier + count
  | .stored _ _ :: earlier => slots earlier

/-- The value that the last store at an index stored. -/
def lastStored? (index : Int) : History → Option Value
  | [] => none
  | .allocated _ _ :: earlier => lastStored? index earlier
  | .stored other value :: earlier =>
      if other = index then some value else lastStored? index earlier

/-- Allocations begin where the ones before them end, and stores are at slots that have been
allocated. -/
def WellFormed : History → Prop
  | [] => True
  | .allocated first _ :: earlier => first = slots earlier ∧ WellFormed earlier
  | .stored index _ :: earlier => (0 ≤ index ∧ index < slots earlier) ∧ WellFormed earlier

variable {history : History} {slot : Nat}

theorem slots_le_append (later earlier : History) : slots earlier ≤ slots (later ++ earlier) := by
  induction later with
  | nil => exact Nat.le_refl _
  | cons access later ih =>
      cases access with
      | allocated first count => exact Nat.le_add_right_of_le ih
      | stored index value => exact ih

/-- The allocations cover the heap. -/
theorem WellFormed.lt_slots_iff (h : history.WellFormed) :
    slot < history.slots ↔ ∃ access ∈ history, access.Reserves slot := by
  induction history with
  | nil => simp [slots]
  | cons access earlier ih =>
      cases access with
      | allocated first count =>
          obtain ⟨rfl, hearlier⟩ := h
          rw [List.exists_mem_cons_iff, ← ih hearlier]
          simp only [slots, Access.Reserves]
          omega
      | stored index value =>
          rw [List.exists_mem_cons_iff, ← ih h.2]
          simp [slots, Access.Reserves]

/-- No slot is allocated twice. -/
theorem WellFormed.disjoint (h : history.WellFormed) :
    history.Pairwise fun later earlier =>
      ∀ slot, later.Reserves slot → ¬ earlier.Reserves slot := by
  induction history with
  | nil => exact .nil
  | cons access earlier ih =>
      cases access with
      | allocated first count =>
          obtain ⟨rfl, hearlier⟩ := h
          refine List.pairwise_cons.mpr ⟨fun other hother slot hslot hreserved => ?_, ih hearlier⟩
          have hlt := hearlier.lt_slots_iff.mpr ⟨other, hother, hreserved⟩
          exact absurd hslot.1 (Nat.not_le.mpr hlt)
      | stored index value =>
          exact List.pairwise_cons.mpr ⟨fun _ _ _ hslot => hslot.elim, ih h.2⟩

/-- Nothing has been stored where nothing has been allocated. -/
theorem WellFormed.lastStored?_eq_none (h : history.WellFormed) {index : Int}
    (hindex : history.slots ≤ index) : history.lastStored? index = none := by
  induction history with
  | nil => rfl
  | cons access earlier ih =>
      cases access with
      | allocated first count =>
          have hslots : slots earlier + count ≤ index := by exact_mod_cast hindex
          exact ih h.2 (by omega)
      | stored other value =>
          obtain ⟨⟨_, hother⟩, hearlier⟩ := h
          have hslots : slots earlier ≤ index := hindex
          rw [lastStored?, if_neg (by omega)]
          exact ih hearlier hslots

end History

/-! ## Heaps and histories -/

namespace Heap

variable {limits : Limits} {history : History} {heap : Heap}

theorem size_add_le_of_reserve {size : Int32} {count : Nat}
    (h : heap.reserve limits size = .ok count) : heap.size + count ≤ limits.maxHeapSlots := by
  unfold reserve at h
  split at h
  next => cases h
  next =>
    split at h
    next => cases h
    next hcheck =>
      have hle : heap.size + size.toInt.toNat ≤ limits.maxHeapSlots := by
        unfold Limits.checkHeap at hcheck
        split at hcheck
        next => cases hcheck
        next hle => exact Nat.not_lt.mp hle
      split at h
      next => exact Except.ok.inj h ▸ hle
      next => cases h

/-- A heap as its history made it. -/
structure IsMadeBy (limits : Limits) (history : History) (heap : Heap) : Prop where
  wellFormed : history.WellFormed
  size : heap.size = history.slots
  size_le : heap.size ≤ limits.maxHeapSlots
  /-- Sums of sizes stay within a machine word. -/
  size_lt : heap.size < 4294967296
  get? : ∀ {slot}, slot < heap.size →
    heap.get? slot = some ((history.lastStored? slot).getD .undefined)

theorem isMadeBy_empty (limits : Limits) : empty.IsMadeBy limits [] where
  wellFormed := trivial
  size := rfl
  size_le := Nat.zero_le _
  size_lt := by simp
  get? := fun hslot => absurd hslot (Nat.not_lt_zero _)

/-- What is stored at an index is found there, and only there. -/
theorem IsMadeBy.store (h : heap.IsMadeBy limits history) {index : Int} {slot : Nat}
    (hslot : heap.slot index = .ok slot) (value : Value) :
    (heap.set slot value).IsMadeBy limits (.stored index value :: history) := by
  obtain ⟨hindex, rfl, hlt⟩ := slot_eq_ok hslot
  have hsize := h.size
  refine ⟨⟨⟨hindex, by omega⟩, h.wellFormed⟩, ?_, ?_, ?_, fun {other} hother => ?_⟩
  · rw [size_set, hsize, History.slots]
  · exact (heap.size_set _ _).symm ▸ h.size_le
  · exact (heap.size_set _ _).symm ▸ h.size_lt
  · rw [size_set] at hother
    rw [get?_set, History.lastStored?]
    by_cases heq : index.toNat = other
    · rw [if_pos ⟨heq, hother⟩, if_pos (by omega)]
      rfl
    · rw [if_neg (fun hboth => heq hboth.1), if_neg (by omega), h.get? hother]

/-- New slots are undefined, and nothing was ever stored there. -/
theorem IsMadeBy.allocate (h : heap.IsMadeBy limits history) {size : Int32} {count : Nat}
    (hreserve : heap.reserve limits size = .ok count) :
    (heap.grow count).IsMadeBy limits (.allocated heap.size size.toInt.toNat :: history) := by
  obtain ⟨hsize, hcount, hsmall⟩ := reserve_eq_ok hreserve
  have hle := size_add_le_of_reserve hreserve
  refine ⟨⟨h.size, h.wellFormed⟩, ?_, ?_, ?_, fun {slot} hslot => ?_⟩
  · rw [size_grow, h.size, History.slots]
    omega
  · rw [size_grow]
    exact hle
  · rw [size_grow]
    omega
  · rw [size_grow] at hslot
    rw [get?_grow, History.lastStored?]
    split
    next hold => exact h.get? hold
    next hnew =>
      have hslots := h.size
      rw [h.wellFormed.lastStored?_eq_none (by omega)]
      rfl

end Heap

/-! ## Steps -/

/-- The heap after a step. -/
def Step.heap : Step → Heap
  | running state | returned _ state | failed _ state => state.heap

namespace State

variable {program : Program} {limits : Limits} {state next : State} {earlier : History}

/-- What the next instruction of a state does to the heap, if it does not fail. -/
def access? (state : State) : Option Access :=
  match state.top.next? with
  | some (.store address src) =>
      match state.top.address address, state.top.eval src with
      | .ok index, .ok value => some (.stored index value)
      | _, _ => none
  | some (.call name args _) =>
      match Builtin.ofName? name, state.top.evalAll args with
      | some .malloc, .ok [.int size] => some (.allocated state.heap.size size.toInt.toNat)
      | _, _ => none
  | _ => none

/-- The history of up to `fuel` steps, after an earlier one. -/
def history (program : Program) (limits : Limits) : Nat → State → History → History
  | 0, _, earlier => earlier
  | fuel + 1, state, earlier =>
      match state.step program limits with
      | .running next => history program limits fuel next (state.access?.toList ++ earlier)
      | .returned _ _ | .failed _ _ => earlier

theorem heap_leave (state : State) (value : Value) : (state.leave value).heap = state.heap := by
  rw [leave_eq]
  cases state.waiting <;> rfl

theorem heap_of_leave {value : Value} (h : state.leave value = .running next) :
    next.heap = state.heap := by
  rw [← heap_leave state value, h]
  rfl

/-- The last step of a run leaves the heap as it is. -/
theorem heap_step_of_stopped (h : ∀ next, state.step program limits ≠ .running next) :
    (state.step program limits).heap = state.heap := by
  cases hnext : state.top.next? with
  | none => rw [step_of_end hnext, heap_leave]
  | some inst =>
      rcases step_of_next program limits hnext with ⟨_, hfailed⟩ | ⟨effect, _, happly⟩
      · rw [hfailed]
        rfl
      · cases effect with
        | leave value => rw [happly, apply, heap_leave]
        | _ => exact absurd happly (h _)

/-- A step to another state changes the heap as the history says. -/
theorem isMadeBy_step (h : state.heap.IsMadeBy limits earlier)
    (hstep : state.step program limits = .running next) :
    next.heap.IsMadeBy limits (state.access?.toList ++ earlier) := by
  cases hnext : state.top.next? with
  | none =>
      rw [step_of_end hnext] at hstep
      rw [heap_of_leave hstep, access?, hnext]
      exact h
  | some inst =>
      obtain ⟨effect, hperforms, happly⟩ := performs_of_step hnext hstep
      rw [access?, hnext]
      cases hperforms with
      | store hvalue haddress hslot =>
          obtain rfl := Step.running.inj happly
          simp only [hvalue, haddress]
          exact h.store hslot _
      | allocate hname hargs hreserve =>
          obtain rfl := Step.running.inj happly
          simp only [hname, hargs]
          exact h.allocate hreserve
      | @print _ _ _ builtin _ hname hbuiltin hargs =>
          obtain rfl := Step.running.inj happly
          cases builtin with
          | malloc => exact absurd rfl hbuiltin
          | _ =>
              simp only [hname]
              exact h
      | printNothing hname | enter hname =>
          obtain rfl := Step.running.inj happly
          simp only [hname]
          exact h
      | leave | leaveWith =>
          rw [heap_of_leave happly]
          exact h
      | _ =>
          obtain rfl := Step.running.inj happly
          exact h

/-- However a run ends, its heap is as its history made it. -/
theorem isMadeBy_advance (program : Program) (fuel : Nat)
    (h : state.heap.IsMadeBy limits earlier) :
    (state.advance program limits fuel).heap.IsMadeBy limits
      (state.history program limits fuel earlier) := by
  induction fuel generalizing state earlier with
  | zero => exact h
  | succ fuel ih =>
      rw [advance, history]
      cases hstep : state.step program limits with
      | running next => exact ih (isMadeBy_step h hstep)
      | returned _ last | failed _ last =>
          have hheap := heap_step_of_stopped fun next hnext =>
            Step.noConfusion (hstep.symm.trans hnext)
          rw [hstep] at hheap
          change last.heap = state.heap at hheap
          change last.heap.IsMadeBy limits earlier
          rw [hheap]
          exact h

/-- A run adds to its history. -/
theorem suffix_history (program : Program) (limits : Limits) (fuel : Nat) (state : State)
    (earlier : History) : earlier <:+ state.history program limits fuel earlier := by
  induction fuel generalizing state earlier with
  | zero => exact List.suffix_rfl
  | succ fuel ih =>
      rw [history]
      split
      next next _ => exact (List.suffix_append _ _).trans (ih next _)
      next => exact List.suffix_rfl
      next => exact List.suffix_rfl

theorem history_add {fuel : Nat} (h : state.advance program limits fuel = .running next)
    (more : Nat) :
    state.history program limits (fuel + more) earlier =
      next.history program limits more (state.history program limits fuel earlier) := by
  induction fuel generalizing state earlier with
  | zero =>
      obtain rfl := Step.running.inj h
      rw [Nat.zero_add, history]
  | succ fuel ih =>
      rw [Nat.add_right_comm, history, history]
      rw [advance] at h
      split at h
      next middle hmiddle =>
        simp only [hmiddle]
        exact ih h
      next stopped hstopped => exact absurd h (hstopped next)

/-- The heap never shrinks. -/
theorem size_heap_advance (program : Program) (fuel more : Nat)
    (h : state.heap.IsMadeBy limits earlier) :
    (state.advance program limits fuel).heap.size ≤
      (state.advance program limits (fuel + more)).heap.size := by
  have hnow := isMadeBy_advance program fuel h
  have hthen := isMadeBy_advance program (fuel + more) h
  by_cases hrunning : ∃ next, state.advance program limits fuel = .running next
  · obtain ⟨next, hnext⟩ := hrunning
    rw [history_add hnext] at hthen
    rw [hnow.size, hthen.size]
    obtain ⟨later, hlater⟩ := suffix_history program limits more next
      (state.history program limits fuel earlier)
    exact hlater ▸ History.slots_le_append later _
  · have hsame := advance_of_stopped (not_exists.mp hrunning) more
    exact hsame ▸ Nat.le_refl _

/-- What a load reads and what `malloc` returns, in a step after a history. -/
structure Obeys (state : State) (earlier : History) (next : State) : Prop where
  /-- A load yields what was last stored at its index. -/
  load : ∀ {dst address}, state.top.next? = some (.load dst address) →
    ∃ index, state.top.address address = .ok index ∧ 0 ≤ index ∧ index < earlier.slots ∧
      next.top.bindings.get? dst = some ((earlier.lastStored? index).getD .undefined)
  /-- An allocation appends as many slots as it was asked for, and yields how many there were. -/
  malloc : ∀ {name args dst}, state.top.next? = some (.call name args dst) →
    Builtin.ofName? name = some .malloc →
    ∃ size : Int32, state.top.evalAll args = .ok [.int size] ∧ 0 ≤ size.toInt ∧
      next.heap.size = earlier.slots + size.toInt ∧
      ∀ dest, dst = some dest →
        ∃ base : Int32, next.top.bindings.get? dest = some (.int base) ∧ base.toInt = earlier.slots

theorem load_step {dst : Dest} {address : Address} (h : state.heap.IsMadeBy limits earlier)
    (hnext : state.top.next? = some (.load dst address))
    (hstep : state.step program limits = .running next) :
    ∃ index, state.top.address address = .ok index ∧ 0 ≤ index ∧ index < earlier.slots ∧
      next.top.bindings.get? dst = some ((earlier.lastStored? index).getD .undefined) := by
  obtain ⟨effect, hperforms, happly⟩ := performs_of_step hnext hstep
  cases hperforms with
  | @load _ _ index _ haddress hslot =>
      obtain rfl := Step.running.inj happly
      obtain ⟨hindex, rfl, hlt⟩ := Heap.slot_eq_ok hslot
      have hslots := h.size
      have hvalue : state.heap.get? index.toNat =
          some ((earlier.lastStored? index).getD .undefined) := by
        rw [h.get? hlt, Int.toNat_of_nonneg hindex]
      refine ⟨index, haddress, hindex, by omega, ?_⟩
      calc
        (state.top.bindings.set dst ((state.heap.get? index.toNat).getD .undefined)).get? dst
        _ = some ((state.heap.get? index.toNat).getD .undefined) :=
          (state.top.bindings.get?_set dst dst _).trans (if_pos rfl)
        _ = some ((earlier.lastStored? index).getD .undefined) := by
          rw [hvalue, Option.getD_some]

theorem malloc_step {name : String} {args : List Source} {dst : Option Dest}
    (h : state.heap.IsMadeBy limits earlier)
    (hnext : state.top.next? = some (.call name args dst))
    (hname : Builtin.ofName? name = some .malloc)
    (hstep : state.step program limits = .running next) :
    ∃ size : Int32, state.top.evalAll args = .ok [.int size] ∧ 0 ≤ size.toInt ∧
      next.heap.size = earlier.slots + size.toInt ∧
      ∀ dest, dst = some dest → ∃ base : Int32,
        next.top.bindings.get? dest = some (.int base) ∧ base.toInt = earlier.slots := by
  obtain ⟨effect, hperforms, happly⟩ := performs_of_step hnext hstep
  cases hperforms with
  | @allocate _ _ _ size count _ hargs hreserve =>
      obtain rfl := Step.running.inj happly
      obtain ⟨hsize, _, hsmall⟩ := Heap.reserve_eq_ok hreserve
      refine ⟨size, hargs, by omega, ?_, fun dest hdest => ?_⟩
      · rw [Heap.size_grow, h.size]
        omega
      · subst hdest
        refine ⟨Int32.ofNat state.heap.size, ?_, ?_⟩
        · exact (state.top.bindings.get?_set dest dest _).trans (if_pos rfl)
        · rw [Int32.toInt_ofNat_of_lt (by omega), h.size]
  | print hprint hbuiltin => exact absurd (Option.some.inj (hprint.symm.trans hname)) hbuiltin
  | printNothing hprint => cases hprint.symm.trans hname
  | enter hcallee => cases hcallee.symm.trans hname

/-- A run keeps a history. Its allocations are one after the other: none overlaps another, and
together they are the heap, which never shrinks or grows past its limit. Whatever activation a
step is in, it obeys the history before it. -/
theorem heap_keeps_history (program : Program) (limits : Limits) (main : Function) (fuel : Nat) :
    let run := (initial main).advance program limits fuel
    let history := (initial main).history program limits fuel []
    run.heap.IsMadeBy limits history ∧
      (history.Pairwise fun later earlier =>
        ∀ slot, later.Reserves slot → ¬ earlier.Reserves slot) ∧
      (∀ slot, slot < run.heap.size ↔ ∃ access ∈ history, access.Reserves slot) ∧
      (∀ more, run.heap.size ≤ ((initial main).advance program limits (fuel + more)).heap.size) ∧
      ∀ state next, run = .running state → state.step program limits = .running next →
        state.Obeys history next := by
  intro run history
  have hstart := Heap.isMadeBy_empty limits
  have hmade : run.heap.IsMadeBy limits history := isMadeBy_advance program fuel hstart
  refine ⟨hmade, hmade.wellFormed.disjoint, fun slot => ?_, fun more => ?_, ?_⟩
  · rw [hmade.size]
    exact hmade.wellFormed.lt_slots_iff
  · exact size_heap_advance program fuel more hstart
  · intro state next hrun hstep
    rw [hrun] at hmade
    exact ⟨fun hnext => load_step hmade hnext hstep,
      fun hnext hname => malloc_step hmade hnext hname hstep⟩

end State

namespace Program

/-- Loads what another activation stored. -/
def errand : Program where
  functions := [
    { name := "main", params := [], locals := [],
      code := [
        .call "malloc" [.int 2] (some (.temp 0)),
        .call "fill" [.temp 0] none,
        .call "malloc" [.int 3] (some (.temp 1)),
        .load (.temp 2) ⟨.temp 0, 1⟩,
        .ret (some (.temp 2))] },
    { name := "fill", params := ["place"], locals := [],
      code := [.store ⟨.var "place", 1⟩ (.int 7)] }]

/-- The state of `errand` before its load. -/
def errandDone : State where
  top := ⟨errand.functions[0], 3, ⟨[(.temp 0, .int 0), (.temp 1, .int 2)]⟩, none⟩
  callers := #[]
  heap := ⟨#[.undefined, .int 7, .undefined, .undefined, .undefined]⟩
  steps := 4
  output := #[]

/-- The second allocation begins where the first one ends, and the load finds the value that was
stored last. -/
theorem heap_keeps_history_errand :
    (State.initial errand.functions[0]).advance errand .strict 5 = .running errandDone ∧
      (State.initial errand.functions[0]).history errand .strict 5 [] =
        [.allocated 2 3, .stored 1 (.int 7), .allocated 0 2] ∧
      ∃ next, errandDone.step errand .strict = .running next ∧
        next.top.bindings.get? (.temp 2) = some (.int 7) := by
  obtain ⟨_, _, _, _, hobeys⟩ := State.heap_keeps_history errand .strict errand.functions[0] 5
  have hrun : (State.initial errand.functions[0]).advance errand .strict 5 =
      .running errandDone := rfl
  obtain ⟨index, haddress, _, _, hvalue⟩ := (hobeys errandDone _ hrun rfl).load rfl
  obtain rfl : 1 = index := Except.ok.inj haddress
  exact ⟨hrun, rfl, _, rfl, hvalue⟩

end Program

end ThreeAddress
