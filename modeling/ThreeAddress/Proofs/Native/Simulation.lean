import ThreeAddress.Proofs.Native.HeapInstructions
import ThreeAddress.Proofs.Native.Returns

/-!
# Simulation

A machine simulates a state of a run if it is about to carry out the next
instruction, with the callers of the running activation on its stack and the heap
in its memory. Each step of a run leads to a machine that simulates the next state,
and the machine exits when the run returns.
-/

namespace ThreeAddress.Deployment

variable {deployment : Deployment} {state : State} {ledger : Ledger} {machine : Machine}
  {entry : Nat} {kept : Register → Int64} {limits : Limits}

/-- A machine carries on a run from a state. -/
structure Simulates (deployment : Deployment) (state : State) (ledger : Ledger)
    (machine : Machine) : Prop where
  activations : ∃ entry kept, deployment.Running state.top ledger.top none entry kept machine ∧
    deployment.Waits machine.memory state.waiting ledger.waiting state.top.resultDest entry kept
  heap : deployment.HoldsHeap state.heap ledger machine
  output : machine.output = state.output

/-- What the machine leads to if the activations that wait are the same afterwards. -/
theorem simulates_of_stays {next : State} {following : Ledger}
    (hrunning : deployment.Running state.top ledger.top none entry kept machine)
    (hwaits : deployment.Waits machine.memory state.waiting ledger.waiting state.top.resultDest
      entry kept)
    (hwaiting : next.waiting = state.waiting) (hledger : following.waiting = ledger.waiting)
    (hresult : next.top.resultDest = state.top.resultDest)
    (h : deployment.Leads machine fun last =>
      deployment.Running next.top following.top none entry kept last ∧
      deployment.HoldsHeap next.heap following last ∧
      machine.memory.SameIn last.memory
        (deployment.host.stackTop - deployment.host.stackBytes) deployment.host.stackTop ∧
      last.output = next.output) :
    deployment.Leads machine (deployment.Simulates next following) := by
  apply h.mono
  intro last hlast
  obtain ⟨hlast, hheap, hstack, houtput⟩ := hlast
  refine ⟨⟨entry, kept, hlast, ?_⟩, hheap, houtput⟩
  have hlow := hrunning.active.low
  rw [hwaiting, hledger, hresult]
  exact hwaits.congr_memory (hstack.mono (by omega) (Nat.le_refl _))

/-- What the machine leads to if nothing but registers changes. -/
theorem simulates_of_sameRest {top : Frame} {origins : Origins} (steps : UInt64)
    (hrunning : deployment.Running state.top ledger.top none entry kept machine)
    (hwaits : deployment.Waits machine.memory state.waiting ledger.waiting state.top.resultDest
      entry kept)
    (hheap : deployment.HoldsHeap state.heap ledger machine)
    (houtput : machine.output = state.output)
    (hresult : top.resultDest = state.top.resultDest)
    (h : deployment.Leads machine fun last =>
      deployment.Running top origins none entry kept last ∧ machine.SameRest last) :
    deployment.Leads machine
      (deployment.Simulates { state with top, steps } { ledger with top := origins }) := by
  refine simulates_of_stays hrunning hwaits rfl rfl hresult ?_
  apply h.mono
  intro last hlast
  obtain ⟨hlast, hsame⟩ := hlast
  refine ⟨hlast, ?_, ?_, hsame.output.trans houtput⟩
  · exact (hheap.of_sameRest hsame).of_eq rfl rfl rfl
  · rw [hsame.memory]
    exact Memory.SameIn.refl _ _ _

/-- A return leads to where the caller goes on. -/
theorem simulates_of_leave (hsound : deployment.Sound) {value : Value} {origin : Option Nat}
    {next : State} (hleave : state.leave value = .running next)
    (hwaits : deployment.Waits machine.memory state.waiting ledger.waiting state.top.resultDest
      entry kept)
    (hheap : deployment.HoldsHeap state.heap ledger machine)
    (houtput : machine.output = state.output)
    (h : deployment.Leads machine (deployment.AtReturn origin value entry kept machine)) :
    deployment.Leads machine
      (deployment.Simulates next (ledger.leave state.top.resultDest origin)) := by
  obtain ⟨caller, rest, hwaiting, rfl⟩ := State.exists_caller_of_leave hleave
  rw [hwaiting] at hwaits
  cases hothers : ledger.waiting with
  | nil =>
      rw [hothers] at hwaits
      cases hwaits
  | cons origins others =>
      rw [hothers] at hwaits
      apply h.bind
      intro middle hmiddle
      have hmemory := hmiddle.same.memory
      rw [← hmemory] at hwaits
      -- The epilogue has left the return address in place, and the return takes it.
      refine (leads_return hsound hmiddle.ret hmiddle.pointer hmiddle.stack hmiddle.kept
        hmiddle.value hwaits).mono ?_
      intro last hlast
      obtain ⟨entry', kept', hrunning, hrest, hsame⟩ := hlast
      have hall := hmiddle.same.trans hsame
      rw [Ledger.leave, hothers]
      refine ⟨⟨entry', kept', hrunning, ?_⟩, (hheap.of_sameRest hall).of_eq rfl rfl rfl,
        hall.output.trans houtput⟩
      rw [State.waiting_mk, Frame.resultDest_assign?]
      exact hrest

/-- A return from the first activation ends the run. -/
theorem exits_of_leave (hsound : deployment.Sound) {value result : Value} {origin : Option Nat}
    {last : State} (hleave : state.leave value = .returned result last)
    (hwaits : deployment.Waits machine.memory state.waiting ledger.waiting state.top.resultDest
      entry kept)
    (houtput : machine.output = state.output)
    (h : deployment.Leads machine (deployment.AtReturn origin value entry kept machine)) :
    ∃ fuel final, machine.run deployment.host deployment.executable fuel = .exited final ∧
      final.output = last.output ∧ deployment.Represents origin result (final.get .result) := by
  rw [State.leave_eq] at hleave
  cases hwaiting : state.waiting with
  | cons => simp [hwaiting] at hleave
  | nil =>
      simp only [hwaiting, Step.returned.injEq] at hleave
      obtain ⟨rfl, rfl⟩ := hleave
      rw [hwaiting] at hwaits
      generalize ledger.waiting = others at hwaits
      refine Machine.Leads.exits (h.mono fun middle hmiddle => ?_)
      cases hwaits with
      | nil hword =>
          have hmemory : middle.memory.word entry = noPosition := by
            rw [hmiddle.same.memory, hword]
          obtain ⟨final, hstep, hfinal, hresult⟩ :=
            exits_return hsound hmiddle.ret hmiddle.pointer hmiddle.stack hmemory
          refine ⟨final, hstep, hfinal.trans (hmiddle.same.output.trans houtput), ?_⟩
          rw [hresult]
          exact hmiddle.value

namespace Simulates

/-- An effect leads to a machine that carries on the run after it. -/
theorem apply (h : deployment.Simulates state ledger machine) (hsound : deployment.Sound)
    {inst : Inst} {effect : Effect} (hinst : state.top.next? = some inst)
    (hperforms : Performs deployment.program limits state.depth state.top state.heap inst effect)
    (hloads : ledger.loadsWhole state = true) {following : Ledger}
    (hfollow : ledger.record? state inst effect = some following) {next : State}
    (happly : { state with steps := state.steps + 1 }.apply effect = .running next)
    (hblocks : following.blocks <+: deployment.blocks)
    (hroom : 48 * next.depth ≤ deployment.host.stackBytes) :
    deployment.Leads machine (deployment.Simulates next following) := by
  obtain ⟨⟨entry, kept, hrunning, hwaits⟩, hheap, houtput⟩ := h
  have hall := hperforms
  cases hperforms with
  | binary =>
      obtain rfl := Step.running.inj happly
      obtain ⟨hplain, rfl⟩ := Ledger.plain_of_ite hfollow
      exact simulates_of_sameRest _ hrunning hwaits hheap houtput rfl
        (hrunning.binary hsound hinst hall hplain)
  | unary =>
      obtain rfl := Step.running.inj happly
      obtain ⟨hplain, rfl⟩ := Ledger.plain_of_ite hfollow
      exact simulates_of_sameRest _ hrunning hwaits hheap houtput rfl
        (hrunning.unary hsound hinst hall (hplain _ (List.mem_singleton.mpr rfl)))
  | move =>
      obtain rfl := Step.running.inj happly
      obtain rfl := Option.some.inj hfollow
      exact simulates_of_sameRest _ hrunning hwaits hheap houtput rfl
        (hrunning.move hsound hinst hall)
  | label =>
      obtain rfl := Step.running.inj happly
      obtain rfl := Option.some.inj hfollow
      exact simulates_of_sameRest _ hrunning hwaits hheap houtput rfl
        (.refl ⟨hrunning.label hsound hinst hall, .refl machine⟩)
  | jump =>
      obtain rfl := Step.running.inj happly
      obtain rfl := Option.some.inj hfollow
      exact simulates_of_sameRest _ hrunning hwaits hheap houtput rfl
        (hrunning.jump hsound hinst hall)
  | taken | passed =>
      obtain rfl := Step.running.inj happly
      obtain ⟨hplain, rfl⟩ := Ledger.plain_of_ite hfollow
      exact simulates_of_sameRest _ hrunning hwaits hheap houtput rfl
        (hrunning.branch hsound hinst hall hplain rfl)
  | load =>
      obtain rfl := Step.running.inj happly
      obtain ⟨cell, hcell, hword, rfl⟩ := Ledger.record?_load hfollow
      -- The bytes in memory are those of the value in the slot, since the load reads it whole.
      have hread := Ledger.read_of_loadsWhole hloads hinst hcell
      exact simulates_of_sameRest _ hrunning hwaits hheap houtput rfl
        (hrunning.load hsound hheap hinst hall hcell hword hread)
  | store =>
      obtain rfl := Step.running.inj happly
      obtain ⟨cell, hcell, rfl⟩ := Ledger.record?_store hfollow
      refine simulates_of_stays hrunning hwaits rfl rfl rfl ?_
      apply (hrunning.store hsound hheap hinst hall hcell).mono
      intro last hlast
      obtain ⟨hlast, hheap', hstack, hsame⟩ := hlast
      exact ⟨hlast, hheap', hstack, hsame.trans houtput⟩
  | print | printNothing =>
      obtain rfl := Step.running.inj happly
      rw [Ledger.record?] at hfollow
      split at hfollow
      next hplain =>
        obtain rfl := Option.some.inj hfollow
        obtain ⟨hplain, htyped⟩ := (Bool.and_eq_true _ _).mp hplain
        refine simulates_of_stays hrunning hwaits rfl rfl rfl ?_
        apply (hrunning.print hsound hinst hall htyped (Ledger.plain_iff.mp hplain)).mono
        intro last hlast
        obtain ⟨hlast, hprinted⟩ := hlast
        refine ⟨hlast, hheap.of_memory hprinted.memory hprinted.arena, ?_, ?_⟩
        · rw [hprinted.memory]
          exact Memory.SameIn.refl _ _ _
        · rw [hprinted.output, houtput]
      next => cases hfollow
  | allocate =>
      obtain rfl := Step.running.inj happly
      obtain ⟨hplain, rfl⟩ := Ledger.plain_of_ite hfollow
      refine simulates_of_stays hrunning hwaits rfl rfl ?_ ?_
      · exact Frame.resultDest_assign? _ _ _
      · apply (hrunning.allocate hsound hheap hinst hall hplain hblocks).mono
        intro last hlast
        obtain ⟨hlast, hheap', hstack, hsame⟩ := hlast
        exact ⟨hlast, hheap', hstack, hsame.trans houtput⟩
  | enter =>
      obtain rfl := Step.running.inj happly
      obtain rfl := Option.some.inj hfollow
      rw [State.depth_eq, State.waiting_push, List.length_cons] at hroom
      apply (hrunning.enter hsound hinst hall hwaits hroom).mono
      intro last hlast
      obtain ⟨entry', kept', hlast, hcallers, hsame⟩ := hlast
      refine ⟨⟨entry', kept', hlast, ?_⟩, (hheap.congr hsound hsame).of_eq rfl rfl rfl,
        hsame.output.trans houtput⟩
      rw [State.waiting_push]
      exact hcallers
  | leave | leaveWith =>
      obtain rfl := Option.some.inj hfollow
      have hleads := simulates_of_leave hsound happly hwaits hheap houtput
        (hrunning.atRet hsound hinst hall)
      exact hleads

/-- Where no pointer is among the bytes that a load reads, the condition on loads is exact: the
machine gives the destination the value in the slot if and only if the load reads its bytes. -/
theorem load_iff (h : deployment.Simulates state ledger machine) (hsound : deployment.Sound)
    {dst : Dest} {address : Address} {cell : Cell} {register : Register} {value : Value}
    {bytes : List UInt8} (hinst : state.top.next? = some (.load dst address))
    (hperforms : Performs deployment.program limits state.depth state.top state.heap
      (.load dst address) (.assign dst value))
    (hregister : (deployment.placed state.top.function).assignment.register? dst = some register)
    (hcell : ledger.cell? address = some cell) (hword : value.word?.isSome = true)
    (hslot : ledger.slots cell.slot = none) (hplain : ledger.read cell = bytes.map .plain) :
    deployment.Leads machine fun next =>
      next.position = deployment.site state.top.advance ∧
      (deployment.Represents none value (next.get register) ↔ ledger.loadsWhole state = true) := by
  obtain ⟨⟨entry, kept, hrunning, _⟩, hheap, _⟩ := h
  apply (hrunning.load_iff hsound hheap hinst hregister hperforms hcell hword hplain).mono
  intro next hnext
  obtain ⟨hposition, hexact⟩ := hnext
  refine ⟨hposition, ?_⟩
  rw [Ledger.loadsWhole, hinst]
  simpa only [hcell, hslot, decide_eq_true_eq] using hexact

/-- A step of a run leads to a machine that carries on the run after it. -/
theorem step (h : deployment.Simulates state ledger machine) (hsound : deployment.Sound)
    (hloads : ledger.loadsWhole state = true) {following : Ledger}
    (hfollow : ledger.follow? deployment.program limits state = some following) {next : State}
    (hstep : state.step deployment.program limits = .running next)
    (hblocks : following.blocks <+: deployment.blocks)
    (hroom : 48 * next.depth ≤ deployment.host.stackBytes) :
    deployment.Leads machine (deployment.Simulates next following) := by
  cases hinst : state.top.next? with
  | none =>
      rw [Ledger.follow?_of_end hinst] at hfollow
      rw [State.step_of_end hinst] at hstep
      obtain rfl := Option.some.inj hfollow
      obtain ⟨⟨entry, kept, hrunning, hwaits⟩, hheap, houtput⟩ := h
      exact simulates_of_leave hsound hstep hwaits hheap houtput (hrunning.atEnd hsound hinst)
  | some inst =>
      rcases State.step_of_next deployment.program limits hinst with
        ⟨cause, hfailed⟩ | ⟨effect, heffect, happly⟩
      · simp [hfailed] at hstep
      · rw [Ledger.follow?_of_effect hinst heffect] at hfollow
        rw [happly] at hstep
        exact h.apply hsound hinst (Inst.performs_of_effect heffect) hloads hfollow hstep hblocks
          hroom

/-- When a run returns, the machine exits. -/
theorem exits (h : deployment.Simulates state ledger machine) (hsound : deployment.Sound)
    {value : Value} {last : State}
    (hstep : state.step deployment.program limits = .returned value last) :
    ∃ fuel final origin, machine.run deployment.host deployment.executable fuel = .exited final ∧
      final.output = last.output ∧
      deployment.Represents origin value (final.get .result) := by
  obtain ⟨⟨entry, kept, hrunning, hwaits⟩, _, houtput⟩ := h
  cases hinst : state.top.next? with
  | none =>
      rw [State.step_of_end hinst] at hstep
      obtain ⟨fuel, final, hrun, hfinal⟩ :=
        exits_of_leave hsound hstep hwaits houtput (hrunning.atEnd hsound hinst)
      exact ⟨fuel, final, none, hrun, hfinal⟩
  | some inst =>
      rcases State.step_of_next deployment.program limits hinst with
        ⟨cause, hfailed⟩ | ⟨effect, heffect, happly⟩
      · simp [hfailed] at hstep
      · rw [happly] at hstep
        have hperforms := Inst.performs_of_effect heffect
        have hall := hperforms
        cases hperforms with
        | leave | leaveWith =>
            obtain ⟨fuel, final, hrun, hfinal⟩ :=
              exits_of_leave hsound hstep hwaits houtput (hrunning.atRet hsound hinst hall)
            exact ⟨fuel, final, _, hrun, hfinal⟩
        | _ => cases hstep

/-- The machine carries a run to its end. -/
theorem run (h : deployment.Simulates state ledger machine) (hsound : deployment.Sound)
    {fuel : Nat} {final : Ledger}
    (hledger : state.ledger? Ledger.loadsWhole deployment.program limits fuel ledger = some final)
    (hblocks : final.blocks <+: deployment.blocks)
    (hreachable : State.Reachable deployment.program limits state)
    (hroom : ∀ state, State.Reachable deployment.program limits state →
      48 * state.depth ≤ deployment.host.stackBytes)
    {value : Value} {last : State}
    (hreturned : state.advance deployment.program limits fuel = .returned value last) :
    ∃ fuel final origin, machine.run deployment.host deployment.executable fuel = .exited final ∧
      final.output = last.output ∧
      deployment.Represents origin value (final.get .result) := by
  induction fuel generalizing state ledger machine with
  | zero => cases hreturned
  | succ fuel ih =>
      obtain ⟨hloads, following, hfollow, hrest⟩ := State.ledger?_succ hledger
      rw [State.advance] at hreturned
      split at hreturned
      next next hstep =>
        have hlater := hrest next hstep
        have hreachable' := hreachable.of_step hstep
        have hbefore := (State.prefix_ledger? hlater).trans hblocks
        -- Blocks of later steps are placed after these, so the places that are known now stay.
        have hleads := h.step hsound hloads hfollow hstep hbefore (hroom next hreachable')
        obtain ⟨count, middle, hrun, hsimulates⟩ := hleads
        obtain ⟨more, exited, origin, hexited, hresult⟩ :=
          ih hsimulates hlater hreachable' hreturned
        exact ⟨count + more, exited, origin, (Machine.run_add hrun more).trans hexited, hresult⟩
      next stopped hstopped =>
        exact h.exits hsound hreturned

end Simulates

end ThreeAddress.Deployment
