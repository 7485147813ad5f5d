import ThreeAddress.Proofs.Native.Routines

/-!
# Returns from routines

A routine takes back the registers that it has saved and returns with its result
in a register. Its caller finds its own frame as it was, and the result where it
wants it. The routine where the run started returns to no position, which ends
the run.
-/

namespace ThreeAddress.Deployment

variable {deployment : Deployment} {frame : Frame} {origins : Origins} {entry : Nat}
  {pending : Option Dest} {kept : Register → Int64} {machine : Machine}

/-- The epilogue gives back what the routine had to preserve. -/
theorem leads_leave (hsound : deployment.Sound) {contents : Register → Int64}
    (hactive : deployment.Active frame origins pending entry kept contents machine.memory)
    (hpointer : machine.get .rsp =
      Int64.ofNat (entry - (deployment.placed frame.function).frameBytes))
    (hcontents : ∀ register ∈ Register.calleeSaved, machine.get register = contents register)
    (hholds : deployment.Holds machine.position
      (deployment.placed frame.function).epilogue.code) :
    deployment.Leads machine fun next =>
      deployment.executable.code[next.position]? = some .ret ∧
      next.get .rsp = Int64.ofNat entry ∧
      (∀ register ∈ Register.calleeSaved, next.get register = kept register) ∧
      next.get .result = machine.get .result ∧ machine.SameRest next := by
  refine (Placed.leads_epilogue hsound.loaded hholds hpointer hactive.keeps hactive.low
    hactive.high).mono ?_
  intro next hrestored
  refine ⟨hrestored.ret, hrestored.stack, fun register hregister => ?_, ?_, hrestored.same⟩
  · by_cases hsaved : register ∈ (deployment.placed frame.function).saved
    · exact hrestored.saved register hsaved
    · have hpointer : register ≠ .rsp := by
        rintro rfl
        exact absurd hregister (by decide)
      rw [hrestored.others register hpointer hsaved, hcontents register hregister]
      exact hactive.unsaved register hregister hsaved
  · exact hrestored.others .result (by decide) (Placed.not_mem_saved (by decide))

/-- The machine is about to return from a routine with a value. -/
structure AtReturn (deployment : Deployment) (origin : Option Nat) (value : Value) (entry : Nat)
    (kept : Register → Int64) (machine next : Machine) : Prop where
  ret : deployment.executable.code[next.position]? = some .ret
  pointer : next.get .rsp = Int64.ofNat entry
  stack : deployment.host.InStack entry
  kept : ∀ register ∈ Register.calleeSaved, next.get register = kept register
  value : deployment.Represents origin value (next.get .result)
  same : machine.SameRest next

theorem Running.toReturn (h : deployment.Running frame origins none entry kept machine)
    (hsound : deployment.Sound) {middle : Machine} (hrest : machine.SameRest middle)
    (hregisters : ∀ register ∈ .rsp :: Register.calleeSaved,
      middle.get register = machine.get register)
    {value : Value} {origin : Option Nat}
    (hvalue : deployment.Represents origin value (middle.get .result))
    (hholds : deployment.Holds middle.position
      (deployment.placed frame.function).epilogue.code) :
    deployment.Leads middle (deployment.AtReturn origin value entry kept machine) := by
  have hlow := h.active.low
  have hhigh := h.active.high
  have hactive : deployment.Active frame origins none entry kept machine.get middle.memory := by
    rw [hrest.memory]
    exact h.active
  have hpointer : middle.get .rsp =
      Int64.ofNat (entry - (deployment.placed frame.function).frameBytes) := by
    rw [hregisters .rsp List.mem_cons_self, h.pointer]
  refine (leads_leave hsound hactive hpointer
    (fun register hregister => hregisters register (List.mem_cons_of_mem _ hregister))
    hholds).mono ?_
  intro next hnext
  obtain ⟨hret, hentry, hkept, hresult, hsame⟩ := hnext
  exact ⟨hret, hentry, ⟨by omega, hhigh⟩, hkept, by rw [hresult]; exact hvalue,
    hrest.trans hsame⟩

/-- Past its last instruction a routine returns. Any word stands for its result. -/
theorem Running.atEnd (h : deployment.Running frame origins none entry kept machine)
    (hsound : deployment.Sound) (hend : frame.next? = none) :
    deployment.Leads machine (deployment.AtReturn none .undefined entry kept machine) := by
  have hholds := hsound.holds_epilogue h.active.function hend (h.active.falls hend)
  rw [← h.position] at hholds
  exact h.toReturn hsound (.refl machine) (fun _ _ => rfl) trivial hholds

/-- A routine returns with the value of its operand. -/
theorem Running.atRet (h : deployment.Running frame origins none entry kept machine)
    (hsound : deployment.Sound) {limits : Limits} {depth : Nat} {heap : Heap}
    {result : Option Source} (hinst : frame.next? = some (.ret result)) {value : Value}
    (hperforms : Performs deployment.program limits depth frame heap (.ret result)
      (.leave value)) :
    deployment.Leads machine
      (deployment.AtReturn (result.bind origins.source) value entry kept machine) := by
  have hfunction := h.active.function
  have hcarried : deployment.Carries frame origins none machine.cpu.get := h.active.carried
  cases hperforms with
  | leave =>
      exact h.toReturn hsound (.refl machine) (fun _ _ => rfl) trivial (h.holds hsound hinst)
  | @leaveWith src value hsrc =>
      -- The operand is copied to the result register before the epilogue restores the others.
      let copy : Emission Unit := do
        let register ← (deployment.placed frame.function).source .result src
        Placed.move register .result
      obtain ⟨register, hsource, hrest⟩ :=
        Emission.bind_result_eq_ok.mp (hsound.result_inst hfunction hinst)
      obtain ⟨_, hmove, _⟩ := Emission.bind_result_eq_ok.mp hrest
      have hresult : copy.result = .ok () :=
        Emission.bind_result_eq_ok.mpr ⟨register, hsource, hmove⟩
      have hcode : ((deployment.placed frame.function).inst (.ret (some src))).code =
          copy.code ++ (deployment.placed frame.function).epilogue.code := by
        rw [Emission.code_bind_ok hsource, List.append_assoc]
        exact (Emission.code_bind_ok hsource).trans (congrArg _ (Emission.code_bind_ok hmove))
      have htext : ∀ text, src = .str text → ∃ register, .instr (.leaLiteral text register) ∈
          ((deployment.placed frame.function).inst (.ret (some src))).code := by
        rintro text rfl
        refine ⟨.result, ?_⟩
        rw [hcode, Emission.code_bind_ok hsource, List.append_assoc]
        exact List.mem_append_left _ (Running.source_literal _ .result text)
      have hvalue := hcarried.source hsound hfunction hinst (List.mem_singleton.mpr rfl) htext hsrc
      refine (h.leads_part hsound hinst hcode hresult (Placed.copy_ensures
        (deployment.placed frame.function) deployment.address machine.cpu .result src)).bind ?_
      intro middle hmiddle
      obtain ⟨⟨hword, hsame⟩, hepilogue, _, hrest⟩ := hmiddle
      refine h.toReturn hsound hrest (fun register hregister => ?_) ?_ hepilogue
      · apply hsame register
        intro hmem
        obtain rfl := List.mem_singleton.mp hmem
        exact absurd hregister (by decide)
      · rw [show middle.get .result = _ from hword]
        exact hvalue

/-- The return from the routine where the run started ends the run. -/
theorem exits_return (hsound : deployment.Sound)
    (hret : deployment.executable.code[machine.position]? = some .ret)
    (hpointer : machine.get .rsp = Int64.ofNat entry)
    (hstack : deployment.host.InStack entry)
    (hword : machine.memory.word entry = noPosition) :
    ∃ last, machine.step deployment.host deployment.executable = .exited last ∧
      last.output = machine.output ∧ last.get .result = machine.get .result := by
  have hpop := Machine.pop_eq machine.tick hsound.loaded hstack hpointer
  refine ⟨machine.tick.set .rsp (Int64.ofNat (entry + 8)), ?_, rfl, ?_⟩
  · rw [Machine.step_of_ret hret, Machine.ret, hpop]
    change (if machine.memory.word entry = noPosition then _ else _) = _
    rw [if_pos hword]
  · exact Machine.get_set_of_ne (by decide) _

/-- When a routine has returned, the registers of its caller are as the callee was to give them
back, and the result is in the register of its destination. -/
theorem Active.resume {contents contents' : Register → Int64} {memory : Memory}
    (h : deployment.Active frame origins pending entry kept contents memory)
    (hpreserved : deployment.Preserved frame pending)
    (hcontents : ∀ register ∈ Register.calleeSaved, contents' register = contents register ∨
      ∃ dst, pending = some dst ∧
        (deployment.placed frame.function).assignment.register? dst = some register) :
    deployment.Active frame origins pending entry kept contents' memory := by
  refine ⟨h.function, fun dest hlive hpending value hvalue register hregister => ?_, h.keeps,
    fun register hcallee hunsaved => ?_, h.falls, h.low, h.high⟩
  · obtain ⟨hcallee, hapart⟩ := hpreserved dest hlive hpending register hregister
    rcases hcontents register hcallee with hsame | ⟨dst, hdst, hresult⟩
    · rw [hsame]
      exact h.carried dest hlive hpending value hvalue register hregister
    · exact absurd hresult (hapart dst hdst)
  · rcases hcontents register hcallee with hsame | ⟨dst, _, hresult⟩
    · rw [hsame]
      exact h.unsaved register hcallee hunsaved
    · exact absurd (List.mem_filter.mpr
        ⟨hcallee, decide_eq_true (Assignment.mem_registers hresult)⟩) hunsaved

theorem ofNat_ne_noPosition {place : Nat} (h : place < 18446744073709551615) :
    Int64.ofNat place ≠ noPosition := by
  intro heq
  have haddress := congrArg addressOf heq
  rw [addressOf_ofNat (by omega), show addressOf noPosition = 18446744073709551615 from rfl]
    at haddress
  omega

/-- The return from a routine leads to where its caller goes on. -/
theorem leads_return (hsound : deployment.Sound)
    (hret : deployment.executable.code[machine.position]? = some .ret)
    (hpointer : machine.get .rsp = Int64.ofNat entry)
    (hstack : deployment.host.InStack entry)
    (hkept : ∀ register ∈ Register.calleeSaved, machine.get register = kept register)
    {value : Value} {origin : Option Nat}
    (hvalue : deployment.Represents origin value (machine.get .result)) {frames : List Frame}
    {waiting : List Origins}
    (hwaits : deployment.Waits machine.memory (frame :: frames) (origins :: waiting) pending entry
      kept) :
    deployment.Leads machine fun next => ∃ entry' kept',
      deployment.Running (frame.assign? pending value) (origins.set? pending origin) none entry'
        kept' next ∧
      deployment.Waits next.memory frames waiting frame.resultDest entry' kept' ∧
      machine.SameRest next := by
  cases hwaits with
  | @cons _ _ _ _ _ _ entry' place _ kept' hword hplace hholds hsite hactive hpreserved hentry
      hrest =>
      have hpop := Machine.pop_eq machine.tick hsound.loaded hstack hpointer
      have hstep : machine.step deployment.host deployment.executable =
          .running ((machine.tick.set .rsp (Int64.ofNat (entry + 8))).goto place) := by
        rw [Machine.step_of_ret hret, Machine.ret, hpop]
        change (if machine.memory.word entry = noPosition then _ else _) = _
        rw [hword, if_neg (ofNat_ne_noPosition hplace)]
        change NativeStep.running (Machine.goto _ (addressOf (machine.memory.word entry))) = _
        rw [hword, addressOf_ofNat (by omega)]
      refine .step hstep (Machine.Leads.mono (leads_result hholds) ?_)
      intro next hnext
      obtain ⟨hposition, hresult, hothers, hsame⟩ := hnext
      have hbefore : ∀ register, register ≠ .rsp →
          ((machine.tick.set .rsp (Int64.ofNat (entry + 8))).goto place).get register =
            machine.get register := fun register hne => Machine.get_set_of_ne hne _
      have hmemory : next.memory = machine.memory := hsame.memory
      -- The callee gave back all registers but that of the result, which is still pending here.
      have hactive' : deployment.Active frame origins pending entry' kept' next.get
          machine.memory := by
        apply hactive.resume hpreserved
        intro register hcallee
        rcases hothers register with heq | hpending
        · left
          rw [heq, hbefore register, hkept register hcallee]
          rintro rfl
          exact absurd hcallee (by decide)
        · exact .inr hpending
      have hrunning : deployment.Running frame origins pending entry' kept' next := by
        refine ⟨by rw [hmemory]; exact hactive', ?_, ?_⟩
        · rw [hposition]
          exact hsite
        · have hpointer' : next.get .rsp = Int64.ofNat (entry + 8) := by
            rcases hothers .rsp with heq | ⟨dst, _, hregister⟩
            · rw [heq]
              exact Cpu.get_set_self _ _ _
            · have hne := Placed.ne_scratch (hsound.allocatable hactive.function hregister)
              exact absurd rfl hne.2.2.1
          rw [hpointer', ← hentry, Nat.add_sub_cancel]
      refine ⟨entry', kept', hrunning.assign? value origin fun dst register hdst hregister => ?_,
        by rw [hmemory]; exact hrest, ⟨hsame.memory, hsame.arena, hsame.output⟩⟩
      rw [hresult dst register hdst hregister, hbefore .result (by decide)]
      exact hvalue

end ThreeAddress.Deployment
