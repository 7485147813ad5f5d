import ThreeAddress.Proofs.Native.Linking

/-!
# Steps of the processor

Runs are put together from what single instructions and straight pieces of code
lead to. Straight code changes the registers and the position, and nothing else
of the machine.
-/

namespace ThreeAddress.Machine

variable {host : Host} {executable : Executable} {machine next last : Machine}

/-- Some number of instructions leads to a machine of which `post` holds. -/
def Leads (host : Host) (executable : Executable) (machine : Machine) (post : Machine → Prop) :
    Prop :=
  ∃ fuel last, machine.run host executable fuel = .running last ∧ post last

theorem run_add {fuel : Nat} (h : machine.run host executable fuel = .running next) (more : Nat) :
    machine.run host executable (fuel + more) = next.run host executable more := by
  induction fuel generalizing machine with
  | zero =>
      obtain rfl := NativeStep.running.inj h
      rw [Nat.zero_add]
  | succ fuel ih =>
      rw [Nat.add_right_comm, run]
      rw [run] at h
      cases hstep : machine.step host executable with
      | running middle =>
          rw [hstep] at h
          exact ih h
      | exited | trapped => simp [hstep] at h

theorem Leads.refl {post : Machine → Prop} (h : post machine) :
    machine.Leads host executable post :=
  ⟨0, machine, rfl, h⟩

theorem Leads.bind {middle post : Machine → Prop} (h : machine.Leads host executable middle)
    (hrest : ∀ next, middle next → next.Leads host executable post) :
    machine.Leads host executable post := by
  obtain ⟨fuel, next, hrun, hnext⟩ := h
  obtain ⟨more, last, hlast, hpost⟩ := hrest next hnext
  exact ⟨fuel + more, last, (run_add hrun more).trans hlast, hpost⟩

theorem Leads.mono {middle post : Machine → Prop} (h : machine.Leads host executable middle)
    (himp : ∀ next, middle next → post next) : machine.Leads host executable post :=
  h.bind fun next hnext => .refl (himp next hnext)

theorem Leads.step {post : Machine → Prop} (hstep : machine.step host executable = .running next)
    (h : next.Leads host executable post) : machine.Leads host executable post := by
  obtain ⟨fuel, last, hrun, hpost⟩ := h
  exact ⟨fuel + 1, last, by rw [run, hstep]; exact hrun, hpost⟩

/-- What leads to a machine whose next step ends the run ends the run. -/
theorem Leads.exits {post : Machine → Prop}
    (h : machine.Leads host executable fun next =>
      ∃ last, next.step host executable = .exited last ∧ post last) :
    ∃ fuel last, machine.run host executable fuel = .exited last ∧ post last := by
  obtain ⟨fuel, next, hrun, last, hstep, hpost⟩ := h
  refine ⟨fuel + 1, last, ?_, hpost⟩
  rw [run_add hrun, run, hstep]

/-- The machine as an instruction finds it. -/
def tick (machine : Machine) : Machine := { machine with ticks := machine.ticks + 1 }

/-- An instruction that is carried out. -/
theorem Leads.exec {post : Machine → Prop} {code : Linked}
    (hcode : executable.code[machine.position]? = some code) (hret : code ≠ .ret)
    (hexec : machine.tick.exec host executable code = .ok next)
    (h : next.Leads host executable post) : machine.Leads host executable post := by
  refine .step ?_ h
  unfold tick at hexec
  unfold Machine.step
  dsimp only
  split
  next heq => cases hcode.symm.trans heq
  next heq => exact absurd (Option.some.inj (hcode.symm.trans heq)) hret
  next found _ heq =>
    obtain rfl := Option.some.inj (hcode.symm.trans heq)
    rw [hexec]

theorem step_of_ret (hcode : executable.code[machine.position]? = some .ret) :
    machine.step host executable = machine.tick.ret host executable := by
  rw [Machine.step]
  simp only [hcode]
  rfl

/-- Everything but registers, position and ticks is the same in both. -/
structure SameRest (machine next : Machine) : Prop where
  memory : next.memory = machine.memory
  arena : next.arena = machine.arena
  output : next.output = machine.output

theorem SameRest.refl (machine : Machine) : machine.SameRest machine := ⟨rfl, rfl, rfl⟩

theorem SameRest.trans (hfirst : machine.SameRest next) (hsecond : next.SameRest last) :
    machine.SameRest last :=
  ⟨hsecond.memory.trans hfirst.memory, hsecond.arena.trans hfirst.arena,
    hsecond.output.trans hfirst.output⟩

variable {position : String → Nat} {address : String → Int64}

/-- An instruction on registers and flags does the same once it is linked. -/
theorem exec_link (host : Host) (executable : Executable) (machine : Machine)
    (position : String → Nat) {cpu : Cpu} {code : Instr String String String}
    (h : machine.cpu.exec? (code.map id id address) = some (.ok cpu)) :
    (code.link position address ≠ .ret) ∧
      machine.exec host executable (code.link position address) =
        .ok { machine with cpu }.advance := by
  cases code with
  | mov | movImm | leaLiteral | alu | neg | xorImm | signExtend | extendDividend | cmp
  | zeroExtend =>
      obtain rfl := Except.ok.inj (Option.some.inj h)
      exact ⟨by rintro ⟨⟩, rfl⟩
  | divide divisor =>
      simp only [Instr.map, Cpu.exec?] at h
      split at h
      next => exact absurd h (by simp)
      next hdivide =>
        obtain rfl := Except.ok.inj (Option.some.inj h)
        refine ⟨by rintro ⟨⟩, ?_⟩
        simp only [Instr.link, Instr.map, Machine.exec, Cpu.exec?, hdivide]
  | set condition dst =>
      simp only [Instr.map, Cpu.exec?] at h
      split at h
      next => exact absurd h (by simp)
      next hholds =>
        obtain rfl := Except.ok.inj (Option.some.inj h)
        refine ⟨by rintro ⟨⟩, ?_⟩
        simp only [Instr.link, Instr.map, Machine.exec, Cpu.exec?, hholds]
  | load32 | store32 | jmp | jcc | call | push | pop | subSp | addSp | ret =>
      exact absurd h (by simp [Instr.map, Cpu.exec?])

/-- Straight code is carried out to its end. -/
theorem Leads.execAll {items : List (Item String)} {cpu : Cpu}
    (hholds : executable.Holds position (Instr.link position address) machine.position items)
    (hexec : machine.cpu.execAll address items = some cpu) :
    machine.Leads host executable fun next =>
      next.cpu = cpu ∧ next.position = machine.position + Item.count items ∧
        machine.SameRest next := by
  induction items generalizing machine with
  | nil =>
      obtain rfl := Option.some.inj hexec
      exact .refl ⟨rfl, rfl, .refl machine⟩
  | cons item rest ih =>
      cases item with
      | label => simp [Cpu.execAll] at hexec
      | instr code =>
          unfold Cpu.execAll at hexec
          split at hexec
          next middle hmiddle =>
            obtain ⟨hcode, hrest⟩ := hholds
            obtain ⟨hret, hlinked⟩ := exec_link host executable machine.tick position hmiddle
            refine .exec hcode hret hlinked ?_
            apply (ih hrest hexec).mono
            intro next hnext
            obtain ⟨hcpu, hposition, hsame⟩ := hnext
            refine ⟨hcpu, ?_, hsame.memory, hsame.arena, hsame.output⟩
            rw [hposition]
            change machine.position + 1 + Item.count rest = machine.position + (Item.count rest + 1)
            omega
          next => exact absurd hexec (by simp)

/-- Written code is carried out to its end, and ensures what it is known to ensure. -/
theorem Leads.ensures {α : Type} {emission : Emission α} {post : α → Cpu → Prop} {value : α}
    (hholds :
      executable.Holds position (Instr.link position address) machine.position emission.code)
    (hresult : emission.result = .ok value)
    (hensures : emission.Ensures address machine.cpu post) :
    machine.Leads host executable fun next =>
      post value next.cpu ∧ next.position = machine.position + Item.count emission.code ∧
        machine.SameRest next := by
  obtain ⟨cpu, hexec, hpost⟩ := hensures value hresult
  apply (Leads.execAll hholds hexec).mono
  intro next hnext
  obtain ⟨hcpu, hposition, hsame⟩ := hnext
  exact ⟨hcpu ▸ hpost, hposition, hsame⟩

end ThreeAddress.Machine
