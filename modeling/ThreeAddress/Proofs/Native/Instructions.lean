import ThreeAddress.Proofs.Native.Frames

/-!
# Instructions that stay in a routine

The code of an instruction that neither calls nor returns leads to the code of the
instruction that comes next, with the values of live destinations in their
registers again.
-/

namespace ThreeAddress.Deployment

variable {deployment : Deployment} {frame : Frame} {origins : Origins} {entry : Nat}
  {kept : Register → Int64} {machine : Machine} {inst : Inst} {effect : Effect}
  {limits : Limits} {depth : Nat} {heap : Heap}

namespace Running

/-- A machine at the place where an effect continues. -/
theorem goto {next : Machine} {index : Nat}
    (h : deployment.Running frame origins none entry kept machine) (hsound : deployment.Sound)
    (hinst : frame.next? = some inst)
    (hperforms : Performs deployment.program limits depth frame heap inst effect)
    (hnext : effect.next? frame.index = some index)
    (hposition : next.position = deployment.site (frame.goto index))
    (hchanged : ∀ register, next.get register = machine.get register ∨
      (deployment.placed frame.function).MayChange frame.index inst register)
    (hmemory : machine.memory.SameIn next.memory
      (entry - (deployment.placed frame.function).frameBytes) entry) :
    deployment.Running (frame.goto index) origins effect.dst? entry kept next := by
  have hactive := h.active.goto hsound hinst hperforms hnext fun register _ => hchanged register
  refine ⟨hactive.congr_memory hmemory, hposition, ?_⟩
  rcases hchanged .rsp with hsame | hmay
  · rw [hsame]
    exact h.pointer
  · exact absurd rfl hmay.pointer

theorem assign? {pending : Option Dest}
    (h : deployment.Running frame origins pending entry kept machine) (value : Value)
    (origin : Option Nat)
    (hvalue : ∀ dst register, pending = some dst →
      (deployment.placed frame.function).assignment.register? dst = some register →
      deployment.Represents origin value (machine.get register)) :
    deployment.Running (frame.assign? pending value) (origins.set? pending origin) none entry kept
      machine := by
  have hactive := h.active.assign? hvalue
  refine ⟨hactive, ?_, ?_⟩
  · rw [h.position]
    cases pending <;> rfl
  · rw [h.pointer]
    cases pending <;> rfl

/-- The code of the next instruction is where the machine is. -/
theorem holds {pending : Option Dest}
    (h : deployment.Running frame origins pending entry kept machine) (hsound : deployment.Sound)
    (hinst : frame.next? = some inst) :
    deployment.Holds machine.position ((deployment.placed frame.function).inst inst).code := by
  rw [h.position]
  exact hsound.holds_inst h.active.function hinst

/-- The first part of the code of an instruction leads to the rest of it. -/
theorem leads_part {pending : Option Dest} {α : Type} {part : Emission α} {value : α}
    {rest : List (Item String)} {post : α → Cpu → Prop}
    (h : deployment.Running frame origins pending entry kept machine) (hsound : deployment.Sound)
    (hinst : frame.next? = some inst)
    (hcode : ((deployment.placed frame.function).inst inst).code = part.code ++ rest)
    (hresult : part.result = .ok value)
    (hensures : part.Ensures deployment.address machine.cpu post) :
    deployment.Leads machine fun next =>
      post value next.cpu ∧ deployment.Holds next.position rest ∧
      next.position + Item.count rest = deployment.site frame.advance ∧
      machine.SameRest next := by
  have hholds := h.holds hsound hinst
  have hsite := Sound.site_advance deployment hinst
  rw [hcode, Holds, Executable.holds_append] at hholds
  rw [hcode, Item.count_append, ← h.position] at hsite
  apply (Machine.Leads.ensures hholds.1 hresult hensures).mono
  intro next hnext
  obtain ⟨hpost, hposition, hrest⟩ := hnext
  rw [← hposition] at hholds
  exact ⟨hpost, hholds.2, by rw [hposition, hsite, Nat.add_assoc], hrest⟩

/-- Straight code of an instruction is carried out. -/
theorem straight (h : deployment.Running frame origins none entry kept machine)
    (hsound : deployment.Sound) (hinst : frame.next? = some inst)
    (hperforms : Performs deployment.program limits depth frame heap inst effect)
    (hnext : effect.next? frame.index = some (frame.index + 1)) {post : Cpu → Prop}
    (hensures : ((deployment.placed frame.function).inst inst).Ensures deployment.address
      machine.cpu fun _ next => post next ∧
        ∀ register, next.get register = machine.cpu.get register ∨
          (deployment.placed frame.function).MayChange frame.index inst register) :
    deployment.Leads machine fun next => post next.cpu ∧
      deployment.Running frame.advance origins effect.dst? entry kept next ∧
      machine.SameRest next := by
  have hcode : ((deployment.placed frame.function).inst inst).code =
      ((deployment.placed frame.function).inst inst).code ++ [] := (List.append_nil _).symm
  refine (h.leads_part hsound hinst hcode (hsound.result_inst h.active.function hinst)
    hensures).mono ?_
  intro next hlast
  obtain ⟨⟨hpost, hchanged⟩, _, hposition, hsame⟩ := hlast
  refine ⟨hpost, h.goto hsound hinst hperforms hnext hposition hchanged ?_, hsame⟩
  rw [hsame.memory]
  exact Memory.SameIn.refl _ _ _

theorem changed_of_same {registers : List Register} {cpu next : Cpu} {placed : Placed}
    {index : Nat} (hsame : cpu.SameExcept registers next)
    (hmay : ∀ register ∈ registers, placed.MayChange index inst register) (register : Register) :
    next.get register = cpu.get register ∨ placed.MayChange index inst register := by
  by_cases hmem : register ∈ registers
  · exact .inr (hmay register hmem)
  · exact .inl (hsame register hmem)

/-- An instruction that assigns has an effect on its destination alone, which may have no
register. -/
theorem computes (h : deployment.Running frame origins none entry kept machine)
    (hsound : deployment.Sound) (hinst : frame.next? = some inst) {dst : Dest} {value : Value}
    {origin : Option Nat}
    (hperforms : Performs deployment.program limits depth frame heap inst (.assign dst value))
    (hnone : (deployment.placed frame.function).assignment.register? dst = none →
      (deployment.placed frame.function).inst inst = pure ())
    (hensures : ∀ register,
      (deployment.placed frame.function).assignment.register? dst = some register →
      ((deployment.placed frame.function).inst inst).Ensures deployment.address machine.cpu
        fun _ next => deployment.Represents origin value (next.get register) ∧
          ∀ other, next.get other = machine.cpu.get other ∨
            (deployment.placed frame.function).MayChange frame.index inst other) :
    deployment.Leads machine fun next =>
      deployment.Running (frame.assign dst value).advance (origins.set dst origin) none entry kept
        next ∧ machine.SameRest next := by
  have hensures' : ((deployment.placed frame.function).inst inst).Ensures deployment.address
      machine.cpu fun _ next =>
        (∀ register,
          (deployment.placed frame.function).assignment.register? dst = some register →
          deployment.Represents origin value (next.get register)) ∧
        ∀ other, next.get other = machine.cpu.get other ∨
          (deployment.placed frame.function).MayChange frame.index inst other := by
    cases hregister : (deployment.placed frame.function).assignment.register? dst with
    | none =>
        rw [hnone hregister]
        refine .pure ⟨fun other hother => ?_, fun _ => .inl rfl⟩
        cases hother
    | some register =>
        refine (hensures register hregister).mono fun _ next hnext => ⟨?_, hnext.2⟩
        intro other hother
        rw [← Option.some.inj hother]
        exact hnext.1
  apply (h.straight hsound hinst hperforms rfl hensures').mono
  intro next hnext
  obtain ⟨hvalue, hrunning, hsame⟩ := hnext
  refine ⟨?_, hsame⟩
  have hassigned := hrunning.assign? value origin
    fun dst' register hdst hregister => by
      obtain rfl := Option.some.inj hdst
      exact hvalue register hregister
  exact hassigned

/-! ## Operations and copies -/

theorem mayChange_touched (hsound : deployment.Sound)
    (hfunction : frame.function ∈ deployment.program.functions)
    (hinst : frame.next? = some inst) (dst : Dest) (hdef : inst.def? = some dst)
    {register : Register}
    (hregister : (deployment.placed frame.function).assignment.register? dst = some register) :
    ∀ other ∈ Placed.touched register,
      (deployment.placed frame.function).MayChange frame.index inst other := by
  intro other hother
  simp only [Placed.touched, List.mem_cons, List.not_mem_nil, or_false] at hother
  rcases hother with rfl | rfl | rfl
  · exact .of_def (hsound.legal hfunction) hinst hdef hregister
  · exact .of_scratch (hsound.allocatable hfunction) (by decide)
  · exact .of_scratch (hsound.allocatable hfunction) (by decide)

theorem binary (h : deployment.Running frame origins none entry kept machine)
    (hsound : deployment.Sound) {op : BinaryOp} {dst : Dest} {left right : Source}
    (hinst : frame.next? = some (.binary op dst left right)) {value : Value}
    (hperforms : Performs deployment.program limits depth frame heap (.binary op dst left right)
      (.assign dst value))
    (hplain : ∀ source ∈ [left, right], origins.source source = none) :
    deployment.Leads machine fun next =>
      deployment.Running (frame.assign dst value).advance (origins.set dst none) none entry kept
        next ∧ machine.SameRest next := by
  have hfunction := h.active.function
  have hcarried : deployment.Carries frame origins none machine.cpu.get := h.active.carried
  refine h.computes hsound hinst hperforms ?_ fun register hregister => ?_
  · intro hnone
    simp only [Placed.inst, Lowering.inst, hnone]
  · cases hperforms with
    | @binary _ _ _ _ _ _ _ hleft hright hop =>
        have hcode : (deployment.placed frame.function).inst (.binary op dst left right) =
            (deployment.placed frame.function).binary op register left right := by
          simp only [Placed.inst, Lowering.inst, hregister]
        rw [hcode]
        refine (Placed.binary_ensures (hsound.allocatable hfunction)
          (hsound.allocatable hfunction hregister)
          (hcarried.fits hsound hfunction hinst (by simp [Inst.sources]) (hplain left (by simp))
            hleft)
          (hcarried.fits hsound hfunction hinst (by simp [Inst.sources]) (hplain right (by simp))
            hright)
          hop).mono ?_
        intro _ next hnext
        obtain ⟨hvalue, hsame⟩ := hnext
        refine ⟨represents_of_word? hvalue, changed_of_same hsame fun other hother => ?_⟩
        have htouched := mayChange_touched hsound hfunction hinst dst rfl hregister
        unfold Placed.changed at hother
        split at hother
        next hdivision =>
          subst hdivision
          rw [List.mem_cons, List.mem_cons] at hother
          rcases hother with hrax | hrdx | hother
          · exact .of_division (hsound.legal hfunction) hinst rfl (.inl hrax)
          · exact .of_division (hsound.legal hfunction) hinst rfl (.inr hrdx)
          · exact htouched other hother
        next => exact htouched other hother

theorem unary (h : deployment.Running frame origins none entry kept machine)
    (hsound : deployment.Sound) {op : UnaryOp} {dst : Dest} {src : Source}
    (hinst : frame.next? = some (.unary op dst src)) {value : Value}
    (hperforms : Performs deployment.program limits depth frame heap (.unary op dst src)
      (.assign dst value))
    (hplain : origins.source src = none) :
    deployment.Leads machine fun next =>
      deployment.Running (frame.assign dst value).advance (origins.set dst none) none entry kept
        next ∧ machine.SameRest next := by
  have hfunction := h.active.function
  have hcarried : deployment.Carries frame origins none machine.cpu.get := h.active.carried
  refine h.computes hsound hinst hperforms ?_ fun register hregister => ?_
  · intro hnone
    simp only [Placed.inst, Lowering.inst, hnone]
  · cases hperforms with
    | unary hsrc hop =>
        have hcode : (deployment.placed frame.function).inst (.unary op dst src) =
            (deployment.placed frame.function).unary op register src := by
          simp only [Placed.inst, Lowering.inst, hregister]
        rw [hcode]
        refine (Placed.unary_ensures
          (hcarried.fits hsound hfunction hinst (by simp [Inst.sources]) hplain hsrc) hop).mono ?_
        intro _ next hnext
        obtain ⟨hvalue, hsame⟩ := hnext
        refine ⟨represents_of_word? hvalue, changed_of_same hsame fun other hother => ?_⟩
        apply mayChange_touched hsound hfunction hinst dst rfl hregister other
        exact List.mem_cons.mpr (.inl (List.mem_singleton.mp hother))

theorem source_literal (placed : Placed) (register : Register) (text : String) :
    .instr (.leaLiteral text register) ∈ (placed.source register (.str text)).code :=
  List.mem_cons_self

theorem move (h : deployment.Running frame origins none entry kept machine)
    (hsound : deployment.Sound) {dst : Dest} {src : Source}
    (hinst : frame.next? = some (.move dst src)) {value : Value}
    (hperforms : Performs deployment.program limits depth frame heap (.move dst src)
      (.assign dst value)) :
    deployment.Leads machine fun next =>
      deployment.Running (frame.assign dst value).advance (origins.set dst (origins.source src))
        none entry kept next ∧ machine.SameRest next := by
  have hfunction := h.active.function
  have hcarried : deployment.Carries frame origins none machine.cpu.get := h.active.carried
  refine h.computes hsound hinst hperforms ?_ fun register hregister => ?_
  · intro hnone
    simp only [Placed.inst, Lowering.inst, hnone]
  · cases hperforms with
    | move hsrc =>
        have hcode : (deployment.placed frame.function).inst (.move dst src) = (do
            let operand ← (deployment.placed frame.function).source register src
            Placed.move operand register) := by
          simp only [Placed.inst, Lowering.inst, hregister]
        have htext : ∀ text, src = .str text → ∃ register, .instr (.leaLiteral text register) ∈
            ((deployment.placed frame.function).inst (.move dst src)).code := by
          rintro text rfl
          refine ⟨register, ?_⟩
          have hresult : ((deployment.placed frame.function).source register (.str text)).result =
              .ok register := rfl
          rw [hcode, Emission.code_bind_ok hresult]
          exact List.mem_append_left _ (source_literal _ register text)
        have hmem : src ∈ (Inst.move dst src).sources := List.mem_singleton.mpr rfl
        have hrepresents := hcarried.source hsound hfunction hinst hmem htext hsrc
        rw [hcode]
        refine (Placed.copy_ensures (deployment.placed frame.function) deployment.address
          machine.cpu register src).mono ?_
        intro _ next hnext
        obtain ⟨hget, hsame⟩ := hnext
        rw [hget]
        refine ⟨hrepresents, changed_of_same hsame fun other hother => ?_⟩
        apply mayChange_touched hsound hfunction hinst dst rfl hregister other
        exact List.mem_cons.mpr (.inl (List.mem_singleton.mp hother))

/-! ## Control -/

theorem label (h : deployment.Running frame origins none entry kept machine)
    (hsound : deployment.Sound) {name : String} (hinst : frame.next? = some (.label name))
    (hperforms : Performs deployment.program limits depth frame heap (.label name) .skip) :
    deployment.Running frame.advance origins none entry kept machine := by
  refine h.goto hsound hinst hperforms rfl ?_ (fun _ => .inl rfl) (Memory.SameIn.refl _ _ _)
  rw [h.position]
  exact (Sound.site_advance deployment hinst).symm

theorem jump (h : deployment.Running frame origins none entry kept machine)
    (hsound : deployment.Sound) {target : String} (hinst : frame.next? = some (.jump target))
    {index : Nat}
    (hperforms : Performs deployment.program limits depth frame heap (.jump target)
      (.jump index)) :
    deployment.Leads machine fun next =>
      deployment.Running (frame.goto index) origins none entry kept next ∧
        machine.SameRest next := by
  have hcode := (h.holds hsound hinst).1
  refine .exec hcode (by rintro ⟨⟩) rfl (.refl ⟨?_, rfl, rfl, rfl⟩)
  refine h.goto hsound hinst hperforms rfl ?_ (fun _ => .inl rfl) (Memory.SameIn.refl _ _ _)
  cases hperforms with
  | jump htarget => exact hsound.position_label h.active.function htarget

/-- The comparison of a branch leads to its conditional jump. -/
theorem compare (h : deployment.Running frame origins none entry kept machine)
    (hsound : deployment.Sound) {op : RelOp} {left right : Source} {target : String}
    (hinst : frame.next? = some (.branch op left right target)) {leftValue rightValue : Value}
    {holds : Bool} (hleft : frame.eval left = .ok leftValue)
    (hright : frame.eval right = .ok rightValue) (hop : op.eval leftValue rightValue = .ok holds)
    (hplain : ∀ source ∈ [left, right], origins.source source = none) :
    deployment.Leads machine fun next =>
      next.cpu.holds? op.condition = some holds ∧
      deployment.executable.code[next.position]? = some (.jcc op.condition
        (deployment.position (localLabel frame.function.name target))) ∧
      next.position + 1 = deployment.site frame.advance ∧
      (∀ register, next.get register = machine.get register ∨
        (deployment.placed frame.function).MayChange frame.index (.branch op left right target)
          register) ∧
      machine.SameRest next := by
  have hfunction := h.active.function
  have hcarried : deployment.Carries frame origins none machine.cpu.get := h.active.carried
  have hresult := hsound.result_inst hfunction hinst
  obtain ⟨_, hcompare, _⟩ := Emission.bind_result_eq_ok.mp hresult
  have hcode : ((deployment.placed frame.function).inst (.branch op left right target)).code =
      ((deployment.placed frame.function).compare left right).code ++
        [.instr (.jcc op.condition (localLabel frame.function.name target))] :=
    Emission.code_bind_ok hcompare
  obtain ⟨leftWord, rightWord, hleftWord, hrightWord, hcondition⟩ := RelOp.eval_eq_ok hop
  refine (h.leads_part hsound hinst hcode hcompare
    (Placed.compare_ensures (hsound.allocatable hfunction) left right)).mono ?_
  intro next hnext
  obtain ⟨⟨hcompared, hsame⟩, hholds, hposition, hrest⟩ := hnext
  rw [hcarried.fits hsound hfunction hinst (by simp [Inst.sources]) (hplain left (by simp)) hleft
      leftWord hleftWord,
    hcarried.fits hsound hfunction hinst (by simp [Inst.sources]) (hplain right (by simp)) hright
      rightWord hrightWord] at hcompared
  refine ⟨?_, hholds.1, hposition, changed_of_same hsame fun other hother => ?_, hrest⟩
  · rw [Cpu.holds?, hcompared, Option.map_some, hcondition]
  · simp only [List.mem_cons, List.not_mem_nil, or_false] at hother
    rcases hother with rfl | rfl <;>
      exact .of_scratch (hsound.allocatable hfunction) (by decide)

theorem branch (h : deployment.Running frame origins none entry kept machine)
    (hsound : deployment.Sound) {op : RelOp} {left right : Source} {target : String}
    (hinst : frame.next? = some (.branch op left right target))
    (hperforms : Performs deployment.program limits depth frame heap
      (.branch op left right target) effect)
    (hplain : ∀ source ∈ [left, right], origins.source source = none) {index : Nat}
    (hnext : effect.next? frame.index = some index) :
    deployment.Leads machine fun next =>
      deployment.Running (frame.goto index) origins none entry kept next ∧
        machine.SameRest next := by
  have hall := hperforms
  cases hperforms with
  | taken hleft hright hop htarget =>
      apply (h.compare hsound hinst hleft hright hop hplain).bind
      intro middle hmiddle
      obtain ⟨hholds, hcode, _, hchanged, hrest⟩ := hmiddle
      have hexec : middle.tick.exec deployment.host deployment.executable (.jcc op.condition
          (deployment.position (localLabel frame.function.name target))) =
            .ok (middle.tick.goto
              (deployment.position (localLabel frame.function.name target))) := by
        simp only [Machine.exec, Machine.tick, hholds, if_true]
      obtain rfl := Option.some.inj hnext
      refine .exec hcode (by rintro ⟨⟩) hexec (.refl ⟨?_, hrest.memory, hrest.arena, hrest.output⟩)
      refine h.goto hsound hinst hall rfl ?_ hchanged ?_
      · exact hsound.position_label h.active.function htarget
      · rw [show (middle.tick.goto _).memory = machine.memory from hrest.memory]
        exact Memory.SameIn.refl _ _ _
  | passed hleft hright hop =>
      apply (h.compare hsound hinst hleft hright hop hplain).bind
      intro middle hmiddle
      obtain ⟨hholds, hcode, hposition, hchanged, hrest⟩ := hmiddle
      have hexec : middle.tick.exec deployment.host deployment.executable (.jcc op.condition
          (deployment.position (localLabel frame.function.name target))) =
            .ok middle.tick.advance := by
        simp only [Machine.exec, Machine.tick, hholds]
        rfl
      obtain rfl := Option.some.inj hnext
      refine .exec hcode (by rintro ⟨⟩) hexec (.refl ⟨?_, hrest.memory, hrest.arena, hrest.output⟩)
      refine h.goto hsound hinst hall rfl hposition hchanged ?_
      rw [show middle.tick.advance.memory = machine.memory from hrest.memory]
      exact Memory.SameIn.refl _ _ _

end Running

end ThreeAddress.Deployment
