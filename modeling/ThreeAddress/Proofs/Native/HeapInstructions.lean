import ThreeAddress.Proofs.Native.HeapAccess

/-!
# Instructions on the heap

Loads, stores and allocations do in memory what they do in the heap of a run, as
long as a load finds the bytes of the value in its slot.
-/

namespace ThreeAddress

namespace Machine

variable {host : Host} {executable : Executable} {machine : Machine} {base : Register}
  {offset : Int32} {address : Nat}

theorem exec_load32 {number : Nat}
    (haddress : addressOf (machine.get base + offset.toInt64) = address)
    (hload : machine.load host executable address 4 = .ok number) (dst : Register) :
    machine.exec host executable (.load32 base offset dst) =
      .ok (machine.set dst (Int32.ofNat number).toInt64).advance := by
  change (do
    let number ← machine.load host executable (addressOf (machine.get base + offset.toInt64)) 4
    return (machine.set dst (Int32.ofNat number).toInt64).advance) = _
  rw [haddress, hload]
  rfl

theorem exec_store32 (haddress : addressOf (machine.get base + offset.toInt64) = address)
    (hwritable : ∀ part < 4, machine.isWritable host (address + part) = true) (src : Register) :
    machine.exec host executable (.store32 src base offset) =
      .ok { machine with
        memory := machine.memory.write address
          (Bytes.ofNat 4 (addressOf (machine.get src))) }.advance := by
  change (do
    return (← machine.store host (addressOf (machine.get base + offset.toInt64)) 4
      (addressOf (machine.get src))).advance) = _
  rw [haddress, store_of_writable hwritable]
  rfl

end Machine

namespace Deployment

variable {deployment : Deployment} {frame : Frame} {ledger : Ledger} {entry : Nat}
  {kept : Register → Int64} {machine : Machine} {limits : Limits} {depth : Nat} {heap : Heap}
  {address : Address} {cell : Cell}

/-- The heap is in memory as long as neither memory nor arena changes. -/
theorem HoldsHeap.of_memory {next : Machine} (h : deployment.HoldsHeap heap ledger machine)
    (hmemory : next.memory = machine.memory) (harena : next.arena = machine.arena) :
    deployment.HoldsHeap heap ledger next :=
  ⟨h.blocks, harena.trans h.arena, h.small, h.slots, by rw [hmemory]; exact h.bytes⟩

theorem HoldsHeap.of_sameRest {next : Machine} (h : deployment.HoldsHeap heap ledger machine)
    (hsame : machine.SameRest next) : deployment.HoldsHeap heap ledger next :=
  h.of_memory hsame.memory hsame.arena

/-- What is stored in a slot is known, unless it is a text or undefined, and its low four bytes
stand for it. -/
theorem HoldsHeap.storedWord? (h : deployment.HoldsHeap heap ledger machine) {slot : Nat}
    {value : Value} (hvalue : (heap.get? slot).getD .undefined = value)
    (hword : value.word?.isSome = true) :
    ∃ word, deployment.storedWord? (ledger.slots slot) value = some word ∧
      deployment.Represents (ledger.slots slot) value word.toInt32.toInt64 := by
  cases horigin : ledger.slots slot with
  | some block =>
      obtain ⟨found, hfound, hpointer⟩ := h.slots slot block horigin
      rw [hfound] at hvalue
      obtain rfl : found = value := hvalue
      refine ⟨_, rfl, ?_⟩
      rw [toInt64_ofNat hpointer.2.1]
      exact hpointer
  | none =>
      obtain ⟨word, hsome⟩ := Option.isSome_iff_exists.mp hword
      refine ⟨word, hsome, ?_⟩
      rw [Value.toInt64_of_word? hsome]
      exact represents_of_word? hsome

/-- A load from a slot. -/
theorem HoldsHeap.exec_load (h : deployment.HoldsHeap heap ledger machine)
    (hsound : deployment.Sound) {found : Block}
    (hfound : ledger.blocks[cell.block]? = some found)
    (hoffset : cell.offset + 4 ≤ 4 * found.size) {value : Value}
    (hwhole : ledger.read cell = value.storedBytes (ledger.slots cell.slot)) {word : Int64}
    (hword : deployment.storedWord? (ledger.slots cell.slot) value = some word)
    (register : Register) {base : Register} {offset : Int32}
    (haddress : addressOf (machine.get base + offset.toInt64) =
      deployment.place cell.block + cell.offset) :
    machine.exec deployment.host deployment.executable (.load32 base offset register) =
      .ok (machine.set register word.toInt32.toInt64).advance := by
  have hload := h.load hsound hfound hoffset
  rw [h.read_eq hfound hoffset hwhole hword] at hload
  rw [Machine.exec_load32 haddress hload, ofNat_toNat_bytes]

/-- If no pointer is among the bytes at a slot, a load gives the number or truth value in the slot
only if it reads the bytes of that value. -/
theorem HoldsHeap.exec_load_iff (h : deployment.HoldsHeap heap ledger machine)
    (hsound : deployment.Sound) {found : Block}
    (hfound : ledger.blocks[cell.block]? = some found)
    (hoffset : cell.offset + 4 ≤ 4 * found.size) {bytes : List UInt8}
    (hplain : ledger.read cell = bytes.map .plain) {value : Value} {word : Int64}
    (hword : value.word? = some word) (register : Register) {base : Register} {offset : Int32}
    (haddress : addressOf (machine.get base + offset.toInt64) =
      deployment.place cell.block + cell.offset) :
    ∃ loaded, machine.exec deployment.host deployment.executable (.load32 base offset register) =
        .ok (machine.set register loaded).advance ∧
      (deployment.Represents none value loaded ↔ ledger.read cell = value.storedBytes none) := by
  have hload := h.load hsound hfound hoffset
  have hread := h.read_plain hfound hoffset hplain
  have hlength : (machine.memory.read (deployment.place cell.block + cell.offset) 4).length = 4 :=
    Memory.length_read _ _ _
  rw [hread] at hload hlength
  refine ⟨(Int32.ofNat (Bytes.toNat bytes)).toInt64, Machine.exec_load32 haddress hload register,
    ?_, ?_⟩
  · intro hrepresents
    have hbytes := eq_of_loaded hlength (hrepresents.fits word hword)
    rw [hplain, hbytes, Value.storedBytes, hword]
  · intro hwhole
    have hsame := h.read_eq hfound hoffset hwhole hword
    rw [hread] at hsame
    rw [hsame, ofNat_toNat_bytes, Value.toInt64_of_word? hword]
    exact represents_of_word? hword

/-- A store to a slot. -/
theorem HoldsHeap.exec_store (h : deployment.HoldsHeap heap ledger machine)
    (hsound : deployment.Sound) {found : Block}
    (hfound : ledger.blocks[cell.block]? = some found)
    (hoffset : cell.offset + 4 ≤ 4 * found.size) (source : Register) {base : Register}
    {offset : Int32}
    (haddress : addressOf (machine.get base + offset.toInt64) =
      deployment.place cell.block + cell.offset) :
    machine.exec deployment.host deployment.executable (.store32 source base offset) =
      .ok { machine with
        memory := machine.memory.write (deployment.place cell.block + cell.offset)
          (Bytes.ofNat 4 (addressOf (machine.get source))) }.advance := by
  refine Machine.exec_store32 haddress (fun part hpart => ?_) source
  rw [Nat.add_assoc]
  exact h.isWritable hsound hfound (by omega)

/-- A store to a slot leaves the stack as it is. -/
theorem HoldsHeap.sameIn_stack (h : deployment.HoldsHeap heap ledger machine)
    (hsound : deployment.Sound) {found : Block}
    (hfound : ledger.blocks[cell.block]? = some found)
    (hoffset : cell.offset + 4 ≤ 4 * found.size) (word : Nat) :
    machine.memory.SameIn (machine.memory.write (deployment.place cell.block + cell.offset)
      (Bytes.ofNat 4 word)) (deployment.host.stackTop - deployment.host.stackBytes)
      deployment.host.stackTop := by
  have hapart := (h.lendable hsound hfound).stack
  have hfits := hsound.loaded.fits.stackBytes
  unfold Mapping.Apart at hapart
  dsimp only at hapart
  apply Memory.sameIn_write
  rw [Bytes.length_ofNat]
  omega

/-- A known word that a value is stored as is that of its source. -/
theorem Carries.stored {origins : Origins} {cpu : Cpu} {inst : Inst}
    (h : deployment.Carries frame origins none cpu.get) (hsound : deployment.Sound)
    (hfunction : frame.function ∈ deployment.program.functions) (hinst : frame.next? = some inst)
    {source : Source} (hsource : source ∈ inst.sources) {value : Value}
    (heval : frame.eval source = .ok value) {stored : Int64}
    (hstored : deployment.storedWord? (origins.source source) value = some stored) :
    (deployment.placed frame.function).word deployment.address cpu source = stored := by
  cases horigin : origins.source source with
  | some block =>
      rw [horigin] at hstored
      exact (h.pointer hsound hfunction hinst hsource horigin heval).storedWord? hstored
  | none =>
      rw [horigin] at hstored
      exact h.fits hsound hfunction hinst hsource horigin heval stored hstored

/-- What `malloc` leaves behind. -/
structure Allocated (host : Host) (machine : Machine) (word : Int64) (done : Machine) : Prop where
  memory : done.memory = machine.memory
  arena : done.arena = (machine.arena.malloc host.low word).2
  output : done.output = machine.output
  result : done.get .result = Int64.ofNat (machine.arena.malloc host.low word).1

theorem Allocated.of_sameRest {host : Host} {middle done : Machine} {word : Int64}
    (h : Allocated host middle word done) (hsame : machine.SameRest middle) :
    Allocated host machine word done :=
  ⟨h.memory.trans hsame.memory, by rw [h.arena, hsame.arena], h.output.trans hsame.output,
    by rw [h.result, hsame.arena]⟩

theorem callBuiltin_malloc (host : Host) (executable : Executable) {word : Int64}
    (hword : machine.get .rdi = word) :
    ∃ done, machine.callBuiltin host executable .malloc = .ok done ∧
      done.position = machine.position ∧
      (∀ register ∈ .rsp :: Register.calleeSaved, done.get register = machine.get register) ∧
      Allocated host machine word done := by
  let lent := machine.arena.malloc host.low word
  let clobbered := { machine with arena := lent.2 }.clobber host
  have hdone : machine.callBuiltin host executable .malloc =
      .ok (clobbered.set .rax (Int64.ofNat lent.1)) := by
    unfold Machine.callBuiltin
    dsimp only
    rw [hword]
  refine ⟨_, hdone, rfl, fun register hregister => ?_, rfl, rfl, rfl, Cpu.get_set_self _ _ _⟩
  have hne : register ≠ .rax := by
    rintro rfl
    exact absurd hregister (by decide)
  exact (Machine.get_set_of_ne hne _).trans (Machine.get_clobber host _ hregister)

/-- The address of the block that was allocated last. -/
theorem HoldsHeap.represents_fresh (h : deployment.HoldsHeap heap ledger machine)
    (hsound : deployment.Sound) {count : Nat} {dst : Option Dest} {next : Machine}
    (hnext : deployment.HoldsHeap (heap.grow count) (ledger.allocate heap.size count dst) next) :
    deployment.Represents (some ledger.blocks.length) (.int (Int32.ofNat heap.size))
      (Int64.ofNat (machine.arena.malloc deployment.host.low (Int64.ofNat count)).1) := by
  have hfound : (ledger.allocate heap.size count dst).blocks[ledger.blocks.length]? =
      some ⟨heap.size, count⟩ := List.getElem?_concat_length
  have hblocks : ledger.blocks ++ [(⟨heap.size, count⟩ : Block)] <+: deployment.blocks :=
    hnext.blocks
  have hplace : deployment.place ledger.blocks.length =
      (machine.arena.malloc deployment.host.low (Int64.ofNat count)).1 := by
    rw [place, Host.place_of_append hblocks, h.arena]
  have hbelow := (hnext.lendable hsound hfound).below
  dsimp only at hbelow
  exact ⟨by rw [hplace], by omega, ⟨heap.size, count⟩, hnext.getElem? hfound, rfl⟩

namespace Running

/-- Where the base and the value of a store are before it. -/
theorem exec_operands (h : deployment.Running frame ledger.top none entry kept machine)
    (hsound : deployment.Sound) {src : Source}
    (hinst : frame.next? = some (.store address src)) :
    deployment.Leads machine fun next => ∃ base source,
      deployment.executable.code[next.position]? = some (.store32 source base address.offset) ∧
      next.position + 1 = deployment.site frame.advance ∧
      next.get base =
        (deployment.placed frame.function).word deployment.address machine.cpu address.base ∧
      next.get source =
        (deployment.placed frame.function).word deployment.address machine.cpu src ∧
      machine.cpu.SameExcept [.scratch, .scratch2] next.cpu ∧ machine.SameRest next := by
  have hfunction := h.active.function
  obtain ⟨base, hbase, hrest⟩ :=
    Emission.bind_result_eq_ok.mp (hsound.result_inst hfunction hinst)
  obtain ⟨source, hsource, _⟩ := Emission.bind_result_eq_ok.mp hrest
  -- The operands are written before the store, as for an operation on them.
  let operands : Emission (Register × Register) := do
    let base ← (deployment.placed frame.function).source .scratch address.base
    let source ← (deployment.placed frame.function).source .scratch2 src
    pure (base, source)
  have hresult : operands.result = .ok (base, source) :=
    Emission.bind_result_eq_ok.mpr
      ⟨base, hbase, Emission.bind_result_eq_ok.mpr ⟨source, hsource, rfl⟩⟩
  have hoperands : operands.code =
      ((deployment.placed frame.function).source .scratch address.base).code ++
        ((deployment.placed frame.function).source .scratch2 src).code := by
    rw [Emission.code_bind_ok hbase, Emission.code_bind_ok hsource, Emission.code_pure,
      List.append_nil]
  have hcode : ((deployment.placed frame.function).inst (.store address src)).code =
      operands.code ++ [.instr (.store32 source base address.offset)] := by
    rw [hoperands, List.append_assoc]
    exact (Emission.code_bind_ok hbase).trans
      (congrArg _ (Emission.code_bind_ok hsource))
  have hensures : operands.Ensures deployment.address machine.cpu fun registers next =>
      next.get registers.1 =
        (deployment.placed frame.function).word deployment.address machine.cpu address.base ∧
      next.get registers.2 =
        (deployment.placed frame.function).word deployment.address machine.cpu src ∧
      machine.cpu.SameExcept [.scratch, .scratch2] next :=
    Placed.operands_ensures (hsound.allocatable hfunction)
      fun _ _ _ hleft hright hsame => .pure ⟨hright, hleft, hsame⟩
  apply (h.leads_part hsound hinst hcode hresult hensures).mono
  intro next hnext
  obtain ⟨⟨hbaseWord, hsourceWord, hsame⟩, hholds, hposition, hrest⟩ := hnext
  exact ⟨base, source, hholds.1, hposition, hbaseWord, hsourceWord, hsame, hrest⟩

/-- Where the base of a load is before it. -/
theorem exec_base (h : deployment.Running frame ledger.top none entry kept machine)
    (hsound : deployment.Sound) {dst : Dest}
    (hinst : frame.next? = some (.load dst address)) {register : Register}
    (hregister : (deployment.placed frame.function).assignment.register? dst = some register) :
    deployment.Leads machine fun next => ∃ base,
      deployment.executable.code[next.position]? = some (.load32 base address.offset register) ∧
      next.position + 1 = deployment.site frame.advance ∧
      next.get base =
        (deployment.placed frame.function).word deployment.address machine.cpu address.base ∧
      machine.cpu.SameExcept [.scratch] next.cpu ∧ machine.SameRest next := by
  have hfunction := h.active.function
  have hinstCode : (deployment.placed frame.function).inst (.load dst address) = (do
      let base ← (deployment.placed frame.function).source .scratch address.base
      Emission.instr (.load32 base address.offset register)) := by
    simp only [Placed.inst, Lowering.inst, hregister]
  have hresult := hsound.result_inst hfunction hinst
  rw [hinstCode] at hresult
  obtain ⟨base, hbase, _⟩ := Emission.bind_result_eq_ok.mp hresult
  have hcode := congrArg Emission.code hinstCode
  rw [Emission.code_bind_ok hbase] at hcode
  have hensures := Placed.source_ensures (deployment.placed frame.function) deployment.address
    machine.cpu .scratch address.base
  apply (h.leads_part hsound hinst hcode hbase hensures).mono
  intro next hnext
  obtain ⟨hsourced, hholds, hposition, hrest⟩ := hnext
  exact ⟨base, hholds.1, hposition, hsourced.word, hsourced.same, hrest⟩

/-- A load gives the value in its slot. -/
theorem load (h : deployment.Running frame ledger.top none entry kept machine)
    (hsound : deployment.Sound) (hheap : deployment.HoldsHeap heap ledger machine) {dst : Dest}
    (hinst : frame.next? = some (.load dst address)) {value : Value}
    (hperforms : Performs deployment.program limits depth frame heap (.load dst address)
      (.assign dst value))
    (hcell : ledger.cell? address = some cell) (hword : value.word?.isSome = true)
    (hwhole : ledger.read cell =
      ((heap.get? cell.slot).getD .undefined).storedBytes (ledger.slots cell.slot)) :
    deployment.Leads machine fun next =>
      deployment.Running (frame.assign dst value).advance
        (ledger.top.set dst (ledger.slots cell.slot)) none entry kept next ∧
      machine.SameRest next := by
  have hfunction := h.active.function
  have hcarried : deployment.Carries frame ledger.top none machine.cpu.get := h.active.carried
  cases hregister : (deployment.placed frame.function).assignment.register? dst with
  | none =>
      refine h.computes hsound hinst hperforms (fun _ => ?_) fun register hsome => ?_
      · simp only [Placed.inst, Lowering.inst, hregister]
      · rw [hregister] at hsome
        cases hsome
  | some register =>
      have hall := hperforms
      cases hperforms with
      | @load _ _ index slot haddress hslot =>
          obtain ⟨found, hfound, hoffset, rfl, _, hplace⟩ := hheap.access hcell haddress hslot
            fun _ _ hpointer heval => hcarried.pointer hsound hfunction hinst
              (List.mem_singleton.mpr rfl) hpointer heval
          obtain ⟨word, hstored, hrepresents⟩ := hheap.storedWord? rfl hword
          apply (h.exec_base hsound hinst hregister).bind
          intro middle hmiddle
          obtain ⟨base, hcode, hposition, hbase, hsame, hrest⟩ := hmiddle
          rw [← hbase] at hplace
          have htick : machine.SameRest middle.tick := ⟨hrest.memory, hrest.arena, hrest.output⟩
          have hexec := (hheap.of_sameRest htick).exec_load hsound hfound hoffset hwhole hstored
            register hplace
          refine .exec hcode (by rintro ⟨⟩) hexec
            (.refl ⟨?_, hrest.memory, hrest.arena, hrest.output⟩)
          have hchanged : machine.cpu.SameExcept (Placed.touched register)
              (middle.cpu.set register word.toInt32.toInt64) :=
            (hsame.mono (by simp [Placed.touched])).set (by simp [Placed.touched]) _
          have hrunning : deployment.Running frame.advance ledger.top (some dst) entry kept
              (middle.tick.set register word.toInt32.toInt64).advance := by
            refine h.goto hsound hinst hall rfl hposition (changed_of_same hchanged
              (mayChange_touched hsound hfunction hinst dst rfl hregister)) ?_
            rw [show (middle.tick.set register word.toInt32.toInt64).advance.memory =
              machine.memory from hrest.memory]
            exact Memory.SameIn.refl _ _ _
          apply hrunning.assign? _ _
          intro dest other hdest hother
          obtain rfl := Option.some.inj hdest
          obtain rfl := Option.some.inj (hregister.symm.trans hother)
          rw [show (middle.tick.set register word.toInt32.toInt64).advance.get register =
            word.toInt32.toInt64 from Cpu.get_set_self _ _ _]
          exact hrepresents

/-- If no pointer is among the bytes that a load reads, its register has the value in the slot after
it only if these are the bytes of that value. -/
theorem load_iff (h : deployment.Running frame ledger.top none entry kept machine)
    (hsound : deployment.Sound) (hheap : deployment.HoldsHeap heap ledger machine) {dst : Dest}
    (hinst : frame.next? = some (.load dst address)) {register : Register}
    (hregister : (deployment.placed frame.function).assignment.register? dst = some register)
    {value : Value}
    (hperforms : Performs deployment.program limits depth frame heap (.load dst address)
      (.assign dst value))
    (hcell : ledger.cell? address = some cell) (hword : value.word?.isSome = true)
    {bytes : List UInt8} (hplain : ledger.read cell = bytes.map .plain) :
    deployment.Leads machine fun next =>
      next.position = deployment.site frame.advance ∧
      (deployment.Represents none value (next.get register) ↔
        ledger.read cell = ((heap.get? cell.slot).getD .undefined).storedBytes none) := by
  have hcarried : deployment.Carries frame ledger.top none machine.cpu.get := h.active.carried
  obtain ⟨word, hsome⟩ := Option.isSome_iff_exists.mp hword
  cases hperforms with
  | @load _ _ index slot haddress hslot =>
      obtain ⟨found, hfound, hoffset, rfl, _, hplace⟩ := hheap.access hcell haddress hslot
        fun _ _ hpointer heval => hcarried.pointer hsound h.active.function hinst
          (List.mem_singleton.mpr rfl) hpointer heval
      apply (h.exec_base hsound hinst hregister).bind
      intro middle hmiddle
      obtain ⟨base, hcode, hposition, hbase, _, hrest⟩ := hmiddle
      rw [← hbase] at hplace
      have htick : machine.SameRest middle.tick := ⟨hrest.memory, hrest.arena, hrest.output⟩
      obtain ⟨loaded, hexec, hloaded⟩ := (hheap.of_sameRest htick).exec_load_iff hsound hfound
        hoffset hplain hsome register hplace
      refine .exec hcode (by rintro ⟨⟩) hexec (.refl ⟨hposition, ?_⟩)
      rw [show (middle.tick.set register loaded).advance.get register = loaded from
        Cpu.get_set_self _ _ _]
      exact hloaded

/-- A store puts a value into its slot, and leaves the stack as it is. -/
theorem store (h : deployment.Running frame ledger.top none entry kept machine)
    (hsound : deployment.Sound) (hheap : deployment.HoldsHeap heap ledger machine) {src : Source}
    (hinst : frame.next? = some (.store address src)) {slot : Nat} {value : Value}
    (hperforms : Performs deployment.program limits depth frame heap (.store address src)
      (.store slot value))
    (hcell : ledger.cell? address = some cell) :
    deployment.Leads machine fun next =>
      deployment.Running frame.advance ledger.top none entry kept next ∧
      deployment.HoldsHeap (heap.set slot value)
        (ledger.store cell value (ledger.top.source src)) next ∧
      machine.memory.SameIn next.memory
        (deployment.host.stackTop - deployment.host.stackBytes) deployment.host.stackTop ∧
      next.output = machine.output := by
  have hfunction := h.active.function
  have hcarried : deployment.Carries frame ledger.top none machine.cpu.get := h.active.carried
  have hall := hperforms
  cases hperforms with
  | @store _ _ _ index slot hvalue haddress hslot =>
      obtain ⟨found, hfound, hoffset, rfl, hsize, hplace⟩ := hheap.access hcell haddress hslot
        fun _ _ hpointer heval => hcarried.pointer hsound hfunction hinst
          (by simp [Inst.sources]) hpointer heval
      apply (h.exec_operands hsound hinst).bind
      intro middle hmiddle
      obtain ⟨base, source, hcode, hposition, hbase, hsource, hsame, hrest⟩ := hmiddle
      rw [← hbase] at hplace
      have htick : machine.SameRest middle.tick := ⟨hrest.memory, hrest.arena, hrest.output⟩
      have hexec := (hheap.of_sameRest htick).exec_store hsound hfound hoffset source hplace
      rw [show middle.tick.memory = machine.memory from hrest.memory] at hexec
      have hstack := hheap.sameIn_stack hsound hfound hoffset (addressOf (middle.get source))
      refine .exec hcode (by rintro ⟨⟩) hexec (.refl ⟨?_, ?_, ?_, hrest.output⟩)
      · refine h.goto hsound hinst hall rfl hposition (changed_of_same hsame fun other hother => ?_)
          (hstack.mono ?_ ?_)
        · refine .of_scratch (hsound.allocatable hfunction) ?_
          revert hother
          cases other <;> decide
        · have hlow := h.active.low
          omega
        · have hhigh := h.active.high
          omega
      · refine hheap.store hsound hfound hoffset hsize (fun stored hstored => ?_)
          (fun block hblock => ?_) hrest.arena rfl
        · change middle.get source = stored
          rw [hsource]
          exact hcarried.stored hsound hfunction hinst (by simp [Inst.sources]) hvalue hstored
        · exact ⟨rfl, (hcarried.pointer hsound hfunction hinst (by simp [Inst.sources]) hblock
            hvalue).2⟩
      · exact hstack

/-- An allocation gives the address of its block. -/
theorem allocate (h : deployment.Running frame ledger.top none entry kept machine)
    (hsound : deployment.Sound) (hheap : deployment.HoldsHeap heap ledger machine)
    {name : String} {args : List Source} {dst pending : Option Dest}
    (hinst : frame.next? = some (.call name args dst)) {count : Nat}
    (hperforms : Performs deployment.program limits depth frame heap (.call name args dst)
      (.allocate count pending))
    (hplain : ∀ source ∈ args, ledger.top.source source = none)
    (hblocks : ledger.blocks ++ [⟨heap.size, count⟩] <+: deployment.blocks) :
    deployment.Leads machine fun next =>
      deployment.Running (frame.assign? pending (.int (Int32.ofNat heap.size))).advance
        (ledger.top.set? pending (some ledger.blocks.length)) none entry kept next ∧
      deployment.HoldsHeap (heap.grow count) (ledger.allocate heap.size count pending) next ∧
      machine.memory.SameIn next.memory
        (deployment.host.stackTop - deployment.host.stackBytes) deployment.host.stackTop ∧
      next.output = machine.output := by
  have hfunction := h.active.function
  have hcarried : deployment.Carries frame ledger.top none machine.cpu.get := h.active.carried
  have hall := hperforms
  cases hperforms with
  | @allocate _ _ _ size count hname hargs hreserve =>
      obtain ⟨hcount, hsmall, hbase⟩ := Heap.reserve_eq_ok hreserve
      obtain ⟨hlength, heval⟩ := Frame.evalAll_eq_ok hargs
      obtain ⟨source, rfl⟩ := List.length_eq_one_iff.mp hlength.symm
      obtain ⟨_, hsource, heval⟩ := heval 0 (.int size) rfl
      obtain rfl := Option.some.inj hsource
      have hword : size.toInt64 = Int64.ofNat count := toInt64_of_toInt hcount
      have hbuiltin := h.builtin hsound hinst hname hall rfl
        (Allocated deployment.host machine (Int64.ofNat count)) fun middle hmiddle => by
          have hrdi : middle.tick.get .rdi = Int64.ofNat count := by
            have hpassed := hmiddle.passed (source, .rdi) (List.mem_singleton.mpr rfl)
            have hfits := hcarried.fits hsound hfunction hinst (List.mem_singleton.mpr rfl)
              (hplain _ (List.mem_singleton.mpr rfl)) heval
            exact hpassed.trans ((hfits _ rfl).trans hword)
          obtain ⟨done, hdone, hposition, hkept, hallocated⟩ :=
            callBuiltin_malloc deployment.host deployment.executable hrdi
          exact ⟨done, hdone, hposition, hallocated.memory, hkept, hallocated.of_sameRest
            ⟨hmiddle.same.memory, hmiddle.same.arena, hmiddle.same.output⟩⟩
      apply hbuiltin.mono
      intro next hnext
      obtain ⟨hrunning, done, hdone, hrest, hresult⟩ := hnext
      have hnext : deployment.HoldsHeap (heap.grow count)
          (ledger.allocate heap.size count dst) next :=
        hheap.allocate dst hbase hsmall hblocks (hrest.arena.trans hdone.arena)
          (hrest.memory.trans hdone.memory)
      refine ⟨?_, hnext, ?_, hrest.output.trans hdone.output⟩
      · rw [Frame.advance_assign?]
        apply hrunning.assign? _ _
        intro dest register hdest hregister
        rw [hresult dest register hdest hregister, hdone.result]
        exact hheap.represents_fresh hsound hnext
      · rw [hrest.memory, hdone.memory]
        exact Memory.SameIn.refl _ _ _

end Running

end Deployment

end ThreeAddress
