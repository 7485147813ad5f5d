import ThreeAddress.Proofs.Heap.Words
import ThreeAddress.Proofs.Native.HeapInstructions

/-!
# Words in memory

When operations on words of blocks run natively, a place is a byte of its block. Blocks may lie in
memory in any order and with gaps, yet words do not overlap, so a load gives what was last stored
at its place.
-/

namespace ThreeAddress

/-- Operations on memory. -/
structure WordRun where
  machine : Machine
  /-- The address of each block. -/
  places : List Int64
  /-- What the loads gave, the most recent one first. -/
  loaded : List Int64

namespace WordRun

def place (run : WordRun) (block : Nat) : Int64 := run.places[block]?.getD 0

/-- Carries out an operation by an instruction, with the operands in registers. -/
def step (host : Host) (executable : Executable) (run : WordRun) : HeapOp → Except Trap WordRun
  | .alloc units => do
      let machine ← (run.machine.set .rdi units.toInt64).exec host executable
        (.call (.builtin .malloc))
      return { run with machine, places := run.places ++ [machine.get .result] }
  | .store block offset value => do
      let operands := (run.machine.set .scratch (run.place block)).set .scratch2 value.toInt64
      let machine ← operands.exec host executable
        (.store32 .scratch2 .scratch (Int32.ofNat offset))
      return { run with machine }
  | .load block offset => do
      let operands := run.machine.set .scratch (run.place block)
      let machine ← operands.exec host executable
        (.load32 .scratch (Int32.ofNat offset) .scratch2)
      return { run with machine, loaded := machine.get .scratch2 :: run.loaded }

def after (host : Host) (executable : Executable) (machine : Machine) :
    HeapOps → Except Trap WordRun
  | [] => .ok ⟨machine, [], []⟩
  | op :: earlier => do (← after host executable machine earlier).step host executable op

/-- Where a block is, with the bytes of its slots. -/
def region (run : WordRun) (block : Nat) (found : Block) : Mapping :=
  ⟨addressOf (run.place block), 4 * found.size⟩

/-- The bytes that an access to a place reads or writes. -/
def bytes (run : WordRun) (block offset : Nat) : Mapping :=
  ⟨addressOf (run.place block + (Int32.ofNat offset).toInt64), 4⟩

/-- The accesses of a run are to the blocks that were reserved for them. -/
structure Safe (ops : HeapOps) (run : WordRun) : Prop where
  mapped : ∀ block found, ops.blocks[block]? = some found →
    ∃ mapping ∈ run.machine.arena.mappings, (run.region block found).Within mapping
  apart : ∀ left right found other, ops.blocks[left]? = some found →
    ops.blocks[right]? = some other → right ≠ left →
    (run.region left found).Apart (run.region right other)
  inside : ∀ op ∈ ops, ∀ block offset, op.place? = some (block, offset) →
    ∃ found, ops.blocks[block]? = some found ∧
      (run.bytes block offset).Within (run.region block found)

end WordRun

/-! ## Memory -/

/-- A range of addresses that is apart from the image. -/
structure Executable.Leaves (executable : Executable) (mapping : Mapping) : Prop where
  bounded : mapping.base + mapping.length ≤ 18446744073709551616
  image : mapping.Apart ⟨executable.base, executable.image.size⟩

/-- Fresh memory is apart from the image and from all that was mapped before. -/
structure Host.LendsPages (host : Host) (executable : Executable) : Prop where
  fresh : host.low.Fresh
  leaves : ∀ {mappings bytes base}, host.low.Granted mappings →
    host.low mappings bytes = some base → executable.Leaves ⟨base, wholePages bytes⟩

namespace HeapOps

/-- The blocks of operations are among blocks for which there is room. -/
structure Served (host : Host) (executable : Executable) (total : List Block) (ops : HeapOps) :
    Prop where
  pages : host.LendsPages executable
  serves : host.Serves total
  blocks : ops.blocks <+: total

namespace Served

variable {host : Host} {executable : Executable} {total : List Block} {ops : HeapOps}
  {op : HeapOp} {block offset : Nat} {found : Block}

theorem of_cons (h : Served host executable total (op :: ops)) :
    ops.Served host executable total :=
  ⟨h.pages, h.serves, (prefix_blocks op ops).trans h.blocks⟩

theorem getElem? (h : ops.Served host executable total)
    (hfound : ops.blocks[block]? = some found) : total[block]? = some found := by
  obtain ⟨later, rfl⟩ := h.blocks
  rw [List.getElem?_append_left (List.getElem?_eq_some_iff.mp hfound).1, hfound]

theorem lends (h : ops.Served host executable total) :
    (host.arenaAfter ops.blocks).Lends host.low (host.region total) ops.blocks.length :=
  Host.lends h.pages.fresh h.serves h.blocks ops.size_lt

/-- The bytes of a block are in memory that was mapped. -/
theorem inside (h : ops.Served host executable total)
    (hfound : ops.blocks[block]? = some found) :
    ∃ mapping ∈ (host.arenaAfter ops.blocks).mappings,
      Mapping.Within ⟨host.place total block, max (4 * found.size) 1⟩ mapping := by
  rw [← Host.region_eq (h.getElem? hfound)]
  exact h.lends.inside block (List.getElem?_eq_some_iff.mp hfound).1

theorem leaves (h : ops.Served host executable total)
    (hfound : ops.blocks[block]? = some found) :
    executable.Leaves ⟨host.place total block, max (4 * found.size) 1⟩ := by
  obtain ⟨mapping, hmapping, hwithin⟩ := h.inside hfound
  obtain ⟨hbounded, himage⟩ := h.lends.granted.forall_mem h.pages.leaves mapping hmapping
  exact ⟨hwithin.2.trans hbounded, (himage.symm.mono hwithin).symm⟩

theorem apart (h : ops.Served host executable total) (hfound : ops.blocks[block]? = some found)
    {other : Nat} {another : Block} (hother : ops.blocks[other]? = some another)
    (hne : other ≠ block) :
    Mapping.Apart ⟨host.place total block, max (4 * found.size) 1⟩
      ⟨host.place total other, max (4 * another.size) 1⟩ := by
  rw [← Host.region_eq (h.getElem? hfound), ← Host.region_eq (h.getElem? hother)]
  exact h.lends.apart_of_ne (List.getElem?_eq_some_iff.mp hfound).1
    (List.getElem?_eq_some_iff.mp hother).1 hne

/-- Words at different places do not overlap. -/
theorem words_apart (h : ops.Served host executable total) (hword : ops.HasWord block offset)
    {other place : Nat} (hother : ops.HasWord other place)
    (hne : ¬ (other = block ∧ place = offset)) :
    Mapping.Apart ⟨host.place total block + offset, 4⟩ ⟨host.place total other + place, 4⟩ := by
  obtain ⟨found, hfound, haligned, hoffset⟩ := hword
  obtain ⟨another, hanother, haligned', hplace⟩ := hother
  unfold Mapping.Apart
  dsimp only
  by_cases hblock : other = block
  · subst hblock
    have hoffsets : place ≠ offset := fun heq => hne ⟨rfl, heq⟩
    omega
  · have hapart := h.apart hfound hanother hblock
    unfold Mapping.Apart at hapart
    dsimp only at hapart
    omega

end Served

end HeapOps

namespace WordRun

variable {host : Host} {executable : Executable} {total : List Block} {ops : HeapOps}
  {op : HeapOp} {run next : WordRun} {block offset : Nat} {found : Block}

/-- Memory after operations: each block is at its address, and has the words that were stored. -/
structure Holds (host : Host) (total : List Block) (ops : HeapOps) (run : WordRun) : Prop where
  arena : run.machine.arena = host.arenaAfter ops.blocks
  places : run.places =
    (List.range ops.blocks.length).map fun block => Int64.ofNat (host.place total block)
  words : ∀ {block offset value}, ops.lastStored? block offset = some value →
    run.machine.memory.read (host.place total block + offset) 4 =
      Bytes.ofNat 4 (addressOf value.toInt64)
  loaded : ops.Gives Int32.toInt64 run.loaded

theorem holds_empty {machine : Machine} (hmachine : machine.arena = .empty) :
    Holds host total [] ⟨machine, [], []⟩ :=
  ⟨hmachine, rfl, nofun, .nil⟩

theorem Holds.place (h : run.Holds host total ops) (hfound : ops.blocks[block]? = some found) :
    run.place block = Int64.ofNat (host.place total block) := by
  have hlt := (List.getElem?_eq_some_iff.mp hfound).1
  rw [WordRun.place, h.places, List.getElem?_map, List.getElem?_range hlt]
  rfl

/-- The address of a place. -/
theorem Holds.address (h : run.Holds host total ops) (hserved : ops.Served host executable total)
    (hfound : ops.blocks[block]? = some found) (hoffset : offset < found.size) :
    addressOf (run.place block + (Int32.ofNat offset).toInt64) =
      host.place total block + offset := by
  have hsize := ops.size_lt found (List.mem_of_getElem? hfound)
  have hbounded := (hserved.leaves hfound).bounded
  dsimp only at hbounded
  rw [h.place hfound]
  exact addressOf_add (Int32.toInt_ofNat_of_lt (by omega)) (by omega)

theorem Holds.isWritable (h : run.Holds host total ops)
    (hserved : ops.Served host executable total) (hfound : ops.blocks[block]? = some found)
    (hoffset : offset < found.size) {machine : Machine}
    (hmachine : machine.arena = run.machine.arena) :
    ∀ part < 4, machine.isWritable host (host.place total block + offset + part) = true := by
  intro part hpart
  rw [Nat.add_assoc]
  exact hserved.lends.isWritable_block (List.getElem?_eq_some_iff.mp hfound).1
    (hserved.getElem? hfound) (hmachine.trans h.arena) (by omega)

/-- An allocation does not fail, and gives the address of the block. -/
theorem Holds.alloc (h : run.Holds host total ops) {count : Int32} (hcount : 0 ≤ count.toInt)
    (hserved : HeapOps.Served host executable total (.alloc count :: ops)) :
    ∃ next, run.step host executable (.alloc count) = .ok next ∧
      next.Holds host total (.alloc count :: ops) := by
  let operands := run.machine.set .rdi count.toInt64
  have hcall : operands.get .rdi = Int64.ofNat count.toInt.toNat :=
    (Cpu.get_set_self _ _ _).trans (toInt64_of_toInt (Int.toNat_of_nonneg hcount).symm)
  obtain ⟨done, hdone, _, _, hallocated⟩ := Deployment.callBuiltin_malloc host executable hcall
  have harena : done.arena = host.arenaAfter (HeapOps.blocks (.alloc count :: ops)) := by
    rw [hallocated.arena, HeapOps.blocks, Host.arenaAfter_append, ← h.arena]
    rfl
  have hresult : done.get .result = Int64.ofNat (host.place total ops.blocks.length) := by
    rw [hallocated.result, Host.place_of_append hserved.blocks, ← h.arena]
    rfl
  have hmemory : done.memory = run.machine.memory := hallocated.memory
  refine ⟨⟨done.advance, run.places ++ [done.get .result], run.loaded⟩, ?_, harena, ?_, ?_,
    h.loaded⟩
  · change (do
      let machine ← (do return (← operands.callBuiltin host executable .malloc).advance)
      return { run with machine, places := run.places ++ [machine.get .result] }) = _
    rw [hdone]
    rfl
  · rw [h.places, hresult, HeapOps.blocks, List.length_append, List.length_singleton,
      List.range_succ, List.map_append, List.map_singleton]
  · intro block offset value hstored
    change done.memory.read _ 4 = _
    rw [hmemory]
    exact h.words hstored

/-- A store writes the word at its place, and no other word. -/
theorem Holds.store (h : run.Holds host total ops) (hops : ops.WellFormed)
    (hserved : ops.Served host executable total) (hword : ops.HasWord block offset)
    (value : Int32) :
    ∃ next, run.step host executable (.store block offset value) = .ok next ∧
      next.Holds host total (.store block offset value :: ops) := by
  obtain ⟨target, htarget, _, hoffset⟩ := id hword
  let address := host.place total block + offset
  let bytes := Bytes.ofNat 4 (addressOf value.toInt64)
  have hlength : bytes.length = 4 := Bytes.length_ofNat _ _
  let operands := (run.machine.set .scratch (run.place block)).set .scratch2 value.toInt64
  let done : Machine :=
    { operands with memory := run.machine.memory.write address bytes }.advance
  have hbase : operands.get .scratch = run.place block :=
    (Machine.get_set_of_ne (by decide) _).trans (Cpu.get_set_self _ _ _)
  have hvalue : operands.get .scratch2 = value.toInt64 := Cpu.get_set_self _ _ _
  have hexec : operands.exec host executable (.store32 .scratch2 .scratch (Int32.ofNat offset)) =
      .ok done := by
    have haddress := h.address hserved htarget hoffset
    rw [← hbase] at haddress
    have hwritable := h.isWritable hserved htarget hoffset (rfl : operands.arena = _)
    rw [Machine.exec_store32 haddress hwritable, hvalue]
    rfl
  refine ⟨{ run with machine := done }, ?_, h.arena, h.places, ?_, h.loaded⟩
  · rw [step, hexec]
    rfl
  intro other place stored hstored
  change (run.machine.memory.write address bytes).read _ 4 = _
  rw [HeapOps.lastStored?] at hstored
  split at hstored
  next heq =>
    obtain ⟨rfl, rfl⟩ := heq
    obtain rfl := Option.some.inj hstored
    have hread := run.machine.memory.read_write address bytes
    rwa [hlength] at hread
  next hne =>
    have hapart := hserved.words_apart (HeapOps.hasWord_of_lastStored? hops hstored) hword hne
    unfold Mapping.Apart at hapart
    dsimp only at hapart
    rw [Memory.read_congr (run.machine.memory.sameIn_write address bytes (by omega))]
    exact h.words hstored

/-- A load reads the word at its place. -/
theorem Holds.load (h : run.Holds host total ops) (hserved : ops.Served host executable total)
    (hword : ops.HasWord block offset) :
    ∃ next, run.step host executable (.load block offset) = .ok next ∧
      next.Holds host total (.load block offset :: ops) := by
  obtain ⟨target, htarget, _, hoffset⟩ := hword
  let address := host.place total block + offset
  let number := Bytes.toNat (run.machine.memory.read address 4)
  let operands := run.machine.set .scratch (run.place block)
  let done := (operands.set .scratch2 (Int32.ofNat number).toInt64).advance
  have hbase : operands.get .scratch = run.place block := Cpu.get_set_self _ _ _
  have hexec : operands.exec host executable (.load32 .scratch (Int32.ofNat offset) .scratch2) =
      .ok done := by
    have haddress := h.address hserved htarget hoffset
    rw [← hbase] at haddress
    have himage := (hserved.leaves htarget).image
    unfold Mapping.Apart at himage
    dsimp only at himage
    refine Machine.exec_load32 haddress ?_ .scratch2
    exact Machine.load_of_writable (fun part hpart => by omega)
      (h.isWritable hserved htarget hoffset rfl)
  have hloaded : done.get .scratch2 = (Int32.ofNat number).toInt64 := Cpu.get_set_self _ _ _
  refine ⟨{ run with machine := done, loaded := done.get .scratch2 :: run.loaded }, ?_, h.arena,
    h.places, h.words, .cons (fun value hstored => ?_) h.loaded⟩
  · rw [step, hexec]
    rfl
  · have hread : number = Bytes.toNat (Bytes.ofNat 4 (addressOf value.toInt64)) :=
      congrArg Bytes.toNat (h.words hstored)
    rw [hloaded, hread, ofNat_toNat_bytes, Int32.toInt32_toInt64]

theorem Holds.step (h : run.Holds host total ops) (hops : HeapOps.WellFormed (op :: ops))
    (hserved : HeapOps.Served host executable total (op :: ops)) :
    ∃ next, run.step host executable op = .ok next ∧ next.Holds host total (op :: ops) := by
  cases op with
  | alloc => exact h.alloc hops.1 hserved
  | store => exact h.store hops.of_cons hserved.of_cons hops.1 _
  | load => exact h.load hserved.of_cons hops.1

theorem holds_after {machine : Machine} (hmachine : machine.arena = .empty)
    (hops : ops.WellFormed) (hserved : ops.Served host executable total) :
    ∃ run, after host executable machine ops = .ok run ∧ run.Holds host total ops := by
  induction ops with
  | nil => exact ⟨_, rfl, holds_empty hmachine⟩
  | cons op earlier ih =>
      obtain ⟨run, hrun, hholds⟩ := ih hops.of_cons hserved.of_cons
      obtain ⟨next, hnext, hholds⟩ := hholds.step hops hserved
      exact ⟨next, Except.bind_eq_ok.mpr ⟨run, hrun, hnext⟩, hholds⟩

theorem Holds.region (h : run.Holds host total ops) (hserved : ops.Served host executable total)
    (hfound : ops.blocks[block]? = some found) :
    run.region block found = ⟨host.place total block, 4 * found.size⟩ := by
  have hbounded := (hserved.leaves hfound).bounded
  dsimp only at hbounded
  rw [WordRun.region, h.place hfound, addressOf_ofNat (by omega)]

theorem Holds.safe (h : run.Holds host total ops) (hops : ops.WellFormed)
    (hserved : ops.Served host executable total) : run.Safe ops where
  mapped := fun block found hfound => by
    obtain ⟨mapping, hmapping, hwithin⟩ := hserved.inside hfound
    rw [h.region hserved hfound, h.arena]
    refine ⟨mapping, hmapping, ?_⟩
    unfold Mapping.Within at *
    dsimp only at *
    omega
  apart := fun left right found other hfound hother hne => by
    have hapart := hserved.apart hfound hother hne
    rw [h.region hserved hfound, h.region hserved hother]
    unfold Mapping.Apart at *
    dsimp only at *
    omega
  inside := fun op hop block offset hplace => by
    obtain ⟨found, hfound, haligned, hoffset⟩ := HeapOps.hasWord_of_mem hops hop hplace
    refine ⟨found, hfound, ?_⟩
    rw [h.region hserved hfound, WordRun.bytes, h.address hserved hfound hoffset]
    constructor <;> dsimp only <;> omega

end WordRun

/-! ## Refinement -/

theorem Host.LendsFresh.lendsPages {host : Host} {executable : Executable}
    (h : host.LendsFresh executable.image.size) (hbase : executable.base = host.imageBase) :
    host.LendsPages executable where
  fresh := h.fresh
  leaves := fun hgranted hlow => by
    obtain ⟨_, hbelow, himage, _⟩ := (h hgranted hlow).1
    exact ⟨by omega, hbase ▸ himage⟩

namespace HeapOps

/-- Whatever is done with words of blocks, memory does as well as slots, as long as fresh memory
is found whenever the arena asks for it. It carries out all operations, each access within the
block that it is meant for, and loads give the numbers that were last stored. Slots give the same
numbers, unless the limits leave no room for a block. -/
theorem words_refine_slots {host : Host} {executable : Executable} {machine : Machine}
    {ops : HeapOps} (hops : ops.WellFormed) (hpages : host.LendsPages executable)
    (hanswers : host.Answers ops.blocks) (hmachine : machine.arena = .empty) (limits : Limits) :
    (∃ words, WordRun.after host executable machine ops = .ok words ∧ words.Safe ops ∧
      ops.Gives Int32.toInt64 words.loaded) ∧
    ((∃ slots, SlotRun.after limits ops = .ok slots) ↔ ops.Fits limits) ∧
    ∀ slots, SlotRun.after limits ops = .ok slots →
      ops.Gives .int slots.loaded := by
  have hserves := (Host.serves_iff ops.size_lt).mpr hanswers
  have hserved : ops.Served host executable ops.blocks := ⟨hpages, hserves, List.prefix_rfl⟩
  obtain ⟨words, hwords, hholds⟩ := WordRun.holds_after hmachine hops hserved
  exact ⟨⟨words, hwords, hholds.safe hops hserved, hholds.loaded⟩, SlotRun.after_ok_iff hops,
    fun slots hslots => (SlotRun.holds_after hops hslots).loaded⟩

/-- Two blocks of a chunk, and one between them that is too large for it. -/
def mixed : HeapOps := [
  .load 2 4, .load 1 69996, .load 0 0,
  .store 2 4 9, .alloc 5, .store 1 69996 (-2), .alloc 70000, .store 0 0 7, .alloc 3]

/-- An executable without code. -/
def idle : Executable := { (default : Executable) with base := Host.standard.imageBase }

theorem words_refine_slots_mixed :
    ∃ words slots, WordRun.after Host.standard idle default mixed = .ok words ∧
      words.Safe mixed ∧ words.loaded = [9, -2, 7] ∧
      SlotRun.after .standard mixed = .ok slots ∧ slots.loaded = [.int 9, .int (-2), .int 7] := by
  have hpages : Host.standard.LendsPages idle :=
    Host.LendsFresh.lendsPages (Host.lendsFresh_standard _) rfl
  have hanswers : Host.standard.Answers mixed.blocks :=
    Host.answers_of_ample Host.ample_ascending (size_lt mixed) (by decide)
  have hops : mixed.WellFormed :=
    ⟨⟨_, rfl, rfl, by decide⟩, ⟨_, rfl, rfl, by decide⟩, ⟨_, rfl, rfl, by decide⟩,
      ⟨_, rfl, rfl, by decide⟩, by decide, ⟨_, rfl, rfl, by decide⟩, by decide,
      ⟨_, rfl, rfl, by decide⟩, by decide, trivial⟩
  have hfits : mixed.Fits .standard := by
    unfold Fits
    decide
  have hstored : mixed.stored = List.map some [9, -2, 7] := by decide
  obtain ⟨⟨words, hwords, hsafe, hgives⟩, hroom, hslots⟩ :=
    words_refine_slots hops hpages hanswers (rfl : (default : Machine).arena = .empty) .standard
  obtain ⟨slots, hrun⟩ := hroom.mpr hfits
  exact ⟨words, slots, hwords, hsafe, hgives.eq_map hstored, hrun,
    (hslots slots hrun).eq_map hstored⟩

end HeapOps

end ThreeAddress
