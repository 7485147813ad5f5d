import ThreeAddress.Proofs.Native.Calls

/-!
# The heap in memory

A slot that was stored to is in the four bytes at its address, unless a store to
another slot of its block has overwritten some of them. The ledger knows which
bytes are in memory, so a load of bytes that are all of its slot gives the value
in that slot.
-/

namespace ThreeAddress

namespace Memory

theorem getElem?_read (memory : Memory) (address count index : Nat) :
    (memory.read address count)[index]? =
      if index < count then some (memory.byte (address + index)) else none := by
  induction count generalizing address index with
  | zero => rfl
  | succ count ih =>
      cases index with
      | zero => rfl
      | succ index =>
          rw [read, List.getElem?_cons_succ, ih, Nat.add_assoc, Nat.add_comm 1]
          simp only [Nat.add_lt_add_iff_right]

theorem length_read (memory : Memory) (address count : Nat) :
    (memory.read address count).length = count := by
  induction count generalizing address with
  | zero => rfl
  | succ count ih => exact congrArg (· + 1) (ih _)

/-- A byte that was written. -/
theorem getElem?_write (memory : Memory) (address : Nat) (bytes : List UInt8) {index : Nat}
    (h : index < bytes.length) :
    bytes[index]? = some ((memory.write address bytes).byte (address + index)) := by
  have hread := getElem?_read (memory.write address bytes) address bytes.length index
  rwa [read_write, if_pos h] at hread

end Memory

/-! ## Words of four bytes -/

/-- The low four bytes of a word. -/
theorem ofNat_toNat_bytes (word : Int64) :
    Int32.ofNat (Bytes.toNat (Bytes.ofNat 4 (addressOf word))) = word.toInt32 := by
  have hnarrow : word.toInt32.toBitVec = word.toBitVec.setWidth 32 :=
    BitVec.signExtend_eq_setWidth_of_le _ (by decide)
  apply Int32.toBitVec_inj.mp
  apply BitVec.eq_of_toNat_eq
  rw [Bytes.toNat_ofNat, Int32.toBitVec_ofNat', hnarrow, BitVec.toNat_ofNat, BitVec.toNat_setWidth]
  exact Nat.mod_mod _ _

/-- Four bytes that are loaded as a word are the low four bytes of that word. -/
theorem eq_of_loaded {bytes : List UInt8} {word : Int64} (hlength : bytes.length = 4)
    (h : (Int32.ofNat (Bytes.toNat bytes)).toInt64 = word) :
    bytes = Bytes.ofNat 4 (addressOf word) := by
  have hnarrow : Int32.ofNat (Bytes.toNat (Bytes.ofNat 4 (addressOf word))) =
      Int32.ofNat (Bytes.toNat bytes) := by
    rw [ofNat_toNat_bytes, ← h, Int32.toInt32_toInt64]
  have hbits := congrArg (fun word => word.toBitVec.toNat) hnarrow
  have hbytes := Bytes.ofNat_toNat bytes
  rw [hlength] at hbytes
  have hsmall := Bytes.toNat_ofNat 4 (Bytes.toNat bytes)
  rw [hbytes] at hsmall
  have hstored := Bytes.toNat_ofNat 4 (addressOf word)
  change _ = _ % 4294967296 at hsmall hstored
  simp only [Int32.toBitVec_ofNat', BitVec.toNat_ofNat] at hbits
  have heq : Bytes.toNat bytes = Bytes.toNat (Bytes.ofNat 4 (addressOf word)) := by omega
  have hword := Bytes.ofNat_toNat (Bytes.ofNat 4 (addressOf word))
  rw [Bytes.length_ofNat] at hword
  rw [← hbytes, heq, hword]

theorem toInt64_ofNat {place : Nat} (h : place < 2147483648) :
    (Int64.ofNat place).toInt32.toInt64 = Int64.ofNat place := by
  have hnarrow : (Int64.ofNat place).toInt32 = Int32.ofNat place := by simp
  have hshort : (Int32.ofNat place).toInt = place := Int32.toInt_ofNat_of_lt h
  have hlong : (Int64.ofNat place).toInt = place := Int64.toInt_ofNat_of_lt (by omega)
  apply Int64.toInt_inj.mp
  rw [hnarrow, Int32.toInt_toInt64, hshort, hlong]

theorem Value.toInt64_of_word? {value : Value} {word : Int64} (h : value.word? = some word) :
    word.toInt32.toInt64 = word := by
  cases value with
  | int value =>
      obtain rfl := Option.some.inj h
      rw [Int32.toInt32_toInt64]
  | bool value =>
      obtain rfl := Option.some.inj h
      cases value <;> rfl
  | str | undefined => cases h

theorem toInt64_of_toInt {word : Int32} {number : Nat} (h : word.toInt = number) :
    word.toInt64 = Int64.ofNat number := by
  rw [← Int64.ofInt_int32ToInt, h]
  exact Int64.ofInt_eq_ofNat

/-- An address within a block. -/
theorem addressOf_add {place offset : Nat} {displacement : Int32}
    (hoffset : displacement.toInt = offset) (h : place + offset < 18446744073709551616) :
    addressOf (Int64.ofNat place + displacement.toInt64) = place + offset := by
  rw [toInt64_of_toInt hoffset, ← Int64.ofNat_add, addressOf_ofNat h]

/-- What is known about a byte in memory, with blocks at the given places. -/
def StoredByte.Matches (place : Nat → Nat) (byte : UInt8) : StoredByte → Prop
  | .unknown => True
  | .plain known => byte = known
  | .pointer block part =>
      (Bytes.ofNat 4 (addressOf (Int64.ofNat (place block))))[part]? = some byte

namespace Deployment

variable {deployment : Deployment}

/-- The word that a store writes for a value, unless that is unknown. -/
def storedWord? (deployment : Deployment) (origin : Option Nat) (value : Value) : Option Int64 :=
  match origin with
  | some block => some (Int64.ofNat (deployment.place block))
  | none => value.word?

theorem Represents.storedWord? {origin : Option Nat} {value : Value} {word stored : Int64}
    (h : deployment.Represents origin value word)
    (hstored : deployment.storedWord? origin value = some stored) : word = stored := by
  cases origin with
  | some block => rw [h.1, Option.some.inj hstored]
  | none => exact h.fits stored hstored

theorem storedBytes_of_none {origin : Option Nat} {value : Value}
    (h : deployment.storedWord? origin value = none) (part : Nat) :
    (value.storedBytes origin)[part]?.getD .unknown = .unknown := by
  cases origin with
  | some block => cases h
  | none =>
      have hword : value.word? = none := h
      simp only [Value.storedBytes, hword, List.getElem?_replicate]
      split <;> rfl

/-- The bytes of a word are those that are known to be stored. -/
theorem storedBytes_matches {origin : Option Nat} {value : Value} {word : Int64}
    (h : deployment.storedWord? origin value = some word) {part : Nat} (hpart : part < 4)
    (byte : UInt8) :
    ((value.storedBytes origin)[part]?.getD .unknown).Matches deployment.place byte ↔
      (Bytes.ofNat 4 (addressOf word))[part]? = some byte := by
  cases origin with
  | some block =>
      obtain rfl := Option.some.inj h
      rw [Value.storedBytes, List.getElem?_map, List.getElem?_range hpart]
      rfl
  | none =>
      have hword : value.word? = some word := h
      have hlength : part < (Bytes.ofNat 4 (addressOf word)).length := by
        rw [Bytes.length_ofNat]
        exact hpart
      simp only [Value.storedBytes, hword, List.getElem?_map, List.getElem?_eq_getElem hlength]
      exact ⟨fun hbyte => congrArg some (Eq.symm hbyte), fun hbyte => (Option.some.inj hbyte).symm⟩

/-- The heap of a run is in memory: each block where it was allocated, with the bytes that are
known. -/
structure HoldsHeap (deployment : Deployment) (heap : Heap) (ledger : Ledger) (machine : Machine) :
    Prop where
  blocks : ledger.blocks <+: deployment.blocks
  arena : machine.arena = deployment.host.arenaAfter ledger.blocks
  small : ∀ block ∈ ledger.blocks, block.base < 2147483648 ∧ block.size < 2147483648
  slots : ∀ slot block, ledger.slots slot = some block → ∃ value, heap.get? slot = some value ∧
    deployment.Represents (some block) value (Int64.ofNat (deployment.place block))
  bytes : ∀ block found, ledger.blocks[block]? = some found → ∀ byte < 4 * found.size,
    (ledger.bytes block byte).Matches deployment.place
      (machine.memory.byte (deployment.place block + byte))

namespace HoldsHeap

variable {heap : Heap} {ledger : Ledger} {machine : Machine} {block : Nat} {found : Block}

theorem getElem? (h : deployment.HoldsHeap heap ledger machine)
    (hfound : ledger.blocks[block]? = some found) : deployment.blocks[block]? = some found := by
  obtain ⟨after, hafter⟩ := h.blocks
  have hlt := (List.getElem?_eq_some_iff.mp hfound).1
  rw [← hafter, List.getElem?_append_left hlt, hfound]

theorem region_eq (h : deployment.HoldsHeap heap ledger machine)
    (hfound : ledger.blocks[block]? = some found) :
    deployment.host.region deployment.blocks block =
      ⟨deployment.place block, max (4 * found.size) 1⟩ :=
  Host.region_eq (h.getElem? hfound)

theorem fresh (h : deployment.HoldsHeap heap ledger machine) (hsound : deployment.Sound)
    (hfound : ledger.blocks[block]? = some found) :
    deployment.host.LendsFresh deployment.executable.image.size := by
  apply hsound.fresh
  intro hempty
  have hblock := h.getElem? hfound
  rw [hempty] at hblock
  cases hblock

theorem lends (h : deployment.HoldsHeap heap ledger machine) (hsound : deployment.Sound)
    (hfound : ledger.blocks[block]? = some found) :
    (deployment.host.arenaAfter ledger.blocks).Lends deployment.host.low
      (deployment.host.region deployment.blocks) ledger.blocks.length :=
  Host.lends (Host.LendsFresh.fresh (h.fresh hsound hfound)) hsound.serves h.blocks
    fun block hblock => (h.small block hblock).2

/-- Blocks are apart from the image and the stack, and below 2 GiB. -/
theorem lendable (h : deployment.HoldsHeap heap ledger machine) (hsound : deployment.Sound)
    (hfound : ledger.blocks[block]? = some found) :
    deployment.host.Lendable deployment.executable.image.size
      ⟨deployment.place block, max (4 * found.size) 1⟩ := by
  rw [← h.region_eq hfound]
  exact (h.lends hsound hfound).lendable (h.fresh hsound hfound)
    (List.getElem?_eq_some_iff.mp hfound).1

/-- Different blocks are apart. -/
theorem apart (h : deployment.HoldsHeap heap ledger machine) (hsound : deployment.Sound)
    (hfound : ledger.blocks[block]? = some found) {other : Nat} {another : Block}
    (hother : ledger.blocks[other]? = some another) (hne : other ≠ block) :
    Mapping.Apart ⟨deployment.place block, max (4 * found.size) 1⟩
      ⟨deployment.place other, max (4 * another.size) 1⟩ := by
  rw [← h.region_eq hfound, ← h.region_eq hother]
  exact (h.lends hsound hfound).apart_of_ne (List.getElem?_eq_some_iff.mp hfound).1
    (List.getElem?_eq_some_iff.mp hother).1 hne

theorem isWritable (h : deployment.HoldsHeap heap ledger machine) (hsound : deployment.Sound)
    (hfound : ledger.blocks[block]? = some found) {byte : Nat} (hbyte : byte < 4 * found.size) :
    machine.isWritable deployment.host (deployment.place block + byte) = true :=
  (h.lends hsound hfound).isWritable_block (List.getElem?_eq_some_iff.mp hfound).1
    (h.getElem? hfound) h.arena hbyte

/-- Writing to the stack leaves the heap as it is. -/
theorem congr {next : Machine} (h : deployment.HoldsHeap heap ledger machine)
    (hsound : deployment.Sound)
    (hsame : machine.SameOutside (deployment.host.stackTop - deployment.host.stackBytes)
      deployment.host.stackTop next) : deployment.HoldsHeap heap ledger next := by
  refine ⟨h.blocks, hsame.arena.trans h.arena, h.small, h.slots, ?_⟩
  intro block found hfound byte hbyte
  -- Blocks are below 2 GiB and apart from the stack.
  have hstack := (h.lendable hsound hfound).stack
  have hbytes := hsound.loaded.fits.stackBytes
  unfold Mapping.Apart at hstack
  dsimp only at hstack
  rw [hsame.memory _ (by omega)]
  exact h.bytes block found hfound byte hbyte

theorem of_eq {next : Ledger} (h : deployment.HoldsHeap heap ledger machine)
    (hblocks : next.blocks = ledger.blocks) (hslots : next.slots = ledger.slots)
    (hbytes : next.bytes = ledger.bytes) : deployment.HoldsHeap heap next machine := by
  refine ⟨hblocks ▸ h.blocks, ?_, ?_, ?_, ?_⟩
  · rw [hblocks]
    exact h.arena
  · rw [hblocks]
    exact h.small
  · rw [hslots]
    exact h.slots
  · rw [hblocks, hbytes]
    exact h.bytes

end HoldsHeap

/-! ## Accesses -/

section Accesses

variable {heap : Heap} {ledger : Ledger} {machine : Machine} {found : Block} {cell : Cell}
  {frame : Frame} {address : Address} {index : Int} {slot : Nat}

theorem Frame.address_eq_ok (h : frame.address address = .ok index) :
    ∃ base, frame.eval address.base = .ok (.int base) ∧
      index = base.toInt + address.offset.toInt := by
  obtain ⟨value, hvalue, h⟩ := Except.bind_eq_ok.mp h
  split at h
  next base =>
    obtain rfl := Except.ok.inj h
    exact ⟨base, hvalue, rfl⟩
  next => cases h

/-- Where an access goes: to the same slot in the run and in memory. -/
theorem HoldsHeap.access (h : deployment.HoldsHeap heap ledger machine)
    (hcell : ledger.cell? address = some cell) (haddress : frame.address address = .ok index)
    (hslot : heap.slot index = .ok slot) {word : Int64}
    (hbase : ∀ block value, ledger.top.source address.base = some block →
      frame.eval address.base = .ok value → deployment.Represents (some block) value word) :
    ∃ found, ledger.blocks[cell.block]? = some found ∧ cell.offset + 4 ≤ 4 * found.size ∧
      slot = cell.slot ∧ slot < heap.size ∧
      addressOf (word + address.offset.toInt64) = deployment.place cell.block + cell.offset := by
  obtain ⟨found, horigin, hfound, hoffset, hsize, hcellSlot⟩ := Ledger.cell?_eq_some hcell
  obtain ⟨base, heval, rfl⟩ := Frame.address_eq_ok haddress
  obtain ⟨_, rfl, hslotSize⟩ := Heap.slot_eq_ok hslot
  obtain ⟨rfl, hplace, other, hother, hvalue⟩ := hbase _ _ horigin heval
  obtain rfl := Option.some.inj ((h.getElem? hfound).symm.trans hother)
  obtain rfl := Value.int.inj hvalue
  have hsmall := h.small found (List.mem_of_getElem? hfound)
  have hfoundBase : (Int32.ofNat found.base).toInt = found.base :=
    Int32.toInt_ofNat_of_lt hsmall.1
  refine ⟨found, hfound, by omega, ?_, hslotSize, addressOf_add hoffset (by omega)⟩
  rw [hfoundBase, hoffset, hcellSlot]
  omega

/-- The four bytes at a slot can be loaded. -/
theorem HoldsHeap.load (h : deployment.HoldsHeap heap ledger machine) (hsound : deployment.Sound)
    (hfound : ledger.blocks[cell.block]? = some found)
    (hoffset : cell.offset + 4 ≤ 4 * found.size) :
    machine.load deployment.host deployment.executable
      (deployment.place cell.block + cell.offset) 4 =
        .ok (Bytes.toNat (machine.memory.read (deployment.place cell.block + cell.offset) 4)) := by
  have himage := (h.lendable hsound hfound).image
  have hbase := hsound.loaded.base
  unfold Mapping.Apart at himage
  dsimp only at himage
  refine Machine.load_of_writable (fun part hpart => by omega) fun part hpart => ?_
  rw [Nat.add_assoc]
  exact h.isWritable hsound hfound (by omega)

/-- What is known about the bytes at a slot holds of memory. -/
theorem HoldsHeap.read_matches (h : deployment.HoldsHeap heap ledger machine)
    (hfound : ledger.blocks[cell.block]? = some found)
    (hoffset : cell.offset + 4 ≤ 4 * found.size) {part : Nat} (hpart : part < 4) :
    ((ledger.read cell)[part]?.getD .unknown).Matches deployment.place
      (machine.memory.byte (deployment.place cell.block + cell.offset + part)) := by
  rw [Ledger.read, List.getElem?_map, List.getElem?_range hpart, Nat.add_assoc]
  exact h.bytes cell.block found hfound (cell.offset + part) (by omega)

/-- If the bytes at a slot are those of its value, they are the bytes of the word of that value. -/
theorem HoldsHeap.read_eq (h : deployment.HoldsHeap heap ledger machine)
    (hfound : ledger.blocks[cell.block]? = some found)
    (hoffset : cell.offset + 4 ≤ 4 * found.size) {value : Value} {origin : Option Nat}
    (hwhole : ledger.read cell = value.storedBytes origin) {word : Int64}
    (hword : deployment.storedWord? origin value = some word) :
    machine.memory.read (deployment.place cell.block + cell.offset) 4 =
      Bytes.ofNat 4 (addressOf word) := by
  apply List.ext_getElem?
  intro part
  rw [Memory.getElem?_read]
  split
  next hpart =>
    have hknown := h.read_matches hfound hoffset hpart
    rw [hwhole, storedBytes_matches hword hpart] at hknown
    exact hknown.symm
  next hpart =>
    refine (List.getElem?_eq_none ?_).symm
    rw [Bytes.length_ofNat]
    omega

/-- Bytes at a slot that belong to no pointer are those in memory. -/
theorem HoldsHeap.read_plain (h : deployment.HoldsHeap heap ledger machine)
    (hfound : ledger.blocks[cell.block]? = some found)
    (hoffset : cell.offset + 4 ≤ 4 * found.size) {bytes : List UInt8}
    (hplain : ledger.read cell = bytes.map .plain) :
    machine.memory.read (deployment.place cell.block + cell.offset) 4 = bytes := by
  have hlength : bytes.length = 4 := by
    have hsame := congrArg List.length hplain
    rw [Ledger.read, List.length_map, List.length_map, List.length_range] at hsame
    exact hsame.symm
  apply List.ext_getElem?
  intro part
  rw [Memory.getElem?_read]
  split
  next hpart =>
    have hin : part < bytes.length := hlength ▸ hpart
    have hknown := h.read_matches hfound hoffset hpart
    rw [hplain, List.getElem?_map, List.getElem?_eq_getElem hin] at hknown
    rw [List.getElem?_eq_getElem hin]
    exact congrArg some hknown
  next hpart =>
    refine (List.getElem?_eq_none ?_).symm
    omega

/-- A store puts the bytes of a value into memory. -/
theorem HoldsHeap.store (h : deployment.HoldsHeap heap ledger machine) (hsound : deployment.Sound)
    (hfound : ledger.blocks[cell.block]? = some found)
    (hoffset : cell.offset + 4 ≤ 4 * found.size) (hslot : cell.slot < heap.size) {value : Value}
    {origin : Option Nat} {word : Int64}
    (hword : ∀ stored, deployment.storedWord? origin value = some stored → word = stored)
    (hpointer : ∀ block, origin = some block →
      deployment.Represents (some block) value (Int64.ofNat (deployment.place block)))
    {next : Machine} (harena : next.arena = machine.arena)
    (hmemory : next.memory = machine.memory.write (deployment.place cell.block + cell.offset)
      (Bytes.ofNat 4 (addressOf word))) :
    deployment.HoldsHeap (heap.set cell.slot value) (ledger.store cell value origin) next := by
  refine ⟨h.blocks, harena.trans h.arena, h.small, fun slot block horigin => ?_, ?_⟩
  · rw [Heap.get?_set]
    change (if slot = cell.slot then origin else ledger.slots slot) = some block at horigin
    by_cases heq : slot = cell.slot
    · subst heq
      rw [if_pos rfl] at horigin
      rw [if_pos ⟨rfl, hslot⟩]
      exact ⟨value, rfl, hpointer block horigin⟩
    · rw [if_neg heq] at horigin
      rw [if_neg fun hboth => heq hboth.1.symm]
      exact h.slots slot block horigin
  · intro block another hanother byte hbyte
    change StoredByte.Matches _ _ (if block = cell.block ∧ cell.offset ≤ byte ∧
      byte < cell.offset + 4 then _ else _)
    rw [hmemory]
    split
    next hinside =>
      obtain ⟨rfl, hlow, hhigh⟩ := hinside
      cases hstored : deployment.storedWord? origin value with
      | none =>
          rw [storedBytes_of_none hstored]
          trivial
      | some stored =>
          obtain rfl := hword stored hstored
          rw [storedBytes_matches hstored (by omega)]
          have hpart : byte - cell.offset < (Bytes.ofNat 4 (addressOf word)).length := by
            rw [Bytes.length_ofNat]
            omega
          have hwritten := Memory.getElem?_write machine.memory
            (deployment.place cell.block + cell.offset) _ hpart
          rwa [show deployment.place cell.block + cell.offset + (byte - cell.offset) =
            deployment.place cell.block + byte by omega] at hwritten
    next houtside =>
      rw [Memory.byte_write_of_lt_or_le]
      · exact h.bytes block another hanother byte hbyte
      · rw [Bytes.length_ofNat]
        by_cases hblock : block = cell.block
        · subst hblock
          omega
        · have hapart := h.apart hsound hfound hanother hblock
          unfold Mapping.Apart at hapart
          dsimp only at hapart
          omega

/-- An allocation adds a block at the end. -/
theorem HoldsHeap.allocate (h : deployment.HoldsHeap heap ledger machine) {count : Nat}
    (dst : Option Dest) (hbase : heap.size < 2147483648) (hcount : count < 2147483648)
    (hblocks : ledger.blocks ++ [⟨heap.size, count⟩] <+: deployment.blocks) {next : Machine}
    (harena : next.arena =
      (machine.arena.malloc deployment.host.low (Int64.ofNat count)).2)
    (hmemory : next.memory = machine.memory) :
    deployment.HoldsHeap (heap.grow count) (ledger.allocate heap.size count dst) next := by
  refine ⟨hblocks, ?_, ?_, fun slot block horigin => ?_, ?_⟩
  · change next.arena = deployment.host.arenaAfter (ledger.blocks ++ [⟨heap.size, count⟩])
    rw [harena, h.arena, Host.arenaAfter_append]
  · intro block hblock
    rcases List.mem_append.mp hblock with hblock | hblock
    · exact h.small block hblock
    · obtain rfl := List.mem_singleton.mp hblock
      exact ⟨hbase, hcount⟩
  · obtain ⟨value, hvalue, hpointer⟩ := h.slots slot block horigin
    have hslot : slot < heap.size := (Array.getElem?_eq_some_iff.mp hvalue).1
    refine ⟨value, ?_, hpointer⟩
    rw [Heap.get?_grow, if_pos hslot, hvalue]
  · intro block found hfound byte hbyte
    change StoredByte.Matches _ _ (if block = ledger.blocks.length then .unknown else _)
    split
    next => trivial
    next hne =>
      have hlt : block < ledger.blocks.length := by
        have hlength : block < (ledger.blocks ++ [(⟨heap.size, count⟩ : Block)]).length :=
          (List.getElem?_eq_some_iff.mp hfound).1
        rw [List.length_append, List.length_singleton] at hlength
        omega
      change (ledger.blocks ++ [(⟨heap.size, count⟩ : Block)])[block]? = some found at hfound
      rw [List.getElem?_append_left hlt] at hfound
      rw [hmemory]
      exact h.bytes block found hfound byte hbyte

end Accesses

end Deployment

end ThreeAddress
