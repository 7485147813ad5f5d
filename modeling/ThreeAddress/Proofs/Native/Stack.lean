import ThreeAddress.Proofs.Native.Steps

/-!
# The stack

Words that are put on the stack are found there again, as long as the stack has
room and lies apart from the image. A routine keeps the registers that it has to
preserve below its return address and takes them back from there.
-/

namespace ThreeAddress

/-! ## Words in memory -/

theorem addressOf_lt (word : Int64) : addressOf word < 18446744073709551616 :=
  word.toUInt64.toNat_lt

theorem addressOf_ofNat {address : Nat} (h : address < 18446744073709551616) :
    addressOf (Int64.ofNat address) = address := by
  rw [addressOf, Int64.toUInt64_ofNat', UInt64.toNat_ofNat', Nat.mod_eq_of_lt h]

theorem ofNat_addressOf (word : Int64) : Int64.ofNat (addressOf word) = word := by
  obtain ⟨unsigned⟩ := word
  exact congrArg Int64.ofUInt64 UInt64.ofNat_toNat

namespace Memory

variable {memory memory' : Memory} {address other : Nat}

/-- The word of eight bytes at an address. -/
def word (memory : Memory) (address : Nat) : Int64 :=
  Int64.ofNat (Bytes.toNat (memory.read address 8))

/-- The memories hold the same bytes in a range. -/
def SameIn (memory memory' : Memory) (first stop : Nat) : Prop :=
  ∀ address, first ≤ address → address < stop → memory'.byte address = memory.byte address

theorem SameIn.refl (memory : Memory) (first stop : Nat) : memory.SameIn memory first stop :=
  fun _ _ _ => rfl

theorem SameIn.mono {first stop first' stop' : Nat} (h : memory.SameIn memory' first stop)
    (hfirst : first ≤ first') (hstop : stop' ≤ stop) : memory.SameIn memory' first' stop' :=
  fun address hle hlt => h address (hfirst.trans hle) (Nat.lt_of_lt_of_le hlt hstop)

theorem read_congr {count : Nat} (h : memory.SameIn memory' address (address + count)) :
    memory'.read address count = memory.read address count := by
  induction count generalizing address with
  | zero => rfl
  | succ count ih =>
      have hrest : memory.SameIn memory' (address + 1) (address + 1 + count) :=
        h.mono (Nat.le_succ _) (by omega)
      rw [read, read, h address (Nat.le_refl _) (by omega), ih hrest]

theorem word_congr (h : memory.SameIn memory' address (address + 8)) :
    memory'.word address = memory.word address := by
  rw [word, read_congr h, word]

theorem word_write (memory : Memory) (address : Nat) (value : Int64) :
    (memory.write address (Bytes.ofNat 8 (addressOf value))).word address = value := by
  have hread := memory.read_write address (Bytes.ofNat 8 (addressOf value))
  rw [Bytes.length_ofNat] at hread
  have hsmall : addressOf value < Nat.pow 256 8 := addressOf_lt value
  rw [word, hread, Bytes.toNat_ofNat, Nat.mod_eq_of_lt hsmall, ofNat_addressOf]

/-- A write changes nothing outside of where it writes. -/
theorem sameIn_write (memory : Memory) (address : Nat) (bytes : List UInt8) {first stop : Nat}
    (h : stop ≤ address ∨ address + bytes.length ≤ first) :
    memory.SameIn (memory.write address bytes) first stop :=
  fun other hle hlt => byte_write_of_lt_or_le memory bytes (by omega)

end Memory

/-! ## Accesses to the stack -/

/-- The image and the stack lie apart, below the end of the address space. -/
structure Host.Fits (host : Host) (imageBytes : Nat) : Prop where
  imageBase : 0 < host.imageBase
  imageEnd : host.imageBase + imageBytes < 18446744073709551616
  stackBytes : host.stackBytes ≤ host.stackTop
  stackEnd : host.stackTop < 18446744073709551616
  apart : host.imageBase + imageBytes ≤ host.stackTop - host.stackBytes ∨
    host.stackTop ≤ host.imageBase

/-- An executable that has been loaded where its host says. -/
structure Executable.LoadedOn (executable : Executable) (host : Host) : Prop where
  base : executable.base = host.imageBase
  fits : host.Fits executable.image.size

/-- A word at an address lies in the stack. -/
def Host.InStack (host : Host) (address : Nat) : Prop :=
  host.stackTop - host.stackBytes ≤ address ∧ address + 8 ≤ host.stackTop

namespace Machine

variable {host : Host} {executable : Executable} {machine : Machine} {address : Nat}

theorem byte?_of_writable
    (houtside : address < executable.base ∨ executable.base + executable.image.size ≤ address)
    (hwritable : machine.isWritable host address = true) :
    machine.byte? host executable address = some (machine.memory.byte address) := by
  rw [byte?, if_neg (by omega), if_pos hwritable]

theorem bytes?_eq {count : Nat}
    (h : ∀ offset < count, machine.byte? host executable (address + offset) =
      some (machine.memory.byte (address + offset))) :
    machine.bytes? host executable address count = some (machine.memory.read address count) := by
  induction count generalizing address with
  | zero => rfl
  | succ count ih =>
      have hrest : machine.bytes? host executable (address + 1) count =
          some (machine.memory.read (address + 1) count) := by
        apply ih
        intro offset hoffset
        rw [Nat.add_assoc, Nat.add_comm 1]
        exact h (offset + 1) (by omega)
      have hfirst := h 0 (Nat.succ_pos _)
      rw [Nat.add_zero] at hfirst
      rw [bytes?, hfirst, hrest]
      rfl

theorem isWritable_stack (hlow : host.stackTop - host.stackBytes ≤ address)
    (hhigh : address < host.stackTop) : machine.isWritable host address = true := by
  simp [isWritable, hlow, hhigh]

/-- What may be written can be loaded, if it is not in the image. -/
theorem load_of_writable {count : Nat}
    (houtside : ∀ offset < count, address + offset < executable.base ∨
      executable.base + executable.image.size ≤ address + offset)
    (hwritable : ∀ offset < count, machine.isWritable host (address + offset) = true) :
    machine.load host executable address count =
      .ok (Bytes.toNat (machine.memory.read address count)) := by
  have hbytes := bytes?_eq fun offset hoffset =>
    byte?_of_writable (houtside offset hoffset) (hwritable offset hoffset)
  rw [load, hbytes]

theorem load_stack (hloaded : executable.LoadedOn host) (hstack : host.InStack address) :
    machine.load host executable address 8 = .ok (Bytes.toNat (machine.memory.read address 8)) := by
  obtain ⟨hlow, hhigh⟩ := hstack
  have hapart := hloaded.fits.apart
  have hbase := hloaded.base
  exact load_of_writable (fun _ _ => by omega)
    fun _ _ => isWritable_stack (by omega) (by omega)

theorem store_of_writable {count value : Nat}
    (h : ∀ offset < count, machine.isWritable host (address + offset) = true) :
    machine.store host address count value =
      .ok { machine with memory := machine.memory.write address (Bytes.ofNat count value) } := by
  rw [store, if_pos]
  simpa using h

/-- The machine with a word put on the stack at an address. -/
def pushed (machine : Machine) (address : Nat) (value : Int64) : Machine :=
  { machine.set .rsp (Int64.ofNat address) with
    memory := machine.memory.write address (Bytes.ofNat 8 (addressOf value)) }

theorem push_eq (machine : Machine) (hloaded : executable.LoadedOn host)
    (hstack : host.InStack address) (hpointer : machine.get .rsp = Int64.ofNat (address + 8))
    (value : Int64) :
    machine.push host value = .ok (machine.pushed address value) := by
  obtain ⟨hlow, hhigh⟩ := hstack
  have hend := hloaded.fits.stackEnd
  have hnew : machine.get .rsp - 8 = Int64.ofNat address := by
    rw [hpointer, Int64.ofNat_add]
    exact Int64.add_sub_cancel _ _
  rw [push, hnew, addressOf_ofNat (by omega), store_of_writable]
  · rfl
  · exact fun offset hoffset => isWritable_stack (by omega) (by omega)

theorem pop_eq (machine : Machine) (hloaded : executable.LoadedOn host)
    (hstack : host.InStack address) (hpointer : machine.get .rsp = Int64.ofNat address) :
    machine.pop host executable =
      .ok (machine.memory.word address, machine.set .rsp (Int64.ofNat (address + 8))) := by
  have hend := hloaded.fits.stackEnd
  have hhigh := hstack.2
  rw [pop, hpointer, addressOf_ofNat (by omega), load_stack hloaded hstack, Int64.ofNat_add]
  rfl

end Machine

end ThreeAddress
