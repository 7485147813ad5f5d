import Std.Data.TreeMap
import ThreeAddress.Asm.Bytes

/-!
# Memory

Memory is a byte for each address. Fresh memory is zero, so only the bytes that
were written are kept.
-/

namespace ThreeAddress

structure Memory where
  written : Std.TreeMap Nat UInt8

namespace Memory

def zeroed : Memory := ⟨∅⟩

instance : Inhabited Memory := ⟨zeroed⟩

def byte (memory : Memory) (address : Nat) : UInt8 :=
  memory.written.getD address 0

def setByte (memory : Memory) (address : Nat) (byte : UInt8) : Memory :=
  ⟨memory.written.insert address byte⟩

/-- The bytes from an address on. -/
def read (memory : Memory) (address : Nat) : Nat → List UInt8
  | 0 => []
  | count + 1 => memory.byte address :: memory.read (address + 1) count

/-- Writes bytes from an address on. -/
def write (memory : Memory) (address : Nat) : List UInt8 → Memory
  | [] => memory
  | byte :: rest => (memory.setByte address byte).write (address + 1) rest

@[simp] theorem byte_zeroed (address : Nat) : zeroed.byte address = 0 := by
  simp [byte, zeroed]

theorem byte_setByte (memory : Memory) (address other : Nat) (byte : UInt8) :
    (memory.setByte address byte).byte other =
      if address = other then byte else memory.byte other := by
  simp [Memory.byte, setByte, Std.TreeMap.getD_insert, Std.LawfulEqCmp.compare_eq_iff_eq]

/-- Bytes outside of what is written stay as they are. -/
theorem byte_write_of_lt_or_le (memory : Memory) {address other : Nat} (bytes : List UInt8)
    (h : other < address ∨ address + bytes.length ≤ other) :
    (memory.write address bytes).byte other = memory.byte other := by
  induction bytes generalizing memory address with
  | nil => rfl
  | cons first rest ih =>
      simp only [List.length_cons] at h
      rw [write, ih _ (by omega), byte_setByte, if_neg (by omega)]

/-- What is written is read back. -/
theorem read_write (memory : Memory) (address : Nat) (bytes : List UInt8) :
    (memory.write address bytes).read address bytes.length = bytes := by
  induction bytes generalizing memory address with
  | nil => rfl
  | cons first rest ih =>
      rw [List.length_cons, read, write, ih,
        byte_write_of_lt_or_le _ _ (.inl (Nat.lt_succ_self address)), byte_setByte, if_pos rfl]

end Memory

end ThreeAddress
