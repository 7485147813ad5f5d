/-!
# The arena

Heap blocks are carved one after the other out of chunks of low memory. A large
block gets memory of its own. Nothing is given back, so all blocks stay zeroed
and apart.
-/

namespace ThreeAddress

/-- A range of memory that is there to be used. -/
structure Mapping where
  base : Nat
  length : Nat
deriving DecidableEq, Repr, Inhabited

def Mapping.contains (mapping : Mapping) (address : Nat) : Bool :=
  decide (mapping.base ≤ address) && decide (address < mapping.base + mapping.length)

/-- Memory comes in pages. -/
def wholePages (bytes : Nat) : Nat := (bytes + 4095) / 4096 * 4096

/-- Finds a place for a number of bytes of fresh low memory, given what is mapped already. -/
abbrev LowMemory := List Mapping → Nat → Option Nat

structure Arena where
  /-- Where the next block starts; zero before there is a chunk. -/
  next : Nat
  /-- The end of the chunk. -/
  limit : Nat
  /-- All memory that was mapped, the latest first. -/
  mappings : List Mapping
deriving DecidableEq, Repr, Inhabited

namespace Arena

def empty : Arena := ⟨0, 0, []⟩

def chunkBytes : Nat := 1048576

/-- The bytes of a heap slot. -/
def slotBytes : Nat := 4

/-- The size of a block: a positive multiple of eight, in machine words. -/
def blockBytes (bytes : Nat) : Nat :=
  (max bytes 1 + 7) % 18446744073709551616 / 8 * 8

/-- Maps fresh memory. -/
def map? (arena : Arena) (low : LowMemory) (bytes : Nat) : Option (Nat × Arena) :=
  match low arena.mappings bytes with
  | none => none
  | some base => some (base, { arena with mappings := ⟨base, wholePages bytes⟩ :: arena.mappings })

/-- The address of a fresh block, or zero. -/
def allocate (arena : Arena) (low : LowMemory) (bytes : Nat) : Nat × Arena :=
  let size := blockBytes bytes
  if chunkBytes / 4 < size then
    (arena.map? low size).getD (0, arena)
  else if arena.next ≠ 0 ∧ arena.next + size ≤ arena.limit then
    (arena.next, { arena with next := arena.next + size })
  else
    match arena.map? low chunkBytes with
    | none => (0, arena)
    | some (base, arena) => (base, { arena with next := base + size, limit := base + chunkBytes })

/-- Allocates heap slots. A negative number, or one of more bytes than there are addresses, gives
zero. -/
def malloc (arena : Arena) (low : LowMemory) (slots : Int64) : Nat × Arena :=
  let slots := slots.toInt
  if slots < 0 ∨ 18446744073709551616 ≤ slots * slotBytes then (0, arena)
  else arena.allocate low (slots.toNat * slotBytes)

end Arena

end ThreeAddress
