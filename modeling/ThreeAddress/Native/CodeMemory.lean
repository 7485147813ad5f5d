/-!
# Memory for code

A region of memory with two views: code is loaded through a writable one and
read through an executable one. The region never has size zero, and fresh memory
is zero.
-/

namespace ThreeAddress

/-- More code than there is room for. -/
structure CodeTooLarge where
  bytes : Nat
  size : Nat
deriving DecidableEq, Repr

def CodeTooLarge.message (error : CodeTooLarge) : String :=
  s!"memory error: {error.bytes} bytes of code do not fit in {error.size} bytes"

structure CodeMemory where
  size : Nat
  /-- The bytes that were loaded; the rest is zero. -/
  loaded : Array UInt8
deriving DecidableEq, Repr, Inhabited

namespace CodeMemory

def ofSize (size : Nat) : CodeMemory := ⟨max size 1, #[]⟩

/-- Puts code at the start of the region. -/
def load (memory : CodeMemory) (code : List UInt8) : Except CodeTooLarge CodeMemory :=
  if memory.size < code.length then .error ⟨code.length, memory.size⟩
  else
    .ok { memory with
      loaded := code.toArray ++ memory.loaded.extract code.length memory.loaded.size }

/-- Whether there is an address for an offset. -/
def hasAddress (memory : CodeMemory) (offset : Nat) : Bool := decide (offset < memory.size)

def byte? (memory : CodeMemory) (offset : Nat) : Option UInt8 :=
  if offset < memory.size then some (memory.loaded[offset]?.getD 0) else none

end CodeMemory

end ThreeAddress
