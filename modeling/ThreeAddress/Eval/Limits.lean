import ThreeAddress.Eval.Fault

/-!
# Limits

What a run may use: call frames, executed instructions, heap slots. Each check
passes up to and including the limit. Instructions are counted in 64 bits, so the
largest limit on them is one that no count exceeds.
-/

namespace ThreeAddress

structure Limits where
  /-- Frames that may be active at once, that of `main` included. -/
  maxDepth : Nat
  /-- Instructions that may be executed, if there is a bound. -/
  maxSteps : Option UInt64
  /-- Heap slots that may be allocated in total. -/
  maxHeapSlots : Nat
deriving DecidableEq, Repr

namespace Limits

def standard : Limits := ⟨100000, none, 4194304⟩

/-- For programs that nobody vouches for. -/
def strict : Limits := ⟨1000, some 1000000, 65536⟩

def trusted : Limits := ⟨10000000, none, 67108864⟩

instance : Inhabited Limits := ⟨standard⟩

def checkDepth (limits : Limits) (depth : Nat) : Except Fault Unit :=
  if limits.maxDepth < depth then .error (.limitExceeded (.depth depth limits.maxDepth))
  else .ok ()

def checkHeap (limits : Limits) (slots : Nat) : Except Fault Unit :=
  if limits.maxHeapSlots < slots then .error (.limitExceeded (.heap slots limits.maxHeapSlots))
  else .ok ()

def checkSteps (limits : Limits) (steps : UInt64) : Except Fault Unit :=
  match limits.maxSteps with
  | some limit => if limit < steps then .error (.limitExceeded (.steps steps limit)) else .ok ()
  | none => .ok ()

end Limits

end ThreeAddress
