import ThreeAddress.Eval.Limits

/-!
# The heap

A heap is a row of slots that only grows. An address is the number of a slot;
an allocation appends slots and is known by the number of its first one.
-/

namespace ThreeAddress

structure Heap where
  slots : Array Value
deriving DecidableEq, Repr, Inhabited

namespace Heap

def empty : Heap := ⟨#[]⟩

def size (heap : Heap) : Nat := heap.slots.size

def get? (heap : Heap) (slot : Nat) : Option Value := heap.slots[slot]?

/-- Stores to a slot of the heap; there is no other place to store to. -/
def set (heap : Heap) (slot : Nat) (value : Value) : Heap :=
  ⟨heap.slots.setIfInBounds slot value⟩

def appendUndefined : Nat → Array Value → Array Value
  | 0, slots => slots
  | count + 1, slots => appendUndefined count (slots.push .undefined)

/-- Appends slots that were never stored to. -/
def grow (heap : Heap) (count : Nat) : Heap :=
  ⟨appendUndefined count heap.slots⟩

/-- The slot that an address names, if it lies in the heap. -/
def slot (heap : Heap) (index : Int) : Except Fault Nat :=
  if 0 ≤ index ∧ index.toNat < heap.size then .ok index.toNat
  else .error (.outOfBounds index heap.size)

/-- How many slots an allocation appends. The number of its first slot has to be an integer
of the program. -/
def reserve (heap : Heap) (limits : Limits) (size : Int32) : Except Fault Nat :=
  if size < 0 then .error (.invalidAllocation size)
  else
    match limits.checkHeap (heap.size + size.toInt.toNat) with
    | .error fault => .error fault
    | .ok () =>
        if heap.size < 2147483648 then .ok size.toInt.toNat
        else .error (.limitExceeded .addresses)

@[simp] theorem size_empty : empty.size = 0 := rfl

@[simp] theorem size_set (heap : Heap) (slot : Nat) (value : Value) :
    (heap.set slot value).size = heap.size := by
  simp [set, size]

theorem get?_set (heap : Heap) (slot other : Nat) (value : Value) :
    (heap.set slot value).get? other =
      if slot = other ∧ other < heap.size then some value else heap.get? other := by
  simp only [set, get?, size, Array.getElem?_setIfInBounds]
  split
  next h =>
    subst h
    by_cases hlt : slot < heap.slots.size <;> simp [hlt]
  next h => simp [h]

theorem size_appendUndefined (count : Nat) (slots : Array Value) :
    (appendUndefined count slots).size = slots.size + count := by
  induction count generalizing slots with
  | zero => rfl
  | succ count ih =>
      rw [appendUndefined, ih, Array.size_push]
      omega

theorem getElem?_appendUndefined (count : Nat) (slots : Array Value) (slot : Nat) :
    (appendUndefined count slots)[slot]? =
      if slot < slots.size then slots[slot]?
      else if slot < slots.size + count then some .undefined else none := by
  induction count generalizing slots with
  | zero =>
      simp only [appendUndefined, Nat.add_zero]
      split
      next => rfl
      next h => simp [Array.getElem?_eq_none (Nat.not_lt.mp h)]
  | succ count ih =>
      rw [appendUndefined, ih, Array.size_push]
      by_cases h : slot < slots.size
      · rw [if_pos (by omega), if_pos h, Array.getElem?_push_lt h,
          Array.getElem?_eq_getElem h]
      · by_cases heq : slot = slots.size
        · subst heq
          simp
        · rw [if_neg (by omega), if_neg h]
          by_cases hlt : slot < slots.size + (count + 1)
          · rw [if_pos (by omega), if_pos hlt]
          · rw [if_neg (by omega), if_neg hlt]

@[simp] theorem size_grow (heap : Heap) (count : Nat) :
    (heap.grow count).size = heap.size + count :=
  size_appendUndefined count heap.slots

/-- Growing keeps what is stored, and the new slots are undefined. -/
theorem get?_grow (heap : Heap) (count slot : Nat) :
    (heap.grow count).get? slot =
      if slot < heap.size then heap.get? slot
      else if slot < heap.size + count then some .undefined else none :=
  getElem?_appendUndefined count heap.slots slot

end Heap

end ThreeAddress
