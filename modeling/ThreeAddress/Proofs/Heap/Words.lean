import Mathlib.Data.List.Forall2
import ThreeAddress.Proofs.Heap.History
import ThreeAddress.Proofs.Heap.Provenance

/-!
# Words in slots

Operations on the heap name a block and a place in it. As long as only every fourth place is used,
places stand for words of four bytes that do not overlap. When a program is interpreted, each place
is a slot, and a load gives what was last stored there.
-/

namespace ThreeAddress

/-- What is done with the heap. Blocks are known by the order in which they were allocated. -/
inductive HeapOp where
  | alloc (units : Int32)
  | store (block offset : Nat) (value : Int32)
  | load (block offset : Nat)
deriving DecidableEq, Repr

/-- The place that is accessed: a block, and an offset in it. -/
def HeapOp.place? : HeapOp → Option (Nat × Nat)
  | alloc _ => none
  | store block offset _ | load block offset => some (block, offset)

/-- Operations, the most recent one first. -/
abbrev HeapOps := List HeapOp

namespace HeapOps

def units : HeapOps → Nat
  | [] => 0
  | .alloc count :: earlier => units earlier + count.toInt.toNat
  | .store _ _ _ :: earlier | .load _ _ :: earlier => units earlier

/-- The blocks, in the order in which they were allocated. -/
def blocks : HeapOps → List Block
  | [] => []
  | .alloc count :: earlier => blocks earlier ++ [⟨units earlier, count.toInt.toNat⟩]
  | .store _ _ _ :: earlier | .load _ _ :: earlier => blocks earlier

/-- The value that was last stored at a place. -/
def lastStored? (block offset : Nat) : HeapOps → Option Int32
  | [] => none
  | .store other place value :: earlier =>
      if other = block ∧ place = offset then some value else lastStored? block offset earlier
  | .alloc _ :: earlier | .load _ _ :: earlier => lastStored? block offset earlier

/-- What was last stored where each load loads from, for the most recent load first. -/
def stored : HeapOps → List (Option Int32)
  | [] => []
  | .load block offset :: earlier => lastStored? block offset earlier :: stored earlier
  | .alloc _ :: earlier | .store _ _ _ :: earlier => stored earlier

/-- Each load gave the number that was last stored where it loads from, if there is one. -/
def Gives {α : Type} (answer : Int32 → α) (ops : HeapOps) (loaded : List α) : Prop :=
  List.Forall₂ (fun stored given => ∀ number ∈ stored, given = answer number) ops.stored loaded

/-- Every fourth place of a block is one for a word. -/
def HasWord (ops : HeapOps) (block offset : Nat) : Prop :=
  ∃ found, ops.blocks[block]? = some found ∧ offset % 4 = 0 ∧ offset < found.size

/-- Blocks have no negative size, and accesses are to words of blocks. -/
def WellFormed : HeapOps → Prop
  | [] => True
  | .alloc count :: earlier => 0 ≤ count.toInt ∧ WellFormed earlier
  | .store block offset _ :: earlier => HasWord earlier block offset ∧ WellFormed earlier
  | .load block offset :: earlier => HasWord earlier block offset ∧ WellFormed earlier

/-- The limits leave room for each block, and its first slot has a number of the program. -/
def Fits (limits : Limits) (ops : HeapOps) : Prop :=
  ∀ block ∈ ops.blocks,
    block.base < 2147483648 ∧ block.base + block.size ≤ limits.maxHeapSlots

end HeapOps

/-! ## Places -/

namespace HeapOps

variable {ops : HeapOps} {op : HeapOp} {block offset : Nat} {found : Block} {value : Int32}

theorem prefix_blocks (op : HeapOp) (ops : HeapOps) : ops.blocks <+: blocks (op :: ops) := by
  cases op with
  | alloc => exact List.prefix_append _ _
  | store | load => exact List.prefix_rfl

theorem getElem?_cons (op : HeapOp) (h : ops.blocks[block]? = some found) :
    (blocks (op :: ops))[block]? = some found := by
  obtain ⟨later, hlater⟩ := prefix_blocks op ops
  rw [← hlater, List.getElem?_append_left (List.getElem?_eq_some_iff.mp h).1, h]

theorem HasWord.cons (op : HeapOp) (h : ops.HasWord block offset) :
    HasWord (op :: ops) block offset := by
  obtain ⟨found, hfound, hword⟩ := h
  exact ⟨found, getElem?_cons op hfound, hword⟩

theorem WellFormed.of_cons (h : WellFormed (op :: ops)) : ops.WellFormed := by
  cases op <;> exact h.2

theorem Fits.of_cons {limits : Limits} (h : Fits limits (op :: ops)) : Fits limits ops :=
  fun block hblock => h block ((prefix_blocks op ops).subset hblock)

theorem size_lt (ops : HeapOps) : ∀ block ∈ ops.blocks, block.size < 2147483648 := by
  induction ops with
  | nil => nofun
  | cons op earlier ih =>
      cases op with
      | alloc count =>
          have hcount := count.toInt_lt
          refine List.forall_mem_append.mpr ⟨ih, List.forall_mem_singleton.mpr ?_⟩
          dsimp only
          omega
      | store | load => exact ih

theorem end_le_units (ops : HeapOps) :
    ∀ block ∈ ops.blocks, block.base + block.size ≤ ops.units := by
  induction ops with
  | nil => nofun
  | cons op earlier ih =>
      cases op with
      | alloc count =>
          refine List.forall_mem_append.mpr ⟨fun block hblock => ?_,
            List.forall_mem_singleton.mpr (Nat.le_refl _)⟩
          exact Nat.le_trans (ih block hblock) (Nat.le_add_right _ _)
      | store | load => exact ih

/-- The slots of a block are after those of the blocks before it. -/
theorem pairwise_blocks (ops : HeapOps) :
    ops.blocks.Pairwise fun left right => left.base + left.size ≤ right.base := by
  induction ops with
  | nil => exact .nil
  | cons op earlier ih =>
      cases op with
      | alloc count =>
          refine List.pairwise_append.mpr ⟨ih, List.pairwise_singleton _ _, ?_⟩
          intro block hblock other hother
          obtain rfl := List.mem_singleton.mp hother
          exact end_le_units earlier block hblock
      | store | load => exact ih

/-- Different places are different slots. -/
theorem place_inj {other place : Nat} {another : Block} (hfound : ops.blocks[block]? = some found)
    (hanother : ops.blocks[other]? = some another) (hoffset : offset < found.size)
    (hplace : place < another.size) (h : found.base + offset = another.base + place) :
    block = other ∧ offset = place := by
  obtain ⟨hblock, rfl⟩ := List.getElem?_eq_some_iff.mp hfound
  obtain ⟨hother, rfl⟩ := List.getElem?_eq_some_iff.mp hanother
  have hpairs := List.pairwise_iff_getElem.mp (pairwise_blocks ops)
  rcases Nat.lt_trichotomy block other with hlt | rfl | hgt
  · have hle := hpairs block other hblock hother hlt
    omega
  · exact ⟨rfl, by omega⟩
  · have hle := hpairs other block hother hblock hgt
    omega

/-- Loads of places that have been stored to give all of these numbers. -/
theorem Gives.eq_map {α : Type} {answer : Int32 → α} {loaded : List α} {numbers : List Int32}
    (h : ops.Gives answer loaded) (hstored : ops.stored = numbers.map some) :
    loaded = numbers.map answer := by
  rw [Gives, hstored, List.forall₂_map_left_iff] at h
  clear hstored
  induction h with
  | nil => rfl
  | cons hgiven _ ih => rw [List.map_cons, ← ih, hgiven _ rfl]

theorem hasWord_of_lastStored? (hops : ops.WellFormed)
    (h : ops.lastStored? block offset = some value) : ops.HasWord block offset := by
  induction ops with
  | nil => cases h
  | cons op earlier ih =>
      cases op with
      | alloc | load => exact (ih hops.of_cons h).cons _
      | store other place stored =>
          rw [lastStored?] at h
          split at h
          next heq =>
            obtain ⟨rfl, rfl⟩ := heq
            exact hops.1.cons _
          next => exact (ih hops.of_cons h).cons _

theorem hasWord_of_mem (hops : ops.WellFormed) (hop : op ∈ ops)
    (h : op.place? = some (block, offset)) : ops.HasWord block offset := by
  induction ops with
  | nil => cases hop
  | cons first earlier ih =>
      rcases List.mem_cons.mp hop with rfl | hop
      · cases op with
        | alloc => cases h
        | store | load =>
            obtain ⟨rfl, rfl⟩ := Prod.mk.inj (Option.some.inj h)
            exact hops.1.cons _
      · exact (ih hops.of_cons hop).cons _

end HeapOps

/-! ## Slots -/

/-- Operations on slots. -/
structure SlotRun where
  heap : Heap
  /-- The number of the first slot of each block. -/
  bases : List Int32
  /-- What the loads gave, the most recent one first. -/
  loaded : List Value

namespace SlotRun

def slot (run : SlotRun) (block offset : Nat) : Except Fault Nat :=
  run.heap.slot ((run.bases[block]?.getD 0).toInt + offset)

def step (limits : Limits) (run : SlotRun) : HeapOp → Except Fault SlotRun
  | .alloc units => do
      let count ← run.heap.reserve limits units
      return { run with
        heap := run.heap.grow count, bases := run.bases ++ [Int32.ofNat run.heap.size] }
  | .store block offset value => do
      let slot ← run.slot block offset
      return { run with heap := run.heap.set slot (.int value) }
  | .load block offset => do
      let slot ← run.slot block offset
      return { run with loaded := (run.heap.get? slot).getD .undefined :: run.loaded }

def after (limits : Limits) : HeapOps → Except Fault SlotRun
  | [] => .ok ⟨.empty, [], []⟩
  | op :: earlier => do (← after limits earlier).step limits op

variable {limits : Limits} {ops : HeapOps} {op : HeapOp} {run next : SlotRun} {block offset : Nat}
  {found : Block}

/-- The slots after operations. -/
structure Holds (limits : Limits) (ops : HeapOps) (run : SlotRun) : Prop where
  size : run.heap.size = ops.units
  bases : run.bases = ops.blocks.map fun block => Int32.ofNat block.base
  fits : ops.Fits limits
  slots : ∀ {block offset found value}, ops.blocks[block]? = some found →
    ops.lastStored? block offset = some value →
    run.heap.get? (found.base + offset) = some (.int value)
  loaded : ops.Gives .int run.loaded

theorem holds_empty (limits : Limits) : Holds limits [] ⟨.empty, [], []⟩ :=
  ⟨rfl, rfl, nofun, nofun, .nil⟩

theorem Holds.slot (h : run.Holds limits ops) (hfound : ops.blocks[block]? = some found)
    (hoffset : offset < found.size) : run.slot block offset = .ok (found.base + offset) := by
  have hmem := List.mem_of_getElem? hfound
  have hbase : (run.bases[block]?.getD 0).toInt = found.base := by
    rw [h.bases, List.getElem?_map, hfound]
    exact Int32.toInt_ofNat_of_lt (h.fits found hmem).1
  have hend := ops.end_le_units found hmem
  have hsize := h.size
  rw [SlotRun.slot, Heap.slot, hbase, if_pos (by omega)]
  rfl

theorem Holds.reserve (h : run.Holds limits ops) {count : Int32} (hcount : 0 ≤ count.toInt)
    (hfits : HeapOps.Fits limits (.alloc count :: ops)) :
    run.heap.reserve limits count = .ok count.toInt.toNat := by
  obtain ⟨hbase, hlimit⟩ := hfits ⟨ops.units, count.toInt.toNat⟩ (List.mem_append_right _ (by simp))
  have hsize := h.size
  dsimp only at hbase hlimit
  have hnonneg : ¬ count < 0 := fun hlt => Int.not_lt.mpr hcount (Int32.lt_iff_toInt_lt.mp hlt)
  rw [Heap.reserve, if_neg hnonneg, Limits.checkHeap, if_neg (by omega)]
  dsimp only
  rw [if_pos (by omega)]

/-- An operation for which there is room does not fail. -/
theorem Holds.step_ok (h : run.Holds limits ops) (hops : HeapOps.WellFormed (op :: ops))
    (hfits : HeapOps.Fits limits (op :: ops)) : ∃ next, run.step limits op = .ok next := by
  cases op with
  | alloc count => exact ⟨_, by rw [SlotRun.step, h.reserve hops.1 hfits]; rfl⟩
  | store | load =>
      obtain ⟨found, hfound, _, hoffset⟩ := hops.1
      exact ⟨_, by rw [SlotRun.step, h.slot hfound hoffset]; rfl⟩

theorem Holds.alloc (h : run.Holds limits ops) (hops : ops.WellFormed) {count : Int32}
    (hstep : run.step limits (.alloc count) = .ok next) :
    next.Holds limits (.alloc count :: ops) := by
  obtain ⟨room, hreserve, hnext⟩ := Except.bind_eq_ok.mp hstep
  obtain rfl := Except.ok.inj hnext
  have hlimit := Heap.size_add_le_of_reserve hreserve
  obtain ⟨hroom, _, hsmall⟩ := Heap.reserve_eq_ok hreserve
  obtain rfl : count.toInt.toNat = room := by omega
  have hsize := h.size
  refine ⟨?_, ?_, ?_, fun {block offset found value} hfound hstored => ?_, h.loaded⟩
  · rw [Heap.size_grow, hsize]
    rfl
  · rw [HeapOps.blocks, List.map_append, ← h.bases, hsize]
    rfl
  · refine List.forall_mem_append.mpr ⟨h.fits, List.forall_mem_singleton.mpr ?_⟩
    dsimp only
    omega
  · obtain ⟨earlier, hearlier, _, hoffset⟩ := HeapOps.hasWord_of_lastStored? hops hstored
    obtain rfl := Option.some.inj ((HeapOps.getElem?_cons _ hearlier).symm.trans hfound)
    have hend := ops.end_le_units _ (List.mem_of_getElem? hearlier)
    rw [Heap.get?_grow, if_pos (by omega)]
    exact h.slots hearlier hstored

theorem Holds.store (h : run.Holds limits ops) (hops : ops.WellFormed) {value : Int32}
    (hword : ops.HasWord block offset)
    (hstep : run.step limits (.store block offset value) = .ok next) :
    next.Holds limits (.store block offset value :: ops) := by
  obtain ⟨target, htarget, _, hoffset⟩ := hword
  rw [step, h.slot htarget hoffset] at hstep
  obtain rfl := Except.ok.inj hstep
  have hend := ops.end_le_units _ (List.mem_of_getElem? htarget)
  have hsize := h.size
  refine ⟨(Heap.size_set _ _ _).trans hsize, h.bases, h.fits,
    fun {other place found stored} hfound hstored => ?_, h.loaded⟩
  rw [HeapOps.lastStored?] at hstored
  rw [Heap.get?_set]
  split at hstored
  next heq =>
    obtain ⟨rfl, rfl⟩ := heq
    obtain rfl := Option.some.inj (htarget.symm.trans hfound)
    rw [if_pos ⟨rfl, by omega⟩, Option.some.inj hstored]
  next hne =>
    obtain ⟨same, hsame, _, hplace⟩ := HeapOps.hasWord_of_lastStored? hops hstored
    obtain rfl := Option.some.inj (hsame.symm.trans hfound)
    rw [if_neg fun heq => hne (HeapOps.place_inj htarget hsame hoffset hplace heq.1)]
    exact h.slots hsame hstored

theorem Holds.load (h : run.Holds limits ops) (hword : ops.HasWord block offset)
    (hstep : run.step limits (.load block offset) = .ok next) :
    next.Holds limits (.load block offset :: ops) := by
  obtain ⟨target, htarget, _, hoffset⟩ := hword
  rw [step, h.slot htarget hoffset] at hstep
  obtain rfl := Except.ok.inj hstep
  refine ⟨h.size, h.bases, h.fits, h.slots, .cons (fun number hnumber => ?_) h.loaded⟩
  rw [h.slots htarget hnumber]
  rfl

theorem Holds.step (h : run.Holds limits ops) (hops : HeapOps.WellFormed (op :: ops))
    (hstep : run.step limits op = .ok next) : next.Holds limits (op :: ops) := by
  cases op with
  | alloc => exact h.alloc hops.of_cons hstep
  | store => exact h.store hops.of_cons hops.1 hstep
  | load => exact h.load hops.1 hstep

theorem holds_after (hops : ops.WellFormed) (hrun : after limits ops = .ok run) :
    run.Holds limits ops := by
  induction ops generalizing run with
  | nil =>
      obtain rfl := Except.ok.inj hrun
      exact holds_empty limits
  | cons op earlier ih =>
      obtain ⟨middle, hmiddle, hstep⟩ := Except.bind_eq_ok.mp hrun
      exact (ih hops.of_cons hmiddle).step hops hstep

/-- Operations on slots fail only where the limits leave no room for a block. -/
theorem after_ok_iff (hops : ops.WellFormed) :
    (∃ run, after limits ops = .ok run) ↔ ops.Fits limits := by
  constructor
  · rintro ⟨run, hrun⟩
    exact (holds_after hops hrun).fits
  · intro hfits
    induction ops with
    | nil => exact ⟨_, rfl⟩
    | cons op earlier ih =>
        obtain ⟨run, hrun⟩ := ih hops.of_cons hfits.of_cons
        obtain ⟨next, hnext⟩ := (holds_after hops.of_cons hrun).step_ok hops hfits
        exact ⟨next, Except.bind_eq_ok.mpr ⟨run, hrun, hnext⟩⟩

end SlotRun

end ThreeAddress
