import ThreeAddress.Proofs.Heap.Placement

/-!
# What `malloc` hands out

Whatever is asked for, blocks lie in memory that was mapped for them, aligned and apart
from each other, and the chunk is never exceeded. One number of slots is the exception:
its size is rounded up past the end of the address space, so that it gets an address but
no bytes.
-/

namespace ThreeAddress

/-- What is promised of low memory: it comes in pages below 2 GiB, apart from all that was mapped
before. -/
structure LowMemory.Sound (low : LowMemory) : Prop where
  aligned : ∀ {mappings bytes base}, low.Granted mappings → low mappings bytes = some base →
    base % 4096 = 0
  below : ∀ {mappings bytes base}, low.Granted mappings → low mappings bytes = some base →
    base + wholePages bytes ≤ 2147483648
  fresh : low.Fresh

/-- A call of `malloc`: how many slots it asked for, and the address that it returned. -/
structure Grant where
  slots : Int64
  address : Nat
deriving DecidableEq, Repr

namespace Grant

/-- The bytes of the slots. -/
def region (grant : Grant) : Mapping := ⟨grant.address, 4 * grant.slots.toInt.toNat⟩

/-- The number of slots whose bytes cannot be rounded up within a machine word. -/
def overflowing : Int64 := 4611686018427387903

/-- The call was served, for a number of slots that can be. -/
def isServed (grant : Grant) : Bool :=
  decide (grant.address ≠ 0) && decide (grant.slots ≠ overflowing)

end Grant

/-- An arena and the calls that it has answered, in order. -/
structure Service where
  arena : Arena
  grants : List Grant
deriving DecidableEq, Repr

namespace Service

def malloc (low : LowMemory) (service : Service) (slots : Int64) : Service :=
  let (address, arena) := service.arena.malloc low slots
  ⟨arena, service.grants ++ [⟨slots, address⟩]⟩

/-- A fresh arena after it has answered calls. -/
def after (low : LowMemory) (calls : List Int64) : Service :=
  calls.foldl (malloc low) ⟨.empty, []⟩

/-- The bytes that have been handed out, in order. -/
def regions (service : Service) : List Mapping :=
  (service.grants.filter Grant.isServed).map Grant.region

/-- What may be relied on, whatever has been asked for. -/
structure Sound (low : LowMemory) (service : Service) : Prop where
  /-- All memory is low memory that was mapped. -/
  granted : low.Granted service.arena.mappings
  below : ∀ mapping ∈ service.arena.mappings, mapping.base + mapping.length ≤ 2147483648
  aligned : ∀ grant ∈ service.grants, grant.address % 8 = 0
  /-- A negative number of slots is refused. -/
  negative : ∀ grant ∈ service.grants, grant.slots < 0 → grant.address = 0
  /-- The bytes of an answer are in mapped memory, but for one number of slots. -/
  inside : ∀ grant ∈ service.grants, grant.address ≠ 0 →
    ((∃ mapping ∈ service.arena.mappings, grant.region.Within mapping) ↔
      grant.slots ≠ Grant.overflowing)
  apart : service.regions.Pairwise Mapping.Apart
  /-- The next block starts in the chunk or at its end, so no sum of an address and a size is too
  large for a machine word. -/
  chunk : service.arena.next ≤ service.arena.limit ∧ (service.arena.limit ≠ 0 →
    ∃ base, ⟨base, Arena.chunkBytes⟩ ∈ service.arena.mappings ∧ base ≤ service.arena.next ∧
      service.arena.limit = base + Arena.chunkBytes)

end Service

/-! ## Sizes -/

namespace Arena

variable {low : LowMemory} {arena next : Arena} {region : Nat → Mapping} {count base bytes : Nat}
  {slots : Int64}

theorem blockBytes_mod (bytes : Nat) : blockBytes bytes % 8 = 0 :=
  Nat.mul_mod_left _ _

theorem malloc_of_neg (h : slots < 0) : arena.malloc low slots = (0, arena) :=
  if_pos (.inl (Int64.lt_iff_toInt_lt.mp h))

/-- A call is refused, or it allocates the bytes of its slots. -/
theorem malloc_cases (low : LowMemory) (arena : Arena) (slots : Int64) :
    arena.malloc low slots = (0, arena) ∨
      slots.toInt < 4611686018427387904 ∧
        arena.malloc low slots = arena.allocate low (4 * slots.toInt.toNat) := by
  unfold malloc
  dsimp only
  split
  next => exact .inl rfl
  next hrange =>
    change ¬ (slots.toInt < 0 ∨ 18446744073709551616 ≤ slots.toInt * 4) at hrange
    refine .inr ⟨by omega, ?_⟩
    rw [Nat.mul_comm]
    rfl

/-- The bytes of slots fit into their block, but for one number of slots. -/
theorem le_blockBytes_slots (hlt : slots.toInt < 4611686018427387904)
    (hslots : slots ≠ Grant.overflowing) :
    4 * slots.toInt.toNat ≤ blockBytes (4 * slots.toInt.toNat) := by
  have hne : slots.toInt ≠ 4611686018427387903 := fun heq =>
    hslots (Int64.toInt_inj.mp heq)
  have hle : max (4 * slots.toInt.toNat) 1 ≤ blockBytes (4 * slots.toInt.toNat) :=
    le_blockBytes (by omega)
  omega

/-! ## What an arena has lent -/

theorem Lends.congr {region' : Nat → Mapping} (h : arena.Lends low region count)
    (hsame : ∀ index < count, region' index = region index) :
    arena.Lends low region' count := by
  refine ⟨h.granted, fun index hindex => ?_, fun left hleft right hright => ?_, h.chunk,
    fun hnext index hindex => ?_⟩
  · rw [hsame index hindex]
    exact h.inside index hindex
  · rw [hsame left hleft, hsame right (hright.trans hleft)]
    exact h.apart left hleft right hright
  · rw [hsame index hindex]
    exact h.free hnext index hindex

theorem Lends.pred (h : arena.Lends low region (count + 1)) : arena.Lends low region count where
  granted := h.granted
  inside := fun index hindex => h.inside index (Nat.lt_succ_of_lt hindex)
  apart := fun left hleft => h.apart left (Nat.lt_succ_of_lt hleft)
  chunk := h.chunk
  free := fun hnext index hindex => h.free hnext index (Nat.lt_succ_of_lt hindex)

/-- What has been lent stays lent when more is allocated. -/
theorem Lends.keep (h : arena.Lends low region count) (hfresh : low.Fresh)
    (hallocate : arena.allocate low bytes = (base, next)) : next.Lends low region count := by
  let region' := fun index => if index = count then (⟨base, 0⟩ : Mapping) else region index
  have hnew : region' count = ⟨base, 0⟩ := if_pos rfl
  have hold : ∀ index < count, region' index = region index := fun index hindex =>
    if_neg (Nat.ne_of_lt hindex)
  have hlends : arena.Lends low region' count := h.congr hold
  rcases hlends.allocate hfresh hallocate (by rw [hnew]) (by rw [hnew]; exact Nat.zero_le _) with
    ⟨_, rfl⟩ | hnext
  · exact h
  · exact hnext.pred.congr fun index hindex => (hold index hindex).symm

/-- The regions of a list have been lent, in order. -/
def LendsAll (low : LowMemory) (arena : Arena) (regions : List Mapping) : Prop :=
  arena.Lends low (fun index => regions[index]?.getD default) regions.length

theorem LendsAll.append {regions : List Mapping} (h : arena.LendsAll low regions)
    (hfresh : low.Fresh) (hallocate : arena.allocate low bytes = (base, next)) {length : Nat}
    (hlength : length ≤ blockBytes bytes) :
    base = 0 ∧ next = arena ∨ next.LendsAll low (regions ++ [⟨base, length⟩]) := by
  have hlends : arena.Lends low (fun index => (regions ++ [⟨base, length⟩])[index]?.getD default)
      regions.length := by
    refine h.congr fun index hindex => ?_
    rw [List.getElem?_append_left hindex]
  have hnew : (regions ++ [(⟨base, length⟩ : Mapping)])[regions.length]?.getD default =
      ⟨base, length⟩ := by simp
  unfold LendsAll
  rw [List.length_append, List.length_singleton]
  exact hlends.allocate hfresh hallocate (by rw [hnew]) (by rw [hnew]; exact hlength)

theorem LendsAll.inside {regions : List Mapping} (h : arena.LendsAll low regions) :
    ∀ region ∈ regions, ∃ mapping ∈ arena.mappings, region.Within mapping := by
  intro region hregion
  obtain ⟨index, hindex, rfl⟩ := List.mem_iff_getElem.mp hregion
  simpa [List.getElem?_eq_getElem hindex] using Lends.inside h index hindex

theorem LendsAll.apart {regions : List Mapping} (h : arena.LendsAll low regions) :
    regions.Pairwise Mapping.Apart := by
  refine List.pairwise_iff_getElem.mpr fun left right hleft hright hlt => Mapping.Apart.symm ?_
  simpa [List.getElem?_eq_getElem hleft, List.getElem?_eq_getElem hright] using
    Lends.apart h right hright left hlt

/-- The next block starts at a multiple of eight, in the chunk or at its end. -/
structure Bumps (arena : Arena) : Prop where
  aligned : arena.next % 8 = 0
  le_limit : arena.next ≤ arena.limit
  chunk : arena.limit ≠ 0 → ∃ base, ⟨base, chunkBytes⟩ ∈ arena.mappings ∧ base ≤ arena.next ∧
    arena.limit = base + chunkBytes

theorem Bumps.allocate (h : arena.Bumps) (hlow : low.Sound) (hgranted : low.Granted arena.mappings)
    (hallocate : arena.allocate low bytes = (base, next)) : base % 8 = 0 ∧ next.Bumps := by
  have hsize := blockBytes_mod bytes
  cases allocates hallocate with
  | fails => exact ⟨rfl, h⟩
  | maps hmap =>
      have hbase := hlow.aligned hgranted hmap
      refine ⟨by omega, h.aligned, h.le_limit, fun hlimit => ?_⟩
      obtain ⟨base, hmapping, hchunk⟩ := h.chunk hlimit
      exact ⟨base, List.mem_cons_of_mem _ hmapping, hchunk⟩
  | carves hnext hroom =>
      have hnextMod := h.aligned
      refine ⟨hnextMod, ?_, hroom, fun hlimit => ?_⟩
      · change (arena.next + blockBytes bytes) % 8 = 0
        omega
      · obtain ⟨base, hmapping, hbase, heq⟩ := h.chunk hlimit
        exact ⟨base, hmapping, hbase.trans (Nat.le_add_right _ _), heq⟩
  | renews hmap hfits =>
      have hbase := hlow.aligned hgranted hmap
      refine ⟨by omega, ?_, Nat.add_le_add_left hfits base, fun _ => ?_⟩
      · change (base + blockBytes bytes) % 8 = 0
        omega
      · exact ⟨base, List.mem_cons_self, Nat.le_add_right _ _, rfl⟩

end Arena

/-! ## Low memory -/

theorem wholePages_mod (bytes : Nat) : wholePages bytes % 4096 = 0 :=
  Nat.mul_mod_left _ _

theorem Host.ascendingBase_mod {mappings : List Mapping} (h : Host.ascending.Granted mappings) :
    Host.ascendingBase mappings % 4096 = 0 := by
  induction h with
  | nil => rfl
  | @cons mappings bytes base _ hmap ih =>
      have hpages := wholePages_mod bytes
      have hbase := (Host.ascending_eq_some hmap).1
      change (base + wholePages bytes) % 4096 = 0
      omega

theorem Host.sound_ascending : Host.ascending.Sound where
  aligned := fun hgranted hmap => by
    rw [(Host.ascending_eq_some hmap).1]
    exact Host.ascendingBase_mod hgranted
  below := fun _ hmap => (Host.ascending_eq_some hmap).2
  fresh := fun hgranted hmap mapping hmapping => .inr <| by
    rw [(Host.ascending_eq_some hmap).1]
    exact (Host.le_ascendingBase hgranted).2 mapping hmapping

theorem LowMemory.Sound.below_of_granted {low : LowMemory} (hlow : low.Sound)
    {mappings : List Mapping} (h : low.Granted mappings) :
    ∀ mapping ∈ mappings, mapping.base + mapping.length ≤ 2147483648 :=
  h.forall_mem hlow.below

/-! ## Calls -/

namespace Service

variable {low : LowMemory} {service : Service}

/-- What each answer keeps up. -/
structure Keeps (low : LowMemory) (service : Service) : Prop where
  lends : service.arena.LendsAll low service.regions
  bumps : service.arena.Bumps
  aligned : ∀ grant ∈ service.grants, grant.address % 8 = 0
  negative : ∀ grant ∈ service.grants, grant.slots < 0 → grant.address = 0

theorem keeps_empty (low : LowMemory) : Keeps low ⟨.empty, []⟩ where
  lends := Arena.lends_empty _ _
  bumps := ⟨rfl, Nat.le_refl _, fun h => absurd rfl h⟩
  aligned := nofun
  negative := nofun

theorem regions_append (arena : Arena) (grants : List Grant) (grant : Grant) :
    regions ⟨arena, grants ++ [grant]⟩ =
      regions ⟨arena, grants⟩ ++ if grant.isServed then [grant.region] else [] := by
  rw [regions, List.filter_append, List.map_append]
  cases hserved : grant.isServed <;> simp [regions, hserved]

theorem Keeps.malloc (h : service.Keeps low) (hlow : low.Sound) (slots : Int64) :
    (service.malloc low slots).Keeps low := by
  unfold Service.malloc
  cases hmalloc : service.arena.malloc low slots with
  | mk address next =>
      dsimp only
      have hnegative : slots < 0 → address = 0 := by
        intro hslots
        rw [Arena.malloc_of_neg hslots] at hmalloc
        exact (congrArg Prod.fst hmalloc).symm
      -- What is new: the chunk, the alignment of the address, and the region unless it is refused.
      have hnew : address % 8 = 0 ∧ next.Bumps ∧ next.LendsAll low
          (service.regions ++
            if Grant.isServed ⟨slots, address⟩ then [Grant.region ⟨slots, address⟩] else []) := by
        rcases Arena.malloc_cases low service.arena slots with hrefused | ⟨hlt, hallocates⟩
        · obtain ⟨rfl, rfl⟩ := Prod.mk.inj (hmalloc.symm.trans hrefused)
          exact ⟨rfl, h.bumps, by simpa [Grant.isServed] using h.lends⟩
        · have hallocate := hallocates.symm.trans hmalloc
          obtain ⟨haligned, hbumps⟩ := h.bumps.allocate hlow h.lends.granted hallocate
          refine ⟨haligned, hbumps, ?_⟩
          split
          next hserved =>
            simp only [Grant.isServed, Bool.and_eq_true, decide_eq_true_eq] at hserved
            have hlength := Arena.le_blockBytes_slots hlt hserved.2
            exact (h.lends.append hlow.fresh hallocate hlength).resolve_left
              fun hfails => hserved.1 hfails.1
          next =>
            rw [List.append_nil]
            exact Arena.Lends.keep h.lends hlow.fresh hallocate
      obtain ⟨haligned, hbumps, hlends⟩ := hnew
      refine ⟨?_, hbumps, ?_, ?_⟩
      · rw [regions_append]
        exact hlends
      · rw [List.forall_mem_append, List.forall_mem_singleton]
        exact ⟨h.aligned, haligned⟩
      · rw [List.forall_mem_append, List.forall_mem_singleton]
        exact ⟨h.negative, hnegative⟩

theorem keeps_after (hlow : low.Sound) (calls : List Int64) : (after low calls).Keeps low := by
  induction calls using List.reverseRecOn with
  | nil => exact keeps_empty low
  | append_singleton calls slots ih =>
      rw [after, List.foldl_append]
      exact ih.malloc hlow slots

theorem Keeps.inside_iff (h : service.Keeps low) (hlow : low.Sound) {grant : Grant}
    (hgrant : grant ∈ service.grants) (haddress : grant.address ≠ 0) :
    (∃ mapping ∈ service.arena.mappings, grant.region.Within mapping) ↔
      grant.slots ≠ Grant.overflowing := by
  constructor
  · -- So many bytes do not fit below 2 GiB.
    rintro ⟨mapping, hmapping, _, hend⟩ hslots
    have hbelow := hlow.below_of_granted h.lends.granted mapping hmapping
    have hlength : grant.region.length = 18446744073709551612 := by
      rw [Grant.region, hslots]
      rfl
    omega
  · intro hslots
    apply h.lends.inside
    refine List.mem_map_of_mem (List.mem_filter.mpr ⟨hgrant, ?_⟩)
    simp [Grant.isServed, haddress, hslots]

/-- Whatever is asked for, `malloc` hands out memory that was mapped for it: aligned, apart from all
that it hands out otherwise, and within the chunk. The exception is one number of slots, of which
not all bytes are in mapped memory. A negative number is refused and changes nothing. -/
theorem sound_after (hlow : low.Sound) (calls : List Int64) :
    (after low calls).Sound low ∧
      ∀ slots < 0, (after low calls).arena.malloc low slots = (0, (after low calls).arena) := by
  have hkeeps := keeps_after hlow calls
  refine ⟨?_, fun slots hslots => Arena.malloc_of_neg hslots⟩
  exact {
    granted := hkeeps.lends.granted
    below := hlow.below_of_granted hkeeps.lends.granted
    aligned := hkeeps.aligned
    negative := hkeeps.negative
    inside := fun grant hgrant haddress => hkeeps.inside_iff hlow hgrant haddress
    apart := hkeeps.lends.apart
    chunk := ⟨hkeeps.bumps.le_limit, hkeeps.bumps.chunk⟩ }

/-- Blocks that fill a quarter of a chunk, are too large for one, and are empty or small, with two
numbers of slots that cannot be served. -/
def mixed : List Int64 := [65536, 65537, -1, Grant.overflowing, 0, 1]

theorem sound_after_mixed :
    (after Host.ascending mixed).Sound Host.ascending ∧
      (after Host.ascending mixed).grants.map Grant.address =
        [1073741824, 1074790400, 0, 1074003968, 1074003968, 1074003976] ∧
      (after Host.ascending mixed).arena.malloc Host.ascending (-5) =
        (0, (after Host.ascending mixed).arena) := by
  obtain ⟨hsound, hnegative⟩ := sound_after Host.sound_ascending mixed
  exact ⟨hsound, by decide, hnegative (-5) (by decide)⟩

/-- The number of slots whose size is rounded up to nothing gets the address that the next block
gets too. -/
theorem overflowing_gets_no_bytes :
    (after Host.ascending [Grant.overflowing, 1]).grants =
        [⟨Grant.overflowing, 1073741824⟩, ⟨1, 1073741824⟩] ∧
      Arena.blockBytes (4 * Grant.overflowing.toInt.toNat) = 0 := by
  decide

end Service

end ThreeAddress
