import ThreeAddress.Proofs.Heap.Provenance
import ThreeAddress.Proofs.Native.Stack

/-!
# Where blocks are

Blocks are placed one after the other, and where a block is depends on those
before it. As long as fresh memory is apart from what is in use, each block lies
in memory that may be written, apart from other blocks, the image and the stack.
-/

namespace ThreeAddress

namespace Mapping

/-- The ranges have no address in common. -/
def Apart (left right : Mapping) : Prop :=
  left.base + left.length ≤ right.base ∨ right.base + right.length ≤ left.base

/-- All addresses of one range are addresses of the other. -/
def Within (inner outer : Mapping) : Prop :=
  outer.base ≤ inner.base ∧ inner.base + inner.length ≤ outer.base + outer.length

theorem Apart.symm {left right : Mapping} (h : left.Apart right) : right.Apart left := Or.symm h

theorem Apart.mono {left right inner : Mapping} (h : left.Apart right)
    (hinner : inner.Within right) : left.Apart inner := by
  unfold Apart Within at *
  omega

theorem contains_iff {mapping : Mapping} {address : Nat} :
    mapping.contains address = true ↔
      mapping.base ≤ address ∧ address < mapping.base + mapping.length := by
  simp [contains]

end Mapping

/-- Memory that was mapped piece by piece, the latest piece first. -/
inductive LowMemory.Granted (low : LowMemory) : List Mapping → Prop
  | nil : Granted low []
  | cons {mappings bytes base} : Granted low mappings → low mappings bytes = some base →
      Granted low (⟨base, wholePages bytes⟩ :: mappings)

/-- What holds of all fresh memory holds of all that was mapped. -/
theorem LowMemory.Granted.forall_mem {low : LowMemory} {P : Mapping → Prop}
    (hfresh : ∀ {mappings bytes base}, low.Granted mappings → low mappings bytes = some base →
      P ⟨base, wholePages bytes⟩)
    {mappings : List Mapping} (h : low.Granted mappings) : ∀ mapping ∈ mappings, P mapping := by
  induction h with
  | nil => simp
  | cons hmappings hlow ih => exact List.forall_mem_cons.mpr ⟨hfresh hmappings hlow, ih⟩

/-- Fresh memory is apart from all that was mapped before. -/
def LowMemory.Fresh (low : LowMemory) : Prop :=
  ∀ {mappings bytes base}, low.Granted mappings → low mappings bytes = some base →
    ∀ mapping ∈ mappings, Mapping.Apart ⟨base, wholePages bytes⟩ mapping

/-- The number of bytes of mapped memory. -/
def Mapping.total : List Mapping → Nat
  | [] => 0
  | mapping :: rest => mapping.length + total rest

/-- Fresh memory is found, and not at zero, as long as all that is mapped fits into a number of
bytes. -/
def LowMemory.Ample (low : LowMemory) (room : Nat) : Prop :=
  ∀ {mappings bytes}, low.Granted mappings → Mapping.total mappings + wholePages bytes ≤ room →
    ∃ base, low mappings bytes = some base ∧ 0 < base

/-- The bytes of fresh memory that an allocation asks for. It asks for none if the chunk has
room. -/
def Arena.request? (arena : Arena) (bytes : Nat) : Option Nat :=
  if chunkBytes / 4 < blockBytes bytes then some (blockBytes bytes)
  else if arena.next ≠ 0 ∧ arena.next + blockBytes bytes ≤ arena.limit then none
  else some chunkBytes

/-- A range below 2 GiB that is apart from the image and from the stack. -/
structure Host.Lendable (host : Host) (imageBytes : Nat) (mapping : Mapping) : Prop where
  pos : 0 < mapping.base
  below : mapping.base + mapping.length ≤ 2147483648
  image : mapping.Apart ⟨host.imageBase, imageBytes⟩
  stack : mapping.Apart ⟨host.stackTop - host.stackBytes, host.stackBytes⟩

/-- Fresh memory is apart from what is in use, and below 2 GiB. -/
def Host.LendsFresh (host : Host) (imageBytes : Nat) : Prop :=
  ∀ {mappings bytes base}, host.low.Granted mappings → host.low mappings bytes = some base →
    host.Lendable imageBytes ⟨base, wholePages bytes⟩ ∧
      ∀ mapping ∈ mappings, Mapping.Apart ⟨base, wholePages bytes⟩ mapping

namespace Host

variable {host : Host} {imageBytes : Nat} {blocks : List Block}

/-- The arena after blocks have been allocated. -/
def arenaAfter (host : Host) (blocks : List Block) : Arena :=
  blocks.foldl (fun arena block => (arena.malloc host.low (Int64.ofNat block.size)).2) .empty

/-- Where a block is, among the blocks that are allocated one after the other. -/
def place (host : Host) (blocks : List Block) (index : Nat) : Nat :=
  match blocks[index]? with
  | some block =>
      ((host.arenaAfter (blocks.take index)).malloc host.low (Int64.ofNat block.size)).1
  | none => 0

/-- There is room for each of the blocks. -/
def Serves (host : Host) (blocks : List Block) : Prop :=
  ∀ index < blocks.length, host.place blocks index ≠ 0

/-- Whenever fresh memory is asked for while the blocks are allocated, it is found, and not at
zero. -/
def Answers (host : Host) (blocks : List Block) : Prop :=
  ∀ before block, before ++ [block] <+: blocks →
    ∀ bytes ∈ (host.arenaAfter before).request? (4 * block.size),
      ∃ base, host.low (host.arenaAfter before).mappings bytes = some base ∧ 0 < base

/-- The bytes of the slots of a block. A block without slots has one byte. -/
def region (host : Host) (blocks : List Block) (index : Nat) : Mapping :=
  ⟨host.place blocks index, max (4 * (blocks[index]?.getD default).size) 1⟩

theorem LendsFresh.fresh (h : host.LendsFresh imageBytes) : host.low.Fresh :=
  fun hgranted hlow => (h hgranted hlow).2

theorem region_eq {index : Nat} {block : Block} (h : blocks[index]? = some block) :
    host.region blocks index = ⟨host.place blocks index, max (4 * block.size) 1⟩ := by
  rw [region, h]
  rfl

theorem arenaAfter_append (host : Host) (blocks : List Block) (block : Block) :
    host.arenaAfter (blocks ++ [block]) =
      ((host.arenaAfter blocks).malloc host.low (Int64.ofNat block.size)).2 := by
  rw [arenaAfter, List.foldl_append]
  rfl

theorem place_of_append {before : List Block} {block : Block}
    (h : before ++ [block] <+: blocks) :
    host.place blocks before.length =
      ((host.arenaAfter before).malloc host.low (Int64.ofNat block.size)).1 := by
  obtain ⟨after, rfl⟩ := h
  rw [place, List.append_assoc, List.getElem?_append_right (Nat.le_refl _), Nat.sub_self,
    List.take_left]
  rfl

end Host

namespace Arena

/-- Regions have been lent from an arena: they lie in mapped memory, apart from each other and from
the rest of the chunk. -/
structure Lends (low : LowMemory) (arena : Arena) (region : Nat → Mapping) (count : Nat) :
    Prop where
  granted : low.Granted arena.mappings
  inside : ∀ index < count, ∃ mapping ∈ arena.mappings, (region index).Within mapping
  apart : ∀ left < count, ∀ right < left, (region left).Apart (region right)
  chunk : arena.next ≠ 0 → ∃ mapping ∈ arena.mappings,
    mapping.base ≤ arena.next ∧ arena.limit ≤ mapping.base + mapping.length
  free : arena.next ≠ 0 → ∀ index < count,
    (region index).base + (region index).length ≤ arena.next ∨ arena.limit ≤ (region index).base

theorem le_wholePages (bytes : Nat) : bytes ≤ wholePages bytes := by
  unfold wholePages
  omega

theorem le_blockBytes {bytes : Nat} (h : bytes ≤ 18446744073709551608) :
    max bytes 1 ≤ blockBytes bytes := by
  unfold blockBytes
  omega

variable {low : LowMemory} {arena next : Arena} {region : Nat → Mapping} {count base bytes : Nat}

/-- How an allocation ends. -/
inductive Allocates (low : LowMemory) (arena : Arena) (bytes : Nat) : Nat → Arena → Prop
  /-- There is no fresh memory. -/
  | fails : Allocates low arena bytes 0 arena
  /-- A large block gets memory of its own. -/
  | maps {base : Nat} : low arena.mappings (blockBytes bytes) = some base →
      Allocates low arena bytes base
        { arena with mappings := ⟨base, wholePages (blockBytes bytes)⟩ :: arena.mappings }
  /-- The chunk has room. -/
  | carves : arena.next ≠ 0 → arena.next + blockBytes bytes ≤ arena.limit →
      Allocates low arena bytes arena.next { arena with next := arena.next + blockBytes bytes }
  /-- A new chunk is begun. -/
  | renews {base : Nat} : low arena.mappings chunkBytes = some base →
      blockBytes bytes ≤ chunkBytes →
      Allocates low arena bytes base ⟨base + blockBytes bytes, base + chunkBytes,
        ⟨base, wholePages chunkBytes⟩ :: arena.mappings⟩

theorem allocates (h : arena.allocate low bytes = (base, next)) :
    Allocates low arena bytes base next := by
  suffices Allocates low arena bytes (arena.allocate low bytes).1 (arena.allocate low bytes).2 by
    rwa [h] at this
  unfold allocate map?
  dsimp only
  split
  next =>
    cases hlow : low arena.mappings (blockBytes bytes) with
    | none => exact .fails
    | some base => exact .maps hlow
  next hsmall =>
    split
    next hroom => exact .carves hroom.1 hroom.2
    next =>
      cases hlow : low arena.mappings chunkBytes with
      | none => exact .fails
      | some base =>
          refine .renews hlow ?_
          unfold chunkBytes at *
          omega

/-- What one more region has to be for an arena to have lent it too. -/
theorem Lends.succ (h : arena.Lends low region count)
    (hgranted : low.Granted next.mappings) (hmappings : arena.mappings ⊆ next.mappings)
    (hinside : ∃ mapping ∈ next.mappings, (region count).Within mapping)
    (hapart : ∀ index < count, (region count).Apart (region index))
    (hchunk : next.next ≠ 0 → ∃ mapping ∈ next.mappings,
      mapping.base ≤ next.next ∧ next.limit ≤ mapping.base + mapping.length)
    (hfree : next.next ≠ 0 → ∀ index ≤ count,
      (region index).base + (region index).length ≤ next.next ∨
        next.limit ≤ (region index).base) :
    next.Lends low region (count + 1) := by
  refine ⟨hgranted, fun index hindex => ?_, fun left hleft right hright => ?_, hchunk,
    fun hnext index hindex => hfree hnext index (Nat.lt_succ_iff.mp hindex)⟩
  · rcases Nat.lt_succ_iff_lt_or_eq.mp hindex with hlt | rfl
    · obtain ⟨mapping, hmapping, hwithin⟩ := h.inside index hlt
      exact ⟨mapping, hmappings hmapping, hwithin⟩
    · exact hinside
  · rcases Nat.lt_succ_iff_lt_or_eq.mp hleft with hlt | rfl
    · exact h.apart left hlt right hright
    · exact hapart right hright

/-- Fresh memory is apart from all regions that have been lent. -/
theorem Lends.apart_fresh (h : arena.Lends low region count) (hfresh : low.Fresh)
    (hlow : low arena.mappings bytes = some base) {inner : Mapping}
    (hinner : inner.Within ⟨base, wholePages bytes⟩) :
    ∀ index < count, inner.Apart (region index) := by
  intro index hindex
  obtain ⟨mapping, hmapping, hwithin⟩ := h.inside index hindex
  have hapart := hfresh h.granted hlow mapping hmapping
  exact (hapart.mono hwithin).symm.mono hinner |>.symm

/-- The arena that mapped fresh memory for one region, and left its chunk as it was. -/
theorem Lends.map (h : arena.Lends low region count) (hfresh : low.Fresh)
    (hlow : low arena.mappings bytes = some base)
    (hwithin : (region count).Within ⟨base, wholePages bytes⟩) :
    { arena with mappings := ⟨base, wholePages bytes⟩ :: arena.mappings : Arena }.Lends low
      region (count + 1) := by
  have hapart := h.apart_fresh hfresh hlow hwithin
  refine h.succ (.cons h.granted hlow) (List.subset_cons_self _ _)
    ⟨_, List.mem_cons_self, hwithin⟩ hapart ?_ ?_
  · intro hnext
    obtain ⟨mapping, hmapping, hchunk⟩ := h.chunk hnext
    exact ⟨mapping, List.mem_cons_of_mem _ hmapping, hchunk⟩
  · intro hnext index hindex
    rcases Nat.lt_or_eq_of_le hindex with hlt | rfl
    · exact h.free hnext index hlt
    · -- What is left of the chunk is in memory that was mapped before.
      obtain ⟨mapping, hmapping, hbelow, habove⟩ := h.chunk hnext
      have hmapped := hfresh h.granted hlow mapping hmapping
      have hinner := hmapped.symm.mono hwithin
      unfold Mapping.Apart at hinner
      change (region index).base + (region index).length ≤ arena.next ∨
        arena.limit ≤ (region index).base
      omega

/-- The arena that carved one region from its chunk. -/
theorem Lends.carve (h : arena.Lends low region count) {size : Nat} (hnext : arena.next ≠ 0)
    (hlimit : arena.next + size ≤ arena.limit) (hbase : (region count).base = arena.next)
    (hsize : (region count).length ≤ size) :
    { arena with next := arena.next + size }.Lends low region (count + 1) := by
  obtain ⟨mapping, hmapping, hlow, hhigh⟩ := h.chunk hnext
  refine h.succ h.granted (List.Subset.refl _) ⟨mapping, hmapping, ?_⟩ ?_ ?_ ?_
  · constructor <;> omega
  · intro index hindex
    have hfree := h.free hnext index hindex
    unfold Mapping.Apart
    omega
  · intro _
    exact ⟨mapping, hmapping, hlow.trans (Nat.le_add_right _ _), hhigh⟩
  · intro _ index hindex
    change (region index).base + (region index).length ≤ arena.next + size ∨
      arena.limit ≤ (region index).base
    rcases Nat.lt_or_eq_of_le hindex with hlt | rfl
    · have hfree := h.free hnext index hlt
      omega
    · omega

/-- The arena that carved one region from a new chunk. -/
theorem Lends.renew (h : arena.Lends low region count) (hfresh : low.Fresh)
    (hlow : low arena.mappings chunkBytes = some base) {size : Nat}
    (hchunk : size ≤ chunkBytes) (hbase : (region count).base = base)
    (hsize : (region count).length ≤ size) :
    Arena.Lends low
      ⟨base + size, base + chunkBytes, ⟨base, wholePages chunkBytes⟩ :: arena.mappings⟩
      region (count + 1) := by
  have hpages : wholePages chunkBytes = chunkBytes := rfl
  have hwithin : (region count).Within ⟨base, wholePages chunkBytes⟩ := by
    rw [hpages]
    exact ⟨hbase.ge, by dsimp only; omega⟩
  refine h.succ (.cons h.granted hlow) (List.subset_cons_self _ _)
    ⟨_, List.mem_cons_self, hwithin⟩ (h.apart_fresh hfresh hlow hwithin) ?_ ?_
  · intro _
    exact ⟨_, List.mem_cons_self, Nat.le_add_right _ _, by rw [hpages]⟩
  · intro _ index hindex
    change (region index).base + (region index).length ≤ base + size ∨
      base + chunkBytes ≤ (region index).base
    rcases Nat.lt_or_eq_of_le hindex with hlt | rfl
    · have hapart := h.apart_fresh hfresh hlow ⟨Nat.le_refl _, Nat.le_refl _⟩ index hlt
      unfold Mapping.Apart at hapart
      rw [hpages] at hapart
      dsimp only at hapart
      omega
    · omega

/-- An allocation lends a region that is no longer than its block, unless it fails. -/
theorem Lends.allocate (h : arena.Lends low region count) (hfresh : low.Fresh)
    (hallocate : arena.allocate low bytes = (base, next)) (hbase : (region count).base = base)
    (hlength : (region count).length ≤ blockBytes bytes) :
    base = 0 ∧ next = arena ∨ next.Lends low region (count + 1) := by
  cases allocates hallocate with
  | fails => exact .inl ⟨rfl, rfl⟩
  | maps hlow =>
      refine .inr (h.map hfresh hlow ?_)
      have hpages := le_wholePages (blockBytes bytes)
      exact ⟨hbase.ge, by dsimp only; omega⟩
  | carves hnext hlimit => exact .inr (h.carve hnext hlimit hbase hlength)
  | renews hlow hchunk => exact .inr (h.renew hfresh hlow hchunk hbase hlength)

theorem lends_empty (low : LowMemory) (region : Nat → Mapping) : empty.Lends low region 0 :=
  ⟨.nil, nofun, nofun, fun h => absurd rfl h, fun h => absurd rfl h⟩

theorem malloc_ofNat {low : LowMemory} {slots : Nat} (h : slots < 2147483648) :
    arena.malloc low (Int64.ofNat slots) = arena.allocate low (4 * slots) := by
  have hslots : (Int64.ofNat slots).toInt = slots := Int64.toInt_ofNat_of_lt (by omega)
  have hrange : ¬ ((slots : Int) < 0 ∨ 18446744073709551616 ≤ (slots : Int) * slotBytes) := by
    change ¬ ((slots : Int) < 0 ∨ 18446744073709551616 ≤ (slots : Int) * 4)
    omega
  unfold malloc
  dsimp only
  rw [hslots, if_neg hrange, Int.toNat_natCast, Nat.mul_comm]
  rfl

/-- An allocation fails only if it asks for fresh memory and finds none. -/
theorem allocate_ne_zero_iff {low : LowMemory} :
    (arena.allocate low bytes).1 ≠ 0 ↔
      ∀ asked ∈ arena.request? bytes, ∃ base, low arena.mappings asked = some base ∧ 0 < base := by
  unfold allocate request? map?
  dsimp only
  split
  next => cases hlow : low arena.mappings (blockBytes bytes) <;> simp [hlow, Nat.pos_iff_ne_zero]
  next =>
    split
    next hroom => simpa using hroom.1
    next => cases hlow : low arena.mappings chunkBytes <;> simp [hlow, Nat.pos_iff_ne_zero]

end Arena

namespace Host

variable {host : Host} {blocks before : List Block}

/-- There is room for blocks if fresh memory is found whenever it is asked for. -/
theorem serves_iff (hsmall : ∀ block ∈ blocks, block.size < 2147483648) :
    host.Serves blocks ↔ host.Answers blocks := by
  have hplace : ∀ before block, before ++ [block] <+: blocks →
      (host.place blocks before.length ≠ 0 ↔
        ∀ bytes ∈ (host.arenaAfter before).request? (4 * block.size),
          ∃ base, host.low (host.arenaAfter before).mappings bytes = some base ∧ 0 < base) := by
    intro before block hprefix
    have hmem := hprefix.subset (List.mem_append_right _ List.mem_cons_self)
    rw [place_of_append hprefix, Arena.malloc_ofNat (hsmall block hmem),
      Arena.allocate_ne_zero_iff]
  constructor
  · intro hserves before block hprefix
    have hlength := hprefix.length_le
    rw [List.length_append, List.length_singleton] at hlength
    exact (hplace before block hprefix).mp (hserves _ hlength)
  · intro hanswers index hindex
    have hprefix : blocks.take index ++ [blocks[index]] <+: blocks := by
      rw [List.take_append_getElem hindex]
      exact List.take_prefix _ _
    have hne := (hplace _ _ hprefix).mpr (hanswers _ _ hprefix)
    rwa [List.length_take_of_le hindex.le] at hne

/-- The pages that blocks take at most: each takes a chunk, or pages of its own. -/
def demand : List Block → Nat
  | [] => 0
  | block :: rest =>
      wholePages (max Arena.chunkBytes (Arena.blockBytes (4 * block.size))) + demand rest

theorem demand_append (first second : List Block) :
    demand (first ++ second) = demand first + demand second := by
  induction first with
  | nil => exact (Nat.zero_add _).symm
  | cons block rest ih => rw [List.cons_append, demand, ih, demand, Nat.add_assoc]

theorem wholePages_mono {bytes more : Nat} (h : bytes ≤ more) :
    wholePages bytes ≤ wholePages more :=
  Nat.mul_le_mul_right _ (Nat.div_le_div_right (Nat.add_le_add_right h _))

/-- No more is mapped for blocks than what they take at most. -/
theorem granted_arenaAfter (host : Host) (hsmall : ∀ block ∈ blocks, block.size < 2147483648) :
    host.low.Granted (host.arenaAfter blocks).mappings ∧
      Mapping.total (host.arenaAfter blocks).mappings ≤ demand blocks := by
  induction blocks using List.reverseRecOn with
  | nil => exact ⟨.nil, Nat.le_refl _⟩
  | append_singleton before block ih =>
      obtain ⟨hgranted, htotal⟩ := ih fun other hother =>
        hsmall other (List.mem_append_left _ hother)
      have hsize := hsmall block (List.mem_append_right _ List.mem_cons_self)
      have hdemand : demand (before ++ [block]) = demand before +
          wholePages (max Arena.chunkBytes (Arena.blockBytes (4 * block.size))) := by
        rw [demand_append, demand, demand, Nat.add_zero]
      have hchunk := wholePages_mono
        (Nat.le_max_left Arena.chunkBytes (Arena.blockBytes (4 * block.size)))
      have hblock := wholePages_mono
        (Nat.le_max_right Arena.chunkBytes (Arena.blockBytes (4 * block.size)))
      rw [arenaAfter_append, Arena.malloc_ofNat hsize, hdemand]
      generalize hnext : (host.arenaAfter before).allocate host.low (4 * block.size) = allocated
      obtain ⟨base, next⟩ := allocated
      cases Arena.allocates hnext with
      | fails | carves => exact ⟨hgranted, by dsimp only; omega⟩
      | maps hlow | renews hlow =>
          refine ⟨.cons hgranted hlow, ?_⟩
          rw [Mapping.total]
          dsimp only
          omega

/-- Where there is enough memory, it is found whenever it is asked for. -/
theorem answers_of_ample {room : Nat} (hample : host.low.Ample room)
    (hsmall : ∀ block ∈ blocks, block.size < 2147483648) (hroom : demand blocks ≤ room) :
    host.Answers blocks := by
  intro before block hprefix bytes hbytes
  obtain ⟨after, rfl⟩ := hprefix
  obtain ⟨hgranted, htotal⟩ := granted_arenaAfter host fun other (hother : other ∈ before) =>
    hsmall other (by simp [hother])
  have hle : bytes ≤ max Arena.chunkBytes (Arena.blockBytes (4 * block.size)) := by
    unfold Arena.request? at hbytes
    split at hbytes
    next => exact Option.some.inj hbytes ▸ Nat.le_max_right _ _
    next =>
      split at hbytes
      next => cases hbytes
      next => exact Option.some.inj hbytes ▸ Nat.le_max_left _ _
  have hpages := wholePages_mono hle
  have hdemand : demand (before ++ [block] ++ after) = demand before +
      wholePages (max Arena.chunkBytes (Arena.blockBytes (4 * block.size))) + demand after := by
    rw [demand_append, demand_append, demand, demand, Nat.add_zero]
  exact hample hgranted (by omega)

/-- Blocks that were allocated one after the other have been lent by the arena. -/
theorem lends (hfresh : host.low.Fresh) (hserves : host.Serves blocks)
    (hbefore : before <+: blocks) (hsmall : ∀ block ∈ before, block.size < 2147483648) :
    (host.arenaAfter before).Lends host.low (host.region blocks) before.length := by
  induction before using List.reverseRecOn with
  | nil => exact Arena.lends_empty _ _
  | append_singleton before block ih =>
      obtain ⟨after, rfl⟩ := hbefore
      have hblock : (before ++ [block] ++ after)[before.length]? = some block := by simp
      have hsize := hsmall block (List.mem_append_right _ List.mem_cons_self)
      have hplace : host.place (before ++ [block] ++ after) before.length = _ :=
        place_of_append (List.prefix_append (before ++ [block]) after)
      rw [List.length_append, arenaAfter_append]
      rw [Arena.malloc_ofNat hsize] at hplace ⊢
      have hlends := ih ((List.prefix_append _ _).trans (List.prefix_append _ _))
        fun other hother => hsmall other (List.mem_append_left _ hother)
      have hbase := hserves before.length (by simp)
      rw [hplace] at hbase
      have hregion : host.region (before ++ [block] ++ after) before.length =
          ⟨((host.arenaAfter before).allocate host.low (4 * block.size)).1,
            max (4 * block.size) 1⟩ := by
        rw [region_eq hblock, hplace]
      have hlength : max (4 * block.size) 1 ≤ Arena.blockBytes (4 * block.size) :=
        Arena.le_blockBytes (by omega)
      have hallocates := hlends.allocate hfresh (Prod.eta _).symm
        (by rw [hregion]) (by rw [hregion]; exact hlength)
      exact hallocates.resolve_left fun hfails => hbase hfails.1

end Host

namespace Arena.Lends

variable {host : Host} {imageBytes : Nat} {arena : Arena} {region : Nat → Mapping}
  {count index : Nat}

theorem lendable (h : arena.Lends host.low region count) (hfresh : host.LendsFresh imageBytes)
    (hindex : index < count) : host.Lendable imageBytes (region index) := by
  obtain ⟨mapping, hmapping, hwithin⟩ := h.inside index hindex
  obtain ⟨hpos, hbelow, himage, hstack⟩ :=
    h.granted.forall_mem (fun hgranted hlow => (hfresh hgranted hlow).1) mapping hmapping
  refine ⟨Nat.lt_of_lt_of_le hpos hwithin.1, hwithin.2.trans hbelow, ?_, ?_⟩
  · exact (himage.symm.mono hwithin).symm
  · exact (hstack.symm.mono hwithin).symm

theorem isWritable (h : arena.Lends host.low region count) (hindex : index < count)
    {machine : Machine} (hmachine : machine.arena = arena) {address : Nat}
    (hlow : (region index).base ≤ address)
    (hhigh : address < (region index).base + (region index).length) :
    machine.isWritable host address = true := by
  obtain ⟨mapping, hmapping, hwithin⟩ := h.inside index hindex
  rw [Machine.isWritable, hmachine, Bool.or_eq_true]
  refine .inr (List.any_eq_true.mpr ⟨mapping, hmapping, Mapping.contains_iff.mpr ?_⟩)
  exact ⟨hwithin.1.trans hlow, Nat.lt_of_lt_of_le hhigh hwithin.2⟩

/-- Different regions are apart. -/
theorem apart_of_ne {low : LowMemory} {left right : Nat} (h : arena.Lends low region count)
    (hleft : left < count) (hright : right < count) (hne : right ≠ left) :
    (region left).Apart (region right) := by
  rcases Nat.lt_or_gt_of_ne hne with hlt | hgt
  · exact h.apart left hleft right hlt
  · exact (h.apart right hright left hgt).symm

/-- The bytes of the slots of a block may be written. -/
theorem isWritable_block {blocks : List Block} {block : Block}
    (h : arena.Lends host.low (host.region blocks) count) (hindex : index < count)
    (hblock : blocks[index]? = some block) {machine : Machine} (hmachine : machine.arena = arena)
    {byte : Nat} (hbyte : byte < 4 * block.size) :
    machine.isWritable host (host.place blocks index + byte) = true := by
  refine h.isWritable hindex hmachine ?_ ?_
  · rw [Host.region_eq hblock]
    exact Nat.le_add_right _ _
  · rw [Host.region_eq hblock]
    exact Nat.add_lt_add_left (Nat.lt_of_lt_of_le hbyte (Nat.le_max_left _ _)) _

end Arena.Lends

namespace Host

/-- Where memory that is lent in ascending order goes on. -/
def ascendingBase : List Mapping → Nat
  | [] => 1073741824
  | latest :: _ => latest.base + latest.length

theorem ascending_eq_some {mappings : List Mapping} {bytes base : Nat}
    (h : ascending mappings bytes = some base) :
    base = ascendingBase mappings ∧ base + wholePages bytes ≤ 2147483648 := by
  unfold ascending at h
  cases mappings with
  | nil =>
      dsimp only at h
      split at h
      next hle =>
        obtain rfl := Option.some.inj h
        exact ⟨rfl, hle⟩
      next => cases h
  | cons latest rest =>
      dsimp only at h
      split at h
      next hle =>
        obtain rfl := Option.some.inj h
        exact ⟨rfl, hle⟩
      next => cases h

theorem le_ascendingBase {mappings : List Mapping} (h : ascending.Granted mappings) :
    1073741824 ≤ ascendingBase mappings ∧
      ∀ mapping ∈ mappings, mapping.base + mapping.length ≤ ascendingBase mappings := by
  induction h with
  | nil => exact ⟨Nat.le_refl _, by simp⟩
  | @cons mappings bytes base _ hlow ih =>
      obtain ⟨hbase, _⟩ := ascending_eq_some hlow
      refine ⟨?_, fun mapping hmapping => ?_⟩
      · change 1073741824 ≤ base + wholePages bytes
        omega
      · change mapping.base + mapping.length ≤ base + wholePages bytes
        rcases List.mem_cons.mp hmapping with rfl | hmapping
        · exact Nat.le_refl _
        · have hle := ih.2 mapping hmapping
          omega

theorem ascendingBase_eq {mappings : List Mapping} (h : ascending.Granted mappings) :
    ascendingBase mappings = 1073741824 + Mapping.total mappings := by
  induction h with
  | nil => rfl
  | @cons mappings bytes base _ hlow ih =>
      have hbase := (ascending_eq_some hlow).1
      change base + wholePages bytes = 1073741824 + (wholePages bytes + Mapping.total mappings)
      omega

/-- Memory that is lent in ascending order lasts for a gibibyte. -/
theorem ample_ascending : ascending.Ample 1073741824 := by
  intro mappings bytes hgranted hroom
  have hbase := ascendingBase_eq hgranted
  refine ⟨ascendingBase mappings, ?_, by omega⟩
  have heq : ascending mappings bytes =
      if ascendingBase mappings + wholePages bytes ≤ 2147483648 then
        some (ascendingBase mappings) else none := by
    cases mappings <;> rfl
  rw [heq, if_pos (by omega)]

/-- Memory that is lent in ascending order is fresh, with the image and the stack above it. -/
theorem lendsFresh_standard (imageBytes : Nat) : standard.LendsFresh imageBytes := by
  intro mappings bytes base hgranted hlow
  obtain ⟨hbase, hend⟩ := ascending_eq_some hlow
  obtain ⟨hpos, hall⟩ := le_ascendingBase hgranted
  refine ⟨⟨by dsimp only; omega, hend, .inl ?_, .inl ?_⟩, fun mapping hmapping => .inr ?_⟩
  · exact hend.trans (show 2147483648 ≤ 0x7F0000000000 by decide)
  · exact hend.trans (show 2147483648 ≤ 0x7FFFFFFF0000 - 8388608 by decide)
  · dsimp only
    rw [hbase]
    exact hall mapping hmapping

end Host

end ThreeAddress
