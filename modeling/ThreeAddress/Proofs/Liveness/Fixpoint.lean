import Mathlib.Data.List.Perm.Subperm
import ThreeAddress.Liveness.Analysis

/-!
# Liveness is a fixpoint

Sweeping stops only where a sweep changes nothing, before the bound on the
number of sweeps is reached. There the sets satisfy the liveness equations at
every instruction, and only destinations that are read somewhere are live.
-/

namespace ThreeAddress

namespace DestSet

theorem nodup_toList (set : DestSet) : set.toList.Nodup :=
  set.ordered.imp fun {left right} hlt => by
    rintro rfl
    exact Dest.lt_irrefl left hlt

theorem size_le_of_subset {smaller larger : DestSet}
    (h : ∀ dest, dest ∈ smaller → dest ∈ larger) : smaller.size ≤ larger.size :=
  (smaller.nodup_toList.subperm h).length_le

/-- A set that is no smaller than one around it is that set. -/
theorem eq_of_subset_of_size_le {smaller larger : DestSet}
    (h : ∀ dest, dest ∈ smaller → dest ∈ larger) (hsize : larger.size ≤ smaller.size) :
    smaller = larger :=
  have hperm := (smaller.nodup_toList.subperm h).perm_of_length_le hsize
  ext fun _ => hperm.mem_iff

end DestSet

namespace Liveness

/-- Everything live in one result is live in the other. -/
structure Within (smaller larger : Liveness) : Prop where
  before : ∀ {index dest}, dest ∈ smaller.liveBefore index → dest ∈ larger.liveBefore index
  after : ∀ {index dest}, dest ∈ smaller.liveAfter index → dest ∈ larger.liveAfter index

/-- A result has one pair of sets for each of `count` instructions. -/
structure Covers (live : Liveness) (count : Nat) : Prop where
  before : live.before.length = count
  after : live.after.length = count

theorem Within.refl (live : Liveness) : Within live live := ⟨id, id⟩

theorem Within.trans {first second third : Liveness} (hfirst : Within first second)
    (hsecond : Within second third) : Within first third :=
  ⟨fun h => hsecond.before (hfirst.before h), fun h => hsecond.after (hfirst.after h)⟩

theorem Covers.ext {left right : Liveness} {count : Nat} (hleft : left.Covers count)
    (hright : right.Covers count)
    (hbefore : ∀ index < count, left.liveBefore index = right.liveBefore index)
    (hafter : ∀ index < count, left.liveAfter index = right.liveAfter index) : left = right := by
  obtain ⟨before, after⟩ := left
  obtain ⟨before', after'⟩ := right
  obtain ⟨hlb, hla⟩ := hleft
  obtain ⟨hrb, hra⟩ := hright
  simp only at hlb hla hrb hra
  congr 1
  · apply List.ext_getElem (by omega)
    intro index h h'
    simpa [liveBefore, h, h'] using hbefore index (by omega)
  · apply List.ext_getElem (by omega)
    intro index h h'
    simpa [liveAfter, h, h'] using hafter index (by omega)

theorem Within.antisymm {left right : Liveness} {count : Nat} (hleft : left.Covers count)
    (hright : right.Covers count) (h : Within left right) (h' : Within right left) :
    left = right :=
  hleft.ext hright (fun _ _ => DestSet.ext fun _ => ⟨h.before, h'.before⟩)
    (fun _ _ => DestSet.ext fun _ => ⟨h.after, h'.after⟩)

theorem covers_none (count : Nat) : (none count).Covers count :=
  ⟨List.length_replicate, List.length_replicate⟩

theorem not_mem_liveBefore_none {count index : Nat} {dest : Dest} :
    dest ∉ (none count).liveBefore index := by
  rw [liveBefore, none, List.getElem?_replicate]
  split <;> simp

theorem not_mem_liveAfter_none {count index : Nat} {dest : Dest} :
    dest ∉ (none count).liveAfter index := by
  rw [liveAfter, none, List.getElem?_replicate]
  split <;> simp

end Liveness

namespace Function

open Liveness

variable {function : Function} {live next : Liveness}

theorem joined_mono (h : Within live next) {index : Nat} {dest : Dest}
    (hmem : dest ∈ function.joined live index) : dest ∈ function.joined next index := by
  obtain ⟨successor, hsuccessor, hlive⟩ := mem_joined.mp hmem
  exact mem_joined.mpr ⟨successor, hsuccessor, h.before hlive⟩

theorem mem_used {dest : Dest} :
    dest ∈ function.used ↔ ∃ inst ∈ function.code, dest ∈ inst.uses := by
  simp [used]

/-- No set has grown beyond what its equation gives it, so recomputing a set enlarges it. -/
structure Justified (function : Function) (live : Liveness) : Prop where
  covers : live.Covers function.code.length
  after : ∀ {index dest}, dest ∈ live.liveAfter index → dest ∈ function.joined live index
  before : ∀ {index dest inst}, function.code[index]? = some inst →
    dest ∈ live.liveBefore index → dest ∈ inst.transfer (function.joined live index)
  used : ∀ {index dest}, dest ∈ live.liveBefore index → dest ∈ function.used

/-- What the sets of an instruction are once they have been recomputed. -/
theorem liveBefore_refresh (hcovers : live.Covers function.code.length) {index other : Nat}
    {inst : Inst} (hinst : function.code[index]? = some inst) :
    (function.refresh live index).liveBefore other =
      if index = other then inst.transfer (function.joined live index)
      else live.liveBefore other := by
  have hlt := (List.getElem?_eq_some_iff.mp hinst).1
  simp only [refresh, hinst, liveBefore, List.getElem?_set]
  have hcount := hcovers.before
  split
  next heq => simp [show index < live.before.length by omega]
  next => rfl

theorem liveAfter_refresh (hcovers : live.Covers function.code.length) {index other : Nat}
    {inst : Inst} (hinst : function.code[index]? = some inst) :
    (function.refresh live index).liveAfter other =
      if index = other then function.joined live index else live.liveAfter other := by
  have hlt := (List.getElem?_eq_some_iff.mp hinst).1
  simp only [refresh, hinst, liveAfter, List.getElem?_set]
  have hcount := hcovers.after
  split
  next heq => simp [show index < live.after.length by omega]
  next => rfl

theorem covers_refresh (hcovers : live.Covers function.code.length) (index : Nat) :
    (function.refresh live index).Covers function.code.length := by
  unfold refresh
  split
  · exact hcovers
  · exact ⟨by simpa using hcovers.before, by simpa using hcovers.after⟩

theorem Justified.within_refresh (h : function.Justified live) (index : Nat) :
    Within live (function.refresh live index) := by
  cases hinst : function.code[index]? with
  | none =>
      simp only [refresh, hinst]
      exact .refl live
  | some inst =>
      constructor
      · intro other dest hmem
        rw [liveBefore_refresh h.covers hinst]
        split
        next heq => exact h.before hinst (heq ▸ hmem)
        next => exact hmem
      · intro other dest hmem
        rw [liveAfter_refresh h.covers hinst]
        split
        next heq => exact h.after (heq ▸ hmem)
        next => exact hmem

theorem transfer_mono {inst : Inst} {after after' : DestSet}
    (h : ∀ {dest}, dest ∈ after → dest ∈ after') {dest : Dest}
    (hmem : dest ∈ inst.transfer after) : dest ∈ inst.transfer after' := by
  rw [Inst.mem_transfer] at hmem ⊢
  exact hmem.imp_right fun hlive => ⟨h hlive.1, hlive.2⟩

theorem Justified.refresh (h : function.Justified live) (index : Nat) :
    function.Justified (function.refresh live index) := by
  have hwithin := h.within_refresh index
  -- The sets have only grown, so whatever justified a member before justifies it still.
  refine ⟨covers_refresh h.covers index, fun {other dest} hmem => ?_,
    fun {other dest inst} hother hmem => ?_, fun {other dest} hmem => ?_⟩
  · cases hinst : function.code[index]? with
    | none =>
        simp only [Function.refresh, hinst] at hmem ⊢
        exact h.after hmem
    | some inst =>
        rw [liveAfter_refresh h.covers hinst] at hmem
        split at hmem
        next heq => exact joined_mono hwithin (heq ▸ hmem)
        next => exact joined_mono hwithin (h.after hmem)
  · cases hinst : function.code[index]? with
    | none =>
        simp only [Function.refresh, hinst] at hmem ⊢
        exact h.before hother hmem
    | some inst' =>
        rw [liveBefore_refresh h.covers hinst] at hmem
        split at hmem
        next heq =>
          subst heq
          obtain rfl : inst' = inst := Option.some.inj (hinst.symm.trans hother)
          exact transfer_mono (joined_mono hwithin) hmem
        next => exact transfer_mono (joined_mono hwithin) (h.before hother hmem)
  · cases hinst : function.code[index]? with
    | none =>
        simp only [Function.refresh, hinst] at hmem
        exact h.used hmem
    | some inst =>
        rw [liveBefore_refresh h.covers hinst] at hmem
        split at hmem
        next heq =>
          rcases Inst.mem_transfer.mp hmem with huse | ⟨hjoined, _⟩
          · exact mem_used.mpr ⟨inst, List.mem_of_getElem? hinst, huse⟩
          · obtain ⟨_, _, hlive⟩ := mem_joined.mp hjoined
            exact h.used hlive
        next => exact h.used hmem

theorem Justified.sweep (h : function.Justified live) (count : Nat) :
    function.Justified (function.sweep count live) := by
  induction count generalizing live with
  | zero => exact h
  | succ count ih => exact ih (h.refresh count)

theorem Justified.within_sweep (h : function.Justified live) (count : Nat) :
    Within live (function.sweep count live) := by
  induction count generalizing live with
  | zero => exact .refl live
  | succ count ih => exact (h.within_refresh count).trans (ih (h.refresh count))

/-- A sweep that changes nothing recomputes each set to what it was. -/
theorem Justified.refresh_eq_of_sweep_eq (h : function.Justified live) {count : Nat}
    (hsweep : function.sweep count live = live) {index : Nat} (hindex : index < count) :
    function.refresh live index = live := by
  induction count with
  | zero => exact absurd hindex (Nat.not_lt_zero index)
  | succ count ih =>
      -- The first refresh of a sweep lies between the start and the end of it.
      have hrest := (h.refresh count).within_sweep count
      rw [show function.sweep count (function.refresh live count) = live from hsweep] at hrest
      have hfirst : function.refresh live count = live :=
        Within.antisymm (h.refresh count).covers h.covers hrest (h.within_refresh count)
      rcases Nat.lt_succ_iff_lt_or_eq.mp hindex with hlt | rfl
      · exact ih (by simpa only [Function.sweep, hfirst] using hsweep) hlt
      · exact hfirst

theorem justified_none (function : Function) : function.Justified (none function.code.length) :=
  ⟨covers_none _, fun hmem => absurd hmem not_mem_liveAfter_none,
    fun _ hmem => absurd hmem not_mem_liveBefore_none,
    fun hmem => absurd hmem not_mem_liveBefore_none⟩

/-! ## The number of sweeps -/

/-- The number of members of a list of sets, counted in each set. -/
def totalSize (sets : List DestSet) : Nat :=
  sets.foldr (fun set total => set.size + total) 0

theorem totalSize_le_of_subset {smaller larger : List DestSet}
    (hlength : smaller.length = larger.length)
    (h : ∀ (index : Nat) (dest : Dest),
      dest ∈ smaller[index]?.getD DestSet.empty → dest ∈ larger[index]?.getD DestSet.empty) :
    totalSize smaller ≤ totalSize larger ∧
      (totalSize larger ≤ totalSize smaller → smaller = larger) := by
  induction smaller generalizing larger with
  | nil =>
      cases larger with
      | nil => simp
      | cons => simp at hlength
  | cons first rest ih =>
      cases larger with
      | nil => simp at hlength
      | cons first' rest' =>
          have hfirst : ∀ dest, dest ∈ first → dest ∈ first' := by simpa using h 0
          have hsize := DestSet.size_le_of_subset hfirst
          obtain ⟨hle, heq⟩ := ih (by simpa using hlength) fun index => by simpa using h (index + 1)
          simp only [totalSize, List.foldr_cons] at hle heq ⊢
          refine ⟨by omega, fun hback => ?_⟩
          rw [DestSet.eq_of_subset_of_size_le hfirst (by omega), heq (by omega)]

theorem totalSize_le_mul {sets : List DestSet} {bound : Nat}
    (h : ∀ set ∈ sets, set.size ≤ bound) : totalSize sets ≤ sets.length * bound := by
  induction sets with
  | nil => simp [totalSize]
  | cons first rest ih =>
      have hfirst := h first List.mem_cons_self
      have hrest := ih fun set hset => h set (List.mem_cons_of_mem _ hset)
      simp only [totalSize, List.foldr_cons, List.length_cons, Nat.succ_mul] at hrest ⊢
      omega

/-- How much the sweeps have found so far. -/
def weight (live : Liveness) : Nat :=
  totalSize live.before + totalSize live.after

theorem Justified.weight_le (h : function.Justified live) :
    weight live ≤ 2 * function.code.length * function.used.size := by
  have hbefore : totalSize live.before ≤ live.before.length * function.used.size := by
    refine totalSize_le_mul fun set hset => DestSet.size_le_of_subset fun dest hmem => ?_
    obtain ⟨index, hindex⟩ := List.mem_iff_getElem?.mp hset
    have hlive : dest ∈ live.liveBefore index := by simpa [liveBefore, hindex] using hmem
    exact h.used hlive
  have hafter : totalSize live.after ≤ live.after.length * function.used.size := by
    refine totalSize_le_mul fun set hset => DestSet.size_le_of_subset fun dest hmem => ?_
    obtain ⟨index, hindex⟩ := List.mem_iff_getElem?.mp hset
    have hafter : dest ∈ live.liveAfter index := by simpa [liveAfter, hindex] using hmem
    obtain ⟨_, _, hlive⟩ := mem_joined.mp (h.after hafter)
    exact h.used hlive
  rw [h.covers.before] at hbefore
  rw [h.covers.after] at hafter
  rw [weight, Nat.mul_assoc, Nat.two_mul]
  exact Nat.add_le_add hbefore hafter

/-- A sweep that changes something finds more. -/
theorem Justified.weight_lt_sweep (h : function.Justified live) {count : Nat}
    (hsweep : function.sweep count live ≠ live) :
    weight live < weight (function.sweep count live) := by
  have hcovers := (h.sweep count).covers
  have hwithin := h.within_sweep count
  obtain ⟨hbefore, hbefore'⟩ := totalSize_le_of_subset
    (h.covers.before.trans hcovers.before.symm) fun _ _ hmem => hwithin.before hmem
  obtain ⟨hafter, hafter'⟩ := totalSize_le_of_subset
    (h.covers.after.trans hcovers.after.symm) fun _ _ hmem => hwithin.after hmem
  -- Sets of the same sizes would be the same sets, as those before are subsets of them.
  by_contra hnot
  simp only [weight] at hnot
  have heqBefore := hbefore' (by omega)
  have heqAfter := hafter' (by omega)
  exact hsweep (h.covers.ext hcovers (fun _ _ => by rw [liveBefore, heqBefore, liveBefore])
    (fun _ _ => by rw [liveAfter, heqAfter, liveAfter])).symm

theorem settle_stable {rounds : Nat} (h : function.Justified live)
    (hrounds : 2 * function.code.length * function.used.size < weight live + rounds) :
    function.Justified (function.settle rounds live) ∧
      function.sweep function.code.length (function.settle rounds live) =
        function.settle rounds live := by
  induction rounds generalizing live with
  | zero => exact absurd h.weight_le (by omega)
  | succ rounds ih =>
      unfold settle
      dsimp only
      split
      next hstable => exact ⟨h, hstable⟩
      next hchanged =>
        -- A sweep that changed something brings the weight closer to its bound.
        have hgrows := h.weight_lt_sweep hchanged
        exact ih (h.sweep _) (by omega)

theorem liveness_stable (function : Function) :
    function.Justified function.liveness ∧
      function.sweep function.code.length function.liveness = function.liveness :=
  settle_stable (justified_none function) (by unfold maxSweeps; omega)

/-! ## The liveness equations -/

theorem liveAfter_liveness (function : Function) (index : Nat)
    (hindex : index < function.code.length) :
    function.liveness.liveAfter index = function.joined function.liveness index := by
  obtain ⟨hjustified, hstable⟩ := liveness_stable function
  have hrefresh := hjustified.refresh_eq_of_sweep_eq hstable hindex
  have hinst := List.getElem?_eq_getElem hindex
  have hafter : (function.refresh function.liveness index).liveAfter index = _ :=
    liveAfter_refresh hjustified.covers hinst
  simpa [hrefresh] using hafter

/-- What is live after an instruction is what is live before some instruction that may follow. -/
theorem mem_liveAfter_iff {index : Nat} {dest : Dest} :
    dest ∈ function.liveness.liveAfter index ↔
      ∃ next ∈ function.successors index, dest ∈ function.liveness.liveBefore next := by
  by_cases hindex : index < function.code.length
  · rw [liveAfter_liveness function index hindex, mem_joined]
  · have hcovers := (liveness_stable function).1.covers.after
    have hlength : function.liveness.after.length ≤ index := by omega
    simp [liveAfter, successors, List.getElem?_eq_none (Nat.not_lt.mp hindex),
      List.getElem?_eq_none hlength]

/-- What is live before an instruction is what it reads, and what is live after it unless it
writes it. -/
theorem mem_liveBefore_iff {index : Nat} {inst : Inst} {dest : Dest}
    (hinst : function.code[index]? = some inst) :
    dest ∈ function.liveness.liveBefore index ↔
      dest ∈ inst.uses ∨
        (dest ∈ function.liveness.liveAfter index ∧ inst.def? ≠ some dest) := by
  obtain ⟨hjustified, hstable⟩ := liveness_stable function
  have hindex := (List.getElem?_eq_some_iff.mp hinst).1
  have hrefresh := hjustified.refresh_eq_of_sweep_eq hstable hindex
  have hbefore : (function.refresh function.liveness index).liveBefore index = _ :=
    liveBefore_refresh hjustified.covers hinst
  rw [hrefresh, if_pos rfl, ← liveAfter_liveness function index hindex] at hbefore
  rw [hbefore, Inst.mem_transfer]

theorem mem_used_of_mem_liveBefore {index : Nat} {dest : Dest}
    (h : dest ∈ function.liveness.liveBefore index) : dest ∈ function.used :=
  (liveness_stable function).1.used h

/-- Nothing is live past the end of the code. -/
theorem lt_length_of_mem_liveBefore {index : Nat} {dest : Dest}
    (h : dest ∈ function.liveness.liveBefore index) : index < function.code.length := by
  by_contra hnot
  have hcovers := (liveness_stable function).1.covers.before
  have hlength : function.liveness.before.length ≤ index := by omega
  simp [liveBefore, List.getElem?_eq_none hlength] at h

end Function

end ThreeAddress
