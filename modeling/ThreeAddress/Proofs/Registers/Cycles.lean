import Mathlib.Data.Finset.Card
import Mathlib.Data.List.Rotate
import Mathlib.Dynamics.PeriodicPts.Defs
import ThreeAddress.Proofs.Registers.Moves

/-!
# Cycles of moves

Moves that happen at once need a scratch register only if some of them pass the
contents of registers round in a cycle. Where no move is safe, following the moves
from destination to reader comes back to where it started, so there is a cycle; and
no move of a cycle is safe before one of them has been parked.
-/

namespace ThreeAddress.Move

/-- A move that reads or writes a register. -/
def Mentions (move : Move) (register : Register) : Prop :=
  move.dst = register ∨ move.src = register

instance (move : Move) (register : Register) : Decidable (move.Mentions register) :=
  inferInstanceAs (Decidable (move.dst = register ∨ move.src = register))

/-- Moves that pass the contents of registers round: each of them writes what the one after it
reads, and the last one what the first one reads. -/
structure IsCycle (cycle : List Move) : Prop where
  long : 2 ≤ cycle.length
  nodup : cycle.Nodup
  passes : cycle.map dst = (cycle.map src).rotate 1

section Cycles

variable {pending cycle moves : List Move} {scratch : Register}

theorem not_mem_map_dst (h : ∀ move ∈ moves, ¬move.Mentions scratch) :
    scratch ∉ moves.map dst := by
  intro hmem
  obtain ⟨move, hmove, heq⟩ := List.mem_map.mp hmem
  exact h move hmove (.inl heq)

/-- A walk that stays in a list comes back to a place where it has been. -/
theorem exists_mem_periodicPts {step : Move → Move}
    (hstep : Set.MapsTo step {move | move ∈ pending} {move | move ∈ pending}) {first : Move}
    (hfirst : first ∈ pending) : ∃ move ∈ pending, move ∈ Function.periodicPts step := by
  -- more steps than there are places
  have hcard : pending.toFinset.card < (Finset.range (pending.length + 1)).card := by
    rw [Finset.card_range]
    exact Nat.lt_succ_of_le pending.toFinset_card_le
  have hmaps : Set.MapsTo (fun count => step^[count] first)
      (Finset.range (pending.length + 1)) pending.toFinset := by
    intro count _
    simpa using hstep.iterate count hfirst
  obtain ⟨left, hleft, right, hright, hne, heq⟩ :=
    Finset.exists_ne_map_eq_of_card_lt_of_maps_to hcard hmaps
  wlog hlt : left < right generalizing left right
  · exact this right hright left hleft hne.symm heq.symm (by omega)
  refine ⟨step^[left] first, hstep.iterate left hfirst, ?_⟩
  apply Function.mk_mem_periodicPts (Nat.sub_pos_of_lt hlt)
  change step^[right - left] (step^[left] first) = step^[left] first
  rw [← Function.iterate_add_apply, Nat.sub_add_cancel (Nat.le_of_lt hlt)]
  exact heq.symm

/-- Where no move is safe, some of the pending moves form a cycle. -/
theorem exists_cycle (hne : pending ≠ []) (hself : ∀ move ∈ pending, move.dst ≠ move.src)
    (h : ∀ move ∈ pending, isSafe pending move = false) : ∃ cycle ⊆ pending, IsCycle cycle := by
  have hread : ∀ move ∈ pending, ∃ reader ∈ pending, reader.src = move.dst := by
    intro move hmove
    have hsrc : move.dst ∈ pending.map src := by
      by_contra hnot
      exact Bool.noConfusion ((h move hmove).symm.trans (isSafe_iff.mpr hnot))
    exact List.mem_map.mp hsrc
  choose! reader hreader hsrc using hread
  obtain ⟨first, hfirst⟩ := List.exists_mem_of_ne_nil pending hne
  obtain ⟨start, hstart, hperiodic⟩ := exists_mem_periodicPts hreader hfirst
  have hwalk : ∀ count, reader^[count] start ∈ pending := fun count =>
    Set.MapsTo.iterate hreader count hstart
  -- the moves from the start until the walk is back there
  have hpositive := Function.minimalPeriod_pos_of_mem_periodicPts hperiodic
  refine ⟨(List.range (Function.minimalPeriod reader start)).map fun count =>
    reader^[count] start, ?_, ?_, ?_, ?_⟩
  · intro move hmove
    obtain ⟨count, _, rfl⟩ := List.mem_map.mp hmove
    exact hwalk count
  · -- a move that reads its own destination would be a move from a register to itself
    have hone : Function.minimalPeriod reader start ≠ 1 := by
      intro hone
      have hfixed : reader start = start := Function.minimalPeriod_eq_one_iff_isFixedPt.mp hone
      have hread := hsrc start hstart
      rw [hfixed] at hread
      exact hself start hstart hread.symm
    rw [List.length_map, List.length_range]
    omega
  · refine List.Nodup.map_on (fun left hleft right hright heq => ?_) List.nodup_range
    exact Function.iterate_injOn_Iio_minimalPeriod (List.mem_range.mp hleft)
      (List.mem_range.mp hright) heq
  · apply List.ext_getElem (by simp)
    intro index _ _
    rw [List.getElem_rotate]
    simp only [List.getElem_map, List.getElem_range, List.length_map, List.length_range]
    rw [Function.iterate_mod_minimalPeriod_eq, Function.iterate_succ_apply']
    exact (hsrc _ (hwalk index)).symm

namespace IsCycle

theorem ne_nil (h : IsCycle cycle) : cycle ≠ [] := by
  rintro rfl
  exact absurd h.long (by simp)

/-- No move of a cycle is safe: the one after it still reads what it writes. -/
theorem not_safe (h : IsCycle cycle) (hsubset : cycle ⊆ pending) {move : Move}
    (hmove : move ∈ cycle) : isSafe pending move = false := by
  by_contra hsafe
  have hdst : move.dst ∈ (cycle.map src).rotate 1 := h.passes ▸ List.mem_map_of_mem hmove
  obtain ⟨reader, hreader, hread⟩ := List.mem_map.mp (List.mem_rotate.mp hdst)
  refine isSafe_iff.mp (Bool.not_eq_false _ ▸ hsafe) ?_
  exact List.mem_map.mpr ⟨reader, hsubset hreader, hread⟩

/-- What a move of a cycle reads, another one writes. -/
theorem exists_writer (h : IsCycle cycle) {move : Move} (hmove : move ∈ cycle) :
    ∃ writer ∈ cycle, writer ≠ move ∧ writer.dst = move.src := by
  obtain ⟨index, hindex, rfl⟩ := List.mem_iff_getElem.mp hmove
  have hlong := h.long
  -- the move before it, round the end
  obtain ⟨before, hbefore, hafter⟩ : ∃ before < cycle.length,
      (before + 1) % cycle.length = index := by
    cases index with
    | zero =>
        refine ⟨cycle.length - 1, by omega, ?_⟩
        rw [Nat.sub_add_cancel (by omega), Nat.mod_self]
    | succ index => exact ⟨index, by omega, Nat.mod_eq_of_lt hindex⟩
  refine ⟨cycle[before], List.getElem_mem hbefore, ?_, ?_⟩
  · intro heq
    rw [h.nodup.getElem_inj_iff.mp heq] at hafter
    rcases Nat.lt_or_ge (index + 1) cycle.length with hlt | hge
    · rw [Nat.mod_eq_of_lt hlt] at hafter
      omega
    · rw [show index + 1 = cycle.length by omega, Nat.mod_self] at hafter
      omega
  · have hread := congrArg (·[before]?) h.passes
    rw [List.getElem?_rotate (by simpa using hbefore)] at hread
    simpa [hafter, hbefore, hindex] using hread

/-- Where destinations differ, a cycle has no move from a register to itself. -/
theorem dst_ne_src (h : IsCycle cycle) (hsubset : cycle ⊆ moves) (hnodup : (moves.map dst).Nodup)
    {move : Move} (hmove : move ∈ cycle) : move.dst ≠ move.src := by
  intro hself
  obtain ⟨writer, hwriter, hne, hwrite⟩ := h.exists_writer hmove
  apply hne
  exact List.inj_on_of_nodup_map hnodup (hsubset hwriter) (hsubset hmove) (hwrite.trans hself.symm)

end IsCycle

/-- The scratch register is used for a cycle alone. -/
theorem Sequenced.exists_cycle {found : List Move} (h : Sequenced scratch pending found)
    (hself : ∀ move ∈ pending, move.dst ≠ move.src)
    (hscratch : ∀ move ∈ pending, ¬move.Mentions scratch)
    (hmentions : ∃ move ∈ found, move.Mentions scratch) : ∃ cycle ⊆ pending, IsCycle cycle := by
  induction h with
  | nil => simp at hmentions
  | @safe pending later safe hsafe _ _ ih =>
      have hsubset : pending.erase safe ⊆ pending := List.erase_subset
      obtain ⟨move, hmove, hmention⟩ := hmentions
      rcases List.mem_cons.mp hmove with rfl | hmove
      · exact absurd hmention (hscratch move hsafe)
      · obtain ⟨cycle, hcycle, h⟩ := ih (fun move hmove => hself move (hsubset hmove))
          (fun move hmove => hscratch move (hsubset hmove)) ⟨move, hmove, hmention⟩
        exact ⟨cycle, fun move hmove => hsubset (hcycle hmove), h⟩
  | park hnone _ _ => exact Move.exists_cycle (List.cons_ne_nil _ _) hself hnone

/-- A cycle is not carried out without the scratch register. -/
theorem Sequenced.exists_dst_eq_scratch {found : List Move} (h : Sequenced scratch pending found)
    (hcycle : IsCycle cycle) (hsubset : cycle ⊆ pending) : ∃ move ∈ found, move.dst = scratch := by
  induction h with
  | nil => exact absurd (List.eq_nil_of_subset_nil hsubset) hcycle.ne_nil
  | @safe pending later safe _ hsafe _ ih =>
      -- the cycle is still pending, as no move of it is safe
      have hrest : cycle ⊆ pending.erase safe := by
        intro move hmove
        apply (List.mem_erase_of_ne _).mpr (hsubset hmove)
        rintro rfl
        exact Bool.noConfusion ((hcycle.not_safe hsubset hmove).symm.trans hsafe)
      obtain ⟨move, hmove, hdst⟩ := ih hrest
      exact ⟨move, List.mem_cons_of_mem _ hmove, hdst⟩
  | park => exact ⟨_, List.mem_cons_self, rfl⟩

/-- The scratch register is used if, and only if, some of the moves form a cycle. -/
theorem mentions_scratch_iff (hnodup : (moves.map dst).Nodup)
    (hscratch : ∀ move ∈ moves, ¬move.Mentions scratch) :
    (∃ move ∈ resolve moves scratch, move.Mentions scratch) ↔ ∃ cycle ⊆ moves, IsCycle cycle := by
  have hsequenced := Apart.sequenced_resolve (.inl (not_mem_map_dst hscratch))
  constructor
  · intro hmentions
    obtain ⟨cycle, hsubset, hcycle⟩ := hsequenced.exists_cycle
      (fun move hmove => by simpa using (List.mem_filter.mp hmove).2)
      (fun move hmove => hscratch move (List.mem_filter.mp hmove).1) hmentions
    exact ⟨cycle, fun move hmove => (List.mem_filter.mp (hsubset hmove)).1, hcycle⟩
  · rintro ⟨cycle, hsubset, hcycle⟩
    have hpending : cycle ⊆ moves.filter fun move => move.dst ≠ move.src := by
      intro move hmove
      apply List.mem_filter.mpr ⟨hsubset hmove, _⟩
      simpa using hcycle.dst_ne_src hsubset hnodup hmove
    obtain ⟨move, hmove, heq⟩ := hsequenced.exists_dst_eq_scratch hcycle hpending
    exact ⟨move, hmove, .inl heq⟩

end Cycles

/-- Moves with different destinations, none of which is about the scratch register, are put in an
order within two rounds for each of them. Carried out in that order, whatever registers hold, they
bring to every destination what its source held at first, and leave the other registers but the
scratch register as they are. The scratch register is read or written only if some of the moves
form a cycle, and then it is. -/
theorem resolve_carries_out {moves : List Move} {scratch : Register}
    (hnodup : (moves.map dst).Nodup) (hscratch : ∀ move ∈ moves, ¬move.Mentions scratch) :
    (∀ rounds, 2 * moves.length ≤ rounds →
      sequence? scratch rounds (moves.filter fun move => move.dst ≠ move.src) =
        some (resolve moves scratch)) ∧
    (∀ {α : Type} (contents : Register → α),
      (∀ move ∈ moves,
        performAll (resolve moves scratch) contents move.dst = contents move.src) ∧
      ∀ register, register ∉ moves.map dst → register ≠ scratch →
        performAll (resolve moves scratch) contents register = contents register) ∧
    ((∃ move ∈ resolve moves scratch, move.Mentions scratch) ↔
      ∃ cycle ⊆ moves, IsCycle cycle) := by
  have hdst := not_mem_map_dst hscratch
  refine ⟨fun rounds => Apart.sequence?_eq (.inl hdst), fun contents => ⟨?_, ?_⟩,
    mentions_scratch_iff hnodup hscratch⟩
  · intro move hmove
    have hne : move.dst ≠ scratch := fun heq => hscratch move hmove (.inl heq)
    rw [performAll_resolve hnodup hdst hne, together_of_mem hnodup hmove]
  · intro register hregister hne
    rw [performAll_resolve hnodup hdst hne, together_of_not_mem hregister]

/-- Three registers that are passed round, one of which is copied besides, and a register that is
moved to itself. -/
def rotationWithCopy : List Move :=
  [⟨.rdi, .rsi⟩, ⟨.rsi, .rdx⟩, ⟨.rdx, .rdi⟩, ⟨.rcx, .rdi⟩, ⟨.r8, .r8⟩]

/-- The copy is made first, and then the rotation goes through the scratch register. -/
theorem resolve_carries_out_rotation :
    resolve rotationWithCopy .r10 =
      [⟨.rcx, .rdi⟩, ⟨.r10, .rsi⟩, ⟨.rsi, .rdx⟩, ⟨.rdx, .rdi⟩, ⟨.rdi, .r10⟩] ∧
    sequence? .r10 10 (rotationWithCopy.filter fun move => move.dst ≠ move.src) =
      some (resolve rotationWithCopy .r10) ∧
    performAll (resolve rotationWithCopy .r10) Register.index .rdi = Register.index .rsi ∧
    performAll (resolve rotationWithCopy .r10) Register.index .rax = Register.index .rax ∧
    ∃ cycle ⊆ rotationWithCopy, IsCycle cycle := by
  have hnodup : (rotationWithCopy.map dst).Nodup := by decide
  have hscratch : ∀ move ∈ rotationWithCopy, ¬move.Mentions .r10 := by decide
  obtain ⟨hfound, heffect, hcycle⟩ := resolve_carries_out hnodup hscratch
  have hresolve : resolve rotationWithCopy .r10 =
      [⟨.rcx, .rdi⟩, ⟨.r10, .rsi⟩, ⟨.rsi, .rdx⟩, ⟨.rdx, .rdi⟩, ⟨.rdi, .r10⟩] := by decide
  obtain ⟨hmoved, hkept⟩ := heffect Register.index
  refine ⟨hresolve, hfound 10 (by decide), hmoved ⟨.rdi, .rsi⟩ (by decide),
    hkept .rax (by decide) (by decide), hcycle.mp (by decide)⟩

/-- Without a cycle the scratch register is left alone. -/
example : resolve [⟨.rsi, .rdi⟩, ⟨.rdx, .rsi⟩, ⟨.rcx, .rdx⟩] .r10 =
    [⟨.rcx, .rdx⟩, ⟨.rdx, .rsi⟩, ⟨.rsi, .rdi⟩] := by decide

end ThreeAddress.Move
