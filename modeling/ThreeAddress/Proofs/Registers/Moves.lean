import Mathlib.Data.List.Nodup
import Mathlib.Data.List.Perm.Subperm
import ThreeAddress.Proofs.Registers.Rounds

/-!
# Simultaneous moves are carried out correctly

The sequence of moves that is found has the effect of all pending moves at once,
apart from the scratch register. Where no move is safe the pending moves permute
registers, so that none of them reads the scratch register, and it can hold what the
first of them reads.
-/

namespace ThreeAddress.Move

section Semantics

variable {α : Type}

/-- What registers hold after a move. -/
def perform (contents : Register → α) (move : Move) : Register → α :=
  fun register => if register = move.dst then contents move.src else contents register

/-- What registers hold after moves in order. -/
def performAll (moves : List Move) (contents : Register → α) : Register → α :=
  moves.foldl perform contents

/-- What registers hold after moves that happen at once. -/
def together : List Move → (Register → α) → Register → α
  | [], contents, register => contents register
  | move :: rest, contents, register =>
      if register = move.dst then contents move.src else together rest contents register

theorem perform_dst (contents : Register → α) (move : Move) :
    perform contents move move.dst = contents move.src := by
  simp [perform]

theorem perform_of_ne {contents : Register → α} {move : Move} {register : Register}
    (h : register ≠ move.dst) : perform contents move register = contents register := by
  simp [perform, h]

theorem together_of_mem {moves : List Move} {move : Move} {contents : Register → α}
    (hnodup : (moves.map dst).Nodup) (hmem : move ∈ moves) :
    together moves contents move.dst = contents move.src := by
  induction moves with
  | nil => simp at hmem
  | cons first rest ih =>
      obtain ⟨hfirst, hrest⟩ := List.nodup_cons.mp hnodup
      unfold together
      rcases List.mem_cons.mp hmem with rfl | hmem
      · rw [if_pos rfl]
      · have hne : move.dst ≠ first.dst :=
          fun heq => hfirst (heq ▸ List.mem_map_of_mem hmem)
        rw [if_neg hne, ih hrest hmem]

theorem together_of_not_mem {moves : List Move} {register : Register} {contents : Register → α}
    (h : register ∉ moves.map dst) : together moves contents register = contents register := by
  induction moves with
  | nil => rfl
  | cons first rest ih =>
      rw [List.map_cons, List.mem_cons, not_or] at h
      rw [together, if_neg h.1, ih h.2]

/-- The order of simultaneous moves and what they do to other registers do not matter. -/
theorem together_eq {left right : List Move} {contents contents' : Register → α}
    {register : Register} (hleft : (left.map dst).Nodup) (hright : (right.map dst).Nodup)
    (hdst : register ∈ left.map dst ↔ register ∈ right.map dst)
    (hmem : ∀ move ∈ left, ∀ move' ∈ right, move.dst = register → move'.dst = register →
      contents move.src = contents' move'.src)
    (hnot : register ∉ left.map dst → contents register = contents' register) :
    together left contents register = together right contents' register := by
  by_cases h : register ∈ left.map dst
  · obtain ⟨move, hmove, rfl⟩ := List.mem_map.mp h
    obtain ⟨move', hmove', heq⟩ := List.mem_map.mp (hdst.mp h)
    have hsrc := hmem move hmove move' hmove' rfl heq
    have hright' : together right contents' move'.dst = contents' move'.src :=
      together_of_mem hright hmove'
    rw [together_of_mem hleft hmove, ← heq, hright', hsrc]
  · rw [together_of_not_mem h, together_of_not_mem (mt hdst.mpr h), hnot h]

end Semantics

section Sequence

variable {pending found moves : List Move} {scratch : Register}

/-- Where no move is safe, the pending moves permute registers. -/
theorem perm_of_not_safe (hnodup : (pending.map dst).Nodup)
    (h : ∀ move ∈ pending, isSafe pending move = false) :
    (pending.map dst).Perm (pending.map src) := by
  have hsubset : pending.map dst ⊆ pending.map src := by
    intro register hregister
    obtain ⟨move, hmove, rfl⟩ := List.mem_map.mp hregister
    by_contra hnot
    exact absurd (isSafe_iff.mpr hnot) (by simp [h move hmove])
  exact (List.subperm_of_subset hnodup hsubset).perm_of_length_le (by simp)

theorem nodup_erase {move : Move} (hnodup : (pending.map dst).Nodup) :
    ((pending.erase move).map dst).Nodup :=
  hnodup.sublist (List.erase_sublist.map dst)

/-- A safe move may be carried out before the others. -/
theorem together_erase {α : Type} {move : Move} {contents : Register → α}
    (hnodup : (pending.map dst).Nodup) (hmove : move ∈ pending)
    (hsafe : isSafe pending move = true) (register : Register) :
    together (pending.erase move) (perform contents move) register =
      together pending contents register := by
  -- Nothing that is pending reads what a safe move overwrites.
  have hsrc : ∀ other ∈ pending, other.src ≠ move.dst := by
    intro other hother heq
    exact isSafe_iff.mp hsafe (heq ▸ List.mem_map_of_mem hother)
  have hperm := (List.perm_cons_erase hmove).map dst
  by_cases hregister : register = move.dst
  · subst hregister
    have hnot : move.dst ∉ (pending.erase move).map dst :=
      (List.nodup_cons.mp (hperm.nodup_iff.mp hnodup)).1
    rw [together_of_not_mem hnot, perform_dst, together_of_mem hnodup hmove]
  · refine together_eq (nodup_erase hnodup) hnodup ?_ ?_ fun _ => perform_of_ne hregister
    · rw [hperm.mem_iff, List.map_cons, List.mem_cons, or_iff_right hregister]
    · intro left hleft right hright hdst hdst'
      have hleft' := List.mem_of_mem_erase hleft
      have heq : left = right :=
        List.inj_on_of_nodup_map hnodup hleft' hright (hdst.trans hdst'.symm)
      rw [heq, perform_of_ne (hsrc right hright)]

/-- Where no move is safe, the first one may be parked. -/
theorem together_parked {α : Type} {first : Move} {rest : List Move} {contents : Register → α}
    (hscratch : scratch ∉ (first :: rest).map dst)
    (hnodup : ((first :: rest).map dst).Nodup)
    (h : ∀ move ∈ first :: rest, isSafe (first :: rest) move = false) {register : Register}
    (hregister : register ≠ scratch) :
    together (parked scratch first rest) (perform contents ⟨scratch, first.src⟩) register =
      together (first :: rest) contents register := by
  have hperm := map_dst_parked scratch first rest
  refine together_eq (hperm.nodup_iff.mpr hnodup) hnodup hperm.mem_iff ?_ fun _ =>
    perform_of_ne hregister
  intro left hleft right hright hdst hdst'
  -- Only the move that was parked reads the scratch register, which has the right contents.
  rcases List.mem_append.mp hleft with hrest | hparked
  · have heq : left = right :=
      List.inj_on_of_nodup_map hnodup (List.mem_cons_of_mem _ hrest) hright
        (hdst.trans hdst'.symm)
    have hsrc : right.src ∈ (first :: rest).map dst :=
      (perm_of_not_safe hnodup h).mem_iff.mpr (List.mem_map_of_mem hright)
    have hne : right.src ≠ scratch := fun hsource => hscratch (hsource ▸ hsrc)
    rw [heq, perform_of_ne hne]
  · obtain rfl := List.mem_singleton.mp hparked
    have heq : right = first :=
      List.inj_on_of_nodup_map hnodup hright List.mem_cons_self (hdst'.trans hdst.symm)
    rw [heq]
    exact perform_dst contents ⟨scratch, first.src⟩

/-- How a sequence of moves comes about: a safe move is next, or where there is none the first move
is parked. -/
inductive Sequenced (scratch : Register) : List Move → List Move → Prop
  | nil : Sequenced scratch [] []
  | safe {pending later : List Move} {move : Move} (hmove : move ∈ pending)
      (hsafe : isSafe pending move = true)
      (hlater : Sequenced scratch (pending.erase move) later) :
      Sequenced scratch pending (move :: later)
  | park {first : Move} {rest later : List Move}
      (hnone : ∀ move ∈ first :: rest, isSafe (first :: rest) move = false)
      (hlater : Sequenced scratch (parked scratch first rest) later) :
      Sequenced scratch (first :: rest) (⟨scratch, first.src⟩ :: later)

theorem sequenced_of_sequence? {rounds : Nat}
    (hfound : sequence? scratch rounds pending = some found) :
    Sequenced scratch pending found := by
  induction rounds generalizing pending found with
  | zero =>
      cases pending with
      | nil =>
          obtain rfl := Option.some.inj hfound
          exact .nil
      | cons => cases hfound
  | succ rounds ih =>
      cases pending with
      | nil =>
          obtain rfl := Option.some.inj hfound
          exact .nil
      | cons first rest =>
          rcases next?_cases scratch first rest with ⟨move, hmove, hsafe, hnext⟩ | ⟨hnone, hnext⟩
          · rw [sequence?, hnext] at hfound
            obtain ⟨later, hlater, rfl⟩ := Option.map_eq_some_iff.mp hfound
            exact .safe hmove hsafe (ih hlater)
          · rw [sequence?, hnext] at hfound
            obtain ⟨later, hlater, rfl⟩ := Option.map_eq_some_iff.mp hfound
            exact .park hnone (ih hlater)

/-- Such a sequence has the effect of all pending moves at once, apart from the scratch register. -/
theorem Sequenced.performAll_eq {α : Type} (h : Sequenced scratch pending found)
    (hnodup : (pending.map dst).Nodup) (hscratch : scratch ∉ pending.map dst)
    (contents : Register → α) {register : Register} (hregister : register ≠ scratch) :
    performAll found contents register = together pending contents register := by
  induction h generalizing contents with
  | nil => rfl
  | @safe pending later move hmove hsafe _ ih =>
      have hsublist := (List.erase_sublist (a := move) (l := pending)).map dst
      rw [← together_erase hnodup hmove hsafe register]
      exact ih (nodup_erase hnodup) (fun hmem => hscratch (hsublist.subset hmem)) _
  | @park first rest later hnone _ ih =>
      have hperm := map_dst_parked scratch first rest
      rw [← together_parked hscratch hnodup hnone hregister]
      exact ih (hperm.nodup_iff.mpr hnodup) (mt hperm.mem_iff.mp hscratch) _

/-- The moves that are found are such a sequence. -/
theorem Apart.sequenced_resolve (h : Apart scratch moves) :
    Sequenced scratch (moves.filter fun move => move.dst ≠ move.src) (resolve moves scratch) :=
  sequenced_of_sequence? (h.sequence?_eq (Nat.le_refl _))

/-- Carried out in order, the moves that are found bring each source to its destination, and leave
other registers than the destinations and the scratch register as they are. -/
theorem performAll_resolve {α : Type} {contents : Register → α}
    (hnodup : (moves.map dst).Nodup) (hscratch : scratch ∉ moves.map dst) {register : Register}
    (hregister : register ≠ scratch) :
    performAll (resolve moves scratch) contents register = together moves contents register := by
  have hsublist := (List.filter_sublist (p := fun move : Move => move.dst ≠ move.src)
    (l := moves)).map dst
  have hsequenced := Apart.sequenced_resolve (.inl hscratch)
  rw [hsequenced.performAll_eq (hnodup.sublist hsublist)
    (fun hmem => hscratch (hsublist.subset hmem)) contents hregister]
  -- a move from a register to itself does nothing
  by_cases hmem : register ∈ (moves.filter fun move => move.dst ≠ move.src).map dst
  · obtain ⟨move, hmove, rfl⟩ := List.mem_map.mp hmem
    rw [together_of_mem (hnodup.sublist hsublist) hmove,
      together_of_mem hnodup (List.mem_filter.mp hmove).1]
  · rw [together_of_not_mem hmem]
    by_cases hmem' : register ∈ moves.map dst
    · obtain ⟨move, hmove, rfl⟩ := List.mem_map.mp hmem'
      have hself : move.dst = move.src := by
        by_contra hne
        exact hmem (List.mem_map_of_mem (List.mem_filter.mpr ⟨hmove, by simpa using hne⟩))
      rw [together_of_mem hnodup hmove, hself]
    · rw [together_of_not_mem hmem']

/-- A sequence of moves writes the destinations of the pending ones and the scratch register. -/
theorem Sequenced.dst_of_mem (h : Sequenced scratch pending found) {move : Move}
    (hmove : move ∈ found) :
    move.dst = scratch ∨ move.dst ∈ pending.map dst := by
  induction h with
  | nil => cases hmove
  | safe hsafe _ _ ih =>
      rcases List.mem_cons.mp hmove with rfl | hmove
      · exact .inr (List.mem_map_of_mem hsafe)
      · exact (ih hmove).imp_right fun hmem => (List.erase_sublist.map dst).subset hmem
  | @park first rest later _ _ ih =>
      rcases List.mem_cons.mp hmove with rfl | hmove
      · exact .inl rfl
      · exact (ih hmove).imp_right fun hmem =>
          (map_dst_parked scratch first rest).mem_iff.mp hmem

theorem dst_of_mem_resolve {move : Move} (hmove : move ∈ resolve moves scratch) :
    move.dst = scratch ∨ move.dst ∈ moves.map dst := by
  cases hfound : sequence? scratch
      (maxMoves (moves.filter fun move => move.dst ≠ move.src).length)
      (moves.filter fun move => move.dst ≠ move.src) with
  | none =>
      rw [resolve, hfound] at hmove
      cases hmove
  | some found =>
      rw [resolve, hfound] at hmove
      exact ((sequenced_of_sequence? hfound).dst_of_mem hmove).imp_right fun hmem =>
        (List.filter_sublist.map dst).subset hmem

end Sequence

end ThreeAddress.Move
