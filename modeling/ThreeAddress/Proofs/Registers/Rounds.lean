import Mathlib.Tactic.Linarith
import ThreeAddress.Registers.Moves

/-!
# Putting moves in order ends

Each round carries out a move or parks one, which makes it read the scratch register
and puts it behind all others. No move is parked twice: when the first one that was
parked comes up again, all pending moves read the scratch register, and they are safe.
So no move takes more than two rounds, even if several moves have one destination.
-/

namespace ThreeAddress.Move

variable {pending fewer found fresh waiting moves : List Move} {move : Move} {scratch : Register}

/-! ## Rounds -/

theorem isSafe_iff {move : Move} :
    isSafe pending move = true ↔ move.dst ∉ pending.map src := by
  simp only [isSafe, List.all_eq_true, decide_eq_true_iff, List.mem_map, not_exists, not_and]

/-- The moves that are pending after the first one of a cycle has been parked. -/
def parked (scratch : Register) (first : Move) (rest : List Move) : List Move :=
  rest ++ [⟨first.dst, scratch⟩]

theorem map_dst_parked (scratch : Register) (first : Move) (rest : List Move) :
    ((parked scratch first rest).map dst).Perm ((first :: rest).map dst) := by
  simp [parked]

/-- The next move is a pending one that is safe, or parks the first one. -/
theorem next?_cases (scratch : Register) (first : Move) (rest : List Move) :
    (∃ move ∈ first :: rest, isSafe (first :: rest) move = true ∧
        next? scratch (first :: rest) = some (move, (first :: rest).erase move)) ∨
      ((∀ move ∈ first :: rest, isSafe (first :: rest) move = false) ∧
        next? scratch (first :: rest) =
          some (⟨scratch, first.src⟩, parked scratch first rest)) := by
  cases hfind : (first :: rest).find? (isSafe (first :: rest)) with
  | some move =>
      have hmove := List.mem_of_find?_eq_some hfind
      exact .inl ⟨move, hmove, List.find?_some hfind, by rw [next?, hfind]⟩
  | none =>
      refine .inr ⟨fun move hmove => ?_, by rw [next?, hfind]; rfl⟩
      simpa using List.find?_eq_none.mp hfind move hmove

/-- Putting the pending moves in order ends with the moves that are found, after one round for each
of these and not before. -/
def Yields (scratch : Register) (pending found : List Move) : Prop :=
  ∀ rounds, sequence? scratch rounds pending =
    if found.length ≤ rounds then some found else none

theorem Yields.nil : Yields scratch [] [] := by
  intro rounds
  cases rounds <;> simp [sequence?]

theorem Yields.cons (h : Yields scratch fewer found)
    (hnext : next? scratch pending = some (move, fewer)) :
    Yields scratch pending (move :: found) := by
  intro rounds
  cases pending with
  | nil => cases hnext
  | cons first rest =>
      cases rounds with
      | zero => simp [sequence?]
      | succ rounds =>
          simp only [sequence?, hnext, h rounds, List.length_cons, Nat.add_le_add_iff_right]
          split <;> rfl

/-! ## Turns -/

/-- Nothing reads the scratch register or nothing writes it. -/
def Apart (scratch : Register) (pending : List Move) : Prop :=
  scratch ∉ pending.map dst ∨ scratch ∉ pending.map src

theorem Apart.of_subset (h : Apart scratch pending) (hsubset : fewer ⊆ pending) :
    Apart scratch fewer :=
  h.imp (mt fun hmem => List.map_subset dst hsubset hmem)
    (mt fun hmem => List.map_subset src hsubset hmem)

/-- Where no move is safe, all destinations are read, and none is the scratch register. -/
theorem Apart.not_mem_dst (h : Apart scratch pending)
    (hnone : ∀ move ∈ pending, isSafe pending move = false) : scratch ∉ pending.map dst := by
  rcases h with hdst | hsrc
  · exact hdst
  · intro hmem
    obtain ⟨move, hmove, rfl⟩ := List.mem_map.mp hmem
    have hsafe := isSafe_iff.mpr hsrc
    exact absurd hsafe (by simp [hnone move hmove])

/-- The pending moves are those that have had no turn yet, and behind them those that have been
parked. -/
structure Turns (scratch : Register) (fresh waiting : List Move) : Prop where
  reads : ∀ move ∈ waiting, move.src = scratch
  apart : Apart scratch (fresh ++ waiting)

namespace Turns

/-- Moves that have all been parked are safe. -/
theorem isSafe (h : Turns scratch [] waiting) (hdst : scratch ∉ waiting.map dst)
    (hmove : move ∈ waiting) : isSafe waiting move = true := by
  apply isSafe_iff.mpr
  intro hmem
  obtain ⟨reader, hreader, hsrc⟩ := List.mem_map.mp hmem
  have heq : move.dst = scratch := hsrc.symm.trans (h.reads reader hreader)
  exact hdst (heq ▸ List.mem_map_of_mem hmove)

/-- Where a move has been carried out, fewer are left of one kind or the other. -/
theorem erase (h : Turns scratch fresh waiting) (hmove : move ∈ fresh ++ waiting) :
    ∃ fresh' waiting', (fresh ++ waiting).erase move = fresh' ++ waiting' ∧
      Turns scratch fresh' waiting' ∧
      2 * fresh'.length + waiting'.length < 2 * fresh.length + waiting.length := by
  have happart := h.apart.of_subset (List.erase_subset (a := move))
  by_cases hfresh : move ∈ fresh
  · rw [List.erase_append_left waiting hfresh] at happart ⊢
    have hlength := List.length_erase_of_mem hfresh
    have hpos := List.length_pos_of_mem hfresh
    exact ⟨fresh.erase move, waiting, rfl, ⟨h.reads, happart⟩, by omega⟩
  · have hwaiting := (List.mem_append.mp hmove).resolve_left hfresh
    rw [List.erase_append_right waiting hfresh] at happart ⊢
    have hlength := List.length_erase_of_mem hwaiting
    have hpos := List.length_pos_of_mem hwaiting
    refine ⟨fresh, waiting.erase move, rfl, ⟨?_, happart⟩, by omega⟩
    exact fun other hother => h.reads other (List.mem_of_mem_erase hother)

/-- Where the first move has been parked, it has had its turn. -/
theorem park {first : Move} (h : Turns scratch (first :: fresh) waiting)
    (hdst : scratch ∉ (first :: fresh ++ waiting).map dst) :
    Turns scratch fresh (waiting ++ [⟨first.dst, scratch⟩]) := by
  constructor
  · intro move hmove
    rcases List.mem_append.mp hmove with hwaiting | hparked
    · exact h.reads move hwaiting
    · rw [List.mem_singleton.mp hparked]
  · have hperm := map_dst_parked scratch first (fresh ++ waiting)
    rw [← List.append_assoc]
    exact .inl (mt hperm.mem_iff.mp hdst)

/-- A round ends the turn of a move or carries it out. -/
theorem exists_next (h : Turns scratch fresh waiting) (hne : fresh ++ waiting ≠ []) :
    ∃ move fresh' waiting', next? scratch (fresh ++ waiting) = some (move, fresh' ++ waiting') ∧
      Turns scratch fresh' waiting' ∧
      2 * fresh'.length + waiting'.length < 2 * fresh.length + waiting.length := by
  obtain ⟨first, rest, hpending⟩ := List.exists_cons_of_ne_nil hne
  rcases next?_cases scratch first rest with ⟨move, hmove, _, hnext⟩ | ⟨hnone, hnext⟩
  · rw [← hpending] at hmove hnext
    obtain ⟨fresh', waiting', herase, hturns, hlt⟩ := h.erase hmove
    exact ⟨move, fresh', waiting', herase ▸ hnext, hturns, hlt⟩
  · rw [← hpending] at hnone
    have hdst := h.apart.not_mem_dst hnone
    cases fresh with
    | nil =>
        -- the first move would be safe
        rw [List.nil_append] at hpending hnone hdst
        have hmove : first ∈ waiting := hpending ▸ List.mem_cons_self
        exact absurd (h.isSafe hdst hmove) (by simp [hnone first hmove])
    | cons head tail =>
        obtain ⟨rfl, rfl⟩ := List.cons.inj hpending
        refine ⟨⟨scratch, head.src⟩, tail, waiting ++ [⟨head.dst, scratch⟩], ?_, h.park hdst, ?_⟩
        · rw [← List.append_assoc]
          exact hnext
        · simp only [List.length_append, List.length_cons, List.length_nil]
          omega

/-- Two rounds for each move that has had no turn, and one for each other move, are enough. -/
theorem exists_yields (h : Turns scratch fresh waiting) :
    ∃ found, Yields scratch (fresh ++ waiting) found ∧
      found.length ≤ 2 * fresh.length + waiting.length := by
  -- Parking a move does not make the list shorter, but the move has had its turn.
  induction hcount : 2 * fresh.length + waiting.length using Nat.strong_induction_on
    generalizing fresh waiting with
  | _ count ih =>
      by_cases hne : fresh ++ waiting = []
      · rw [hne]
        exact ⟨[], .nil, Nat.zero_le _⟩
      · obtain ⟨move, fresh', waiting', hnext, hturns, hlt⟩ := h.exists_next hne
        obtain ⟨found, hyields, hlength⟩ := ih _ (hcount ▸ hlt) hturns rfl
        refine ⟨move :: found, hyields.cons hnext, ?_⟩
        rw [List.length_cons]
        omega

end Turns

/-! ## The order that is found -/

theorem two_mul_le_maxMoves (count : Nat) : 2 * count ≤ maxMoves count := by
  have hsquare : 2 * count ≤ (count + 1) * (count + 1) := by nlinarith
  exact hsquare.trans (Nat.le_mul_of_pos_right _ (Nat.succ_pos count))

/-- The bound on the number of moves is never reached. -/
theorem Apart.yields_resolve (h : Apart scratch moves) :
    Yields scratch (moves.filter fun move => move.dst ≠ move.src) (resolve moves scratch) ∧
      (resolve moves scratch).length ≤ 2 * moves.length := by
  generalize hpending : (moves.filter fun move => move.dst ≠ move.src) = pending
  have hsublist : pending.Sublist moves := hpending ▸ List.filter_sublist
  have hturns : Turns scratch pending [] := by
    refine ⟨by simp, ?_⟩
    rw [List.append_nil]
    exact h.of_subset hsublist.subset
  obtain ⟨found, hyields, hlength⟩ := hturns.exists_yields
  rw [List.append_nil] at hyields
  have hlength' : found.length ≤ 2 * pending.length := hlength
  have hresolve : resolve moves scratch = found := by
    rw [resolve, hpending, hyields, if_pos (hlength'.trans (two_mul_le_maxMoves _)),
      Option.getD_some]
  rw [hresolve]
  have hle := hsublist.length_le
  exact ⟨hyields, by omega⟩

/-- Two rounds for each move are enough. -/
theorem Apart.sequence?_eq {rounds : Nat} (h : Apart scratch moves)
    (hrounds : 2 * moves.length ≤ rounds) :
    sequence? scratch rounds (moves.filter fun move => move.dst ≠ move.src) =
      some (resolve moves scratch) := by
  obtain ⟨hyields, hlength⟩ := h.yields_resolve
  rw [hyields, if_pos (hlength.trans hrounds)]

/-- A scratch register that is exchanged with another register is overwritten before it is read, and
after that it is moved to itself for ever. -/
theorem sequence?_exchange {other : Register} (hne : other ≠ scratch) (rounds : Nat) :
    sequence? scratch rounds [⟨scratch, other⟩, ⟨other, scratch⟩] = none := by
  have hself : ∀ rounds, sequence? scratch rounds [⟨scratch, scratch⟩] = none := by
    intro rounds
    induction rounds with
    | zero => rfl
    | succ rounds ih => simp [sequence?, next?, Move.isSafe, ih]
  match rounds with
  | 0 => rfl
  | 1 => simp [sequence?, next?, Move.isSafe, hne, hne.symm]
  | rounds + 2 => simp [sequence?, next?, Move.isSafe, hne, hne.symm, hself rounds]

end ThreeAddress.Move
