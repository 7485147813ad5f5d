import ThreeAddress.Registers.Register

/-!
# Simultaneous moves

A set of moves that happen at once is carried out one after the other. A move is
safe to carry out once no other one still has to read its destination. When no
move is safe, only cycles are left, and one source is parked in a scratch
register.
-/

namespace ThreeAddress

structure Move where
  dst : Register
  src : Register
deriving DecidableEq, Repr, Inhabited

namespace Move

/-- No pending move reads the destination of a safe one. -/
def isSafe (pending : List Move) (move : Move) : Bool :=
  pending.all (·.src ≠ move.dst)

/-- The next move to carry out, and the moves that are pending after it. -/
def next? (scratch : Register) : List Move → Option (Move × List Move)
  | [] => none
  | first :: rest =>
      match (first :: rest).find? (isSafe (first :: rest)) with
      | some move => some (move, (first :: rest).erase move)
      | none => some (⟨scratch, first.src⟩, rest ++ [⟨first.dst, scratch⟩])

/-- Carries out all pending moves, unless that takes more than the given number of moves. -/
def sequence? (scratch : Register) : Nat → List Move → Option (List Move)
  | _, [] => some []
  | 0, _ :: _ => none
  | rounds + 1, pending@(_ :: _) =>
      match next? scratch pending with
      | none => some []
      | some (move, rest) => (sequence? scratch rounds rest).map (move :: ·)

/-- Enough moves for `count` pending ones: each of them is parked at most once and carried out
once. -/
def maxMoves (count : Nat) : Nat := (count + 1) * (count + 1) * (count + 1)

/-- A sequence of moves with the effect of all given moves at once. The destinations have to
differ from each other and from the scratch register. -/
def resolve (moves : List Move) (scratch : Register) : List Move :=
  let pending := moves.filter fun move => move.dst ≠ move.src
  (sequence? scratch (maxMoves pending.length) pending).getD []

end Move

end ThreeAddress
