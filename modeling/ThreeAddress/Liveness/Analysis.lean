import ThreeAddress.Code.DestSet
import ThreeAddress.Code.Program

/-!
# Liveness

A destination is live where some path from there reads it before writing it.
The analysis starts from empty sets and sweeps over the instructions from the
last to the first, until a sweep changes nothing.
-/

namespace ThreeAddress

/-- The indices that control can reach from the instruction at `index` in one step. A jump to a
label that is not declared leads nowhere. -/
def Function.successors (function : Function) (index : Nat) : List Nat :=
  let next := if index + 1 < function.code.length then [index + 1] else []
  match function.code[index]? with
  | none | some (.ret _) => []
  | some (.jump target) => (function.labelIndex? target).toList
  | some (.branch _ _ _ target) => (function.labelIndex? target).toList ++ next
  | some _ => next

/-- The destinations that are live before and after each instruction. -/
structure Liveness where
  before : List DestSet
  after : List DestSet
deriving DecidableEq, Inhabited

namespace Liveness

def liveBefore (live : Liveness) (index : Nat) : DestSet :=
  live.before[index]?.getD .empty

def liveAfter (live : Liveness) (index : Nat) : DestSet :=
  live.after[index]?.getD .empty

/-- Nothing is live anywhere. -/
def none (size : Nat) : Liveness :=
  ⟨List.replicate size .empty, List.replicate size .empty⟩

end Liveness

namespace Inst

/-- What is live before an instruction, given what is live after it. -/
def transfer (inst : Inst) (after : DestSet) : DestSet :=
  (match inst.def? with
    | some dst => after.erase dst
    | none => after).insertAll inst.uses

theorem mem_transfer {inst : Inst} {after : DestSet} {dest : Dest} :
    dest ∈ inst.transfer after ↔
      dest ∈ inst.uses ∨ (dest ∈ after ∧ inst.def? ≠ some dest) := by
  unfold transfer
  split
  next dst hdef => simp [hdef, eq_comm]
  next hdef => simp [hdef]

end Inst

namespace Function

/-- What is live after the instruction at `index`: what is live before any of its successors. -/
def joined (function : Function) (live : Liveness) (index : Nat) : DestSet :=
  (function.successors index).foldr (fun next set => (live.liveBefore next).union set) .empty

/-- Recomputes the sets of one instruction. -/
def refresh (function : Function) (live : Liveness) (index : Nat) : Liveness :=
  match function.code[index]? with
  | none => live
  | some inst =>
      let after := function.joined live index
      ⟨live.before.set index (inst.transfer after), live.after.set index after⟩

/-- Recomputes the sets of the first `count` instructions, the last one first. -/
def sweep (function : Function) : Nat → Liveness → Liveness
  | 0, live => live
  | count + 1, live => function.sweep count (function.refresh live count)

/-- Sweeps until nothing changes, at most `rounds` times. -/
def settle (function : Function) : Nat → Liveness → Liveness
  | 0, live => live
  | rounds + 1, live =>
      let next := function.sweep function.code.length live
      if next = live then live else function.settle rounds next

/-- The destinations that some instruction reads. -/
def used (function : Function) : DestSet :=
  .ofList (function.code.flatMap Inst.uses)

/-- Each sweep but the last one enlarges one of the sets, and the sets hold used destinations
only. -/
def maxSweeps (function : Function) : Nat :=
  2 * function.code.length * function.used.size + 1

def liveness (function : Function) : Liveness :=
  function.settle function.maxSweeps (.none function.code.length)

/-- What is live before the first instruction, if there is one. -/
def liveAtStart? (function : Function) : Option DestSet :=
  function.liveness.before.head?

/-- The destinations that live on through an instruction which does not write them. -/
def liveAcross (function : Function) (live : Liveness) (index : Nat) : List Dest :=
  match function.code[index]? with
  | none => []
  | some inst => (live.liveAfter index).toList.filter fun dest => inst.def? ≠ some dest

theorem mem_joined {function : Function} {live : Liveness} {index : Nat} {dest : Dest} :
    dest ∈ function.joined live index ↔
      ∃ next ∈ function.successors index, dest ∈ live.liveBefore next := by
  unfold joined
  induction function.successors index with
  | nil => simp
  | cons next rest ih => simp [ih]

end Function

end ThreeAddress
