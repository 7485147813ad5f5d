import ThreeAddress.Code.DestMap
import ThreeAddress.Liveness.Analysis

/-!
# Live intervals

Program points number the places where a destination may be held: point 0 is the
entry of a function, and the instruction at `index` reads at `2 * index + 1` and
writes at `2 * index + 2`. The interval of a destination reaches from the first
to the last point where it is live or written. Two destinations whose intervals
share a point need different registers. The intervals are found in four passes over
the function, each of which changes those that the ones before it have left.
-/

namespace ThreeAddress

structure Interval where
  dest : Dest
  first : Nat
  last : Nat
  /-- The destination lives on through a call. -/
  crossesCall : Bool
  /-- The destination lives on through a division. -/
  crossesDivision : Bool
deriving DecidableEq, Repr

def readPoint (index : Nat) : Nat := 2 * index + 1

def writePoint (index : Nat) : Nat := 2 * index + 2

namespace Interval

/-- The interval of a destination that is held at one point. -/
def single (dest : Dest) (point : Nat) : Interval := ⟨dest, point, point, false, false⟩

/-- Extends an interval to a point. -/
def extend (interval : Interval) (point : Nat) : Interval :=
  { interval with first := min interval.first point, last := max interval.last point }

/-- Notes that the destination lives on through an instruction. -/
def cross (interval : Interval) (inst : Inst) : Interval :=
  { interval with
    crossesCall := interval.crossesCall || inst.isCall
    crossesDivision := interval.crossesDivision || inst.isDivision }

end Interval

/-- The intervals that have been found so far. -/
abbrev Ranges := DestMap Interval

namespace Ranges

/-- A destination is held at a point. -/
def touch (ranges : Ranges) (dest : Dest) (point : Nat) : Ranges :=
  ranges.update dest (·.extend point) (.single dest point)

def touchAll (ranges : Ranges) (dests : List Dest) (point : Nat) : Ranges :=
  dests.foldl (fun ranges dest => ranges.touch dest point) ranges

/-- A write holds a destination that has been found to be live somewhere, even if nothing reads
what is written. -/
def touchWritten (ranges : Ranges) (inst : Inst) (index : Nat) : Ranges :=
  match inst.def? with
  | some dest => if ranges.contains dest then ranges.touch dest (writePoint index) else ranges
  | none => ranges

/-- Marks those of the given destinations that have been found. -/
def markAll (ranges : Ranges) (dests : List Dest) (inst : Inst) : Ranges :=
  dests.foldl (fun ranges dest => ranges.modify dest (·.cross inst)) ranges

end Ranges

namespace Function

/-- First, what is live on entry is held there. -/
def touchEntry (live : Liveness) (ranges : Ranges) : Ranges :=
  match live.before.head? with
  | some entry => ranges.touchAll entry.toList 0
  | none => ranges

/-- Then whatever is live before or after an instruction is held where that one reads or writes. -/
def touchLive (function : Function) (live : Liveness) (ranges : Ranges) : Ranges :=
  (List.range function.code.length).foldl
    (fun ranges index =>
      (ranges.touchAll (live.liveBefore index).toList (readPoint index)).touchAll
        (live.liveAfter index).toList (writePoint index))
    ranges

/-- Then come the writes. -/
def touchDefs (function : Function) (ranges : Ranges) : Ranges :=
  function.code.zipIdx.foldl (fun ranges line => ranges.touchWritten line.1 line.2) ranges

/-- At last, what lives on through a call or a division is marked. -/
def markCrossings (function : Function) (live : Liveness) (ranges : Ranges) : Ranges :=
  function.code.zipIdx.foldl
    (fun ranges line =>
      if line.1.isCall || line.1.isDivision then
        ranges.markAll (function.liveAcross live line.2) line.1
      else ranges)
    ranges

/-- The intervals of the destinations that are live somewhere. -/
def ranges (function : Function) (live : Liveness) : Ranges :=
  function.markCrossings live
    (function.touchDefs (function.touchLive live (touchEntry live .empty)))

end Function

namespace Interval

/-- Whether an interval comes first: the one that starts first, or ends first. -/
def comesFirst (left right : Interval) : Bool :=
  decide (left.first < right.first) ||
    (left.first == right.first && decide (left.last ≤ right.last))

def insertInOrder (interval : Interval) : List Interval → List Interval
  | [] => [interval]
  | head :: rest =>
      if interval.comesFirst head then interval :: head :: rest
      else head :: insertInOrder interval rest

/-- Sorts intervals; those with the same ends stay in order. -/
def sort (intervals : List Interval) : List Interval :=
  intervals.foldr insertInOrder []

end Interval

/-- The intervals of the destinations that are live somewhere, in the order of their ends. -/
def Function.intervals (function : Function) (live : Liveness) : List Interval :=
  Interval.sort (function.ranges live).values

end ThreeAddress
