import ThreeAddress.Liveness.Interval
import ThreeAddress.Proofs.Liveness.Fixpoint

/-!
# The passes that find intervals

Each pass over a function adds points at which destinations are held, or marks; what it
does to the interval of one destination does not depend on the others. The order of the
passes matters: a write only extends an interval that an earlier pass has begun, and only
intervals that are there are marked. Together they make of the points of a destination the
interval from the first to the last one.
-/

namespace ThreeAddress

/-- The interval from the first to the last of some points. -/
def Interval.ofPoints? (dest : Dest) (points : List Nat) : Option Interval := do
  return ⟨dest, ← points.min?, ← points.max?, false, false⟩

/-- The interval of each destination is that of the points at which it has been held so far. -/
def Ranges.Covers (ranges : Ranges) (points : Dest → List Nat) : Prop :=
  ∀ dest, ranges.find? dest = Interval.ofPoints? dest (points dest)

namespace Interval

theorem ofPoints?_eq_some_iff {dest : Dest} {points : List Nat} {interval : Interval} :
    ofPoints? dest points = some interval ↔ ∃ first last, points.min? = some first ∧
      points.max? = some last ∧ interval = ⟨dest, first, last, false, false⟩ := by
  simp only [ofPoints?, Option.bind_eq_bind, Option.pure_def, Option.bind_eq_some_iff,
    Option.some.injEq, exists_and_left, eq_comm (b := interval)]

theorem ofPoints?_eq_none_iff {dest : Dest} {points : List Nat} :
    ofPoints? dest points = none ↔ points = [] := by
  constructor
  · intro h
    cases hmin : points.min? with
    | none => exact List.min?_eq_none_iff.mp hmin
    | some first =>
        cases hmax : points.max? with
        | none => exact List.max?_eq_none_iff.mp hmax
        | some last => simp [ofPoints?, hmin, hmax] at h
  · rintro rfl
    rfl

theorem ofPoints?_concat (dest : Dest) (points : List Nat) (point : Nat) :
    ofPoints? dest (points ++ [point]) =
      some (((ofPoints? dest points).map (·.extend point)).getD (single dest point)) := by
  cases hinterval : ofPoints? dest points with
  | none =>
      obtain rfl := ofPoints?_eq_none_iff.mp hinterval
      rfl
  | some interval =>
      obtain ⟨first, last, hmin, hmax, rfl⟩ := ofPoints?_eq_some_iff.mp hinterval
      obtain ⟨hfirst, hleast⟩ := List.min?_eq_some_iff.mp hmin
      obtain ⟨hlast, hgreatest⟩ := List.max?_eq_some_iff.mp hmax
      refine ofPoints?_eq_some_iff.mpr ⟨min first point, max last point, ?_, ?_, rfl⟩
      · refine List.min?_eq_some_iff.mpr ⟨?_, fun other hother => ?_⟩
        · rcases Nat.le_total first point with hle | hle
          · rw [Nat.min_eq_left hle]
            exact List.mem_append_left _ hfirst
          · rw [Nat.min_eq_right hle]
            exact List.mem_append_right _ (List.mem_singleton_self _)
        · rcases List.mem_append.mp hother with hmem | hmem
          · exact Nat.le_trans (Nat.min_le_left _ _) (hleast other hmem)
          · rw [List.mem_singleton.mp hmem]
            exact Nat.min_le_right _ _
      · refine List.max?_eq_some_iff.mpr ⟨?_, fun other hother => ?_⟩
        · rcases Nat.le_total last point with hle | hle
          · rw [Nat.max_eq_right hle]
            exact List.mem_append_right _ (List.mem_singleton_self _)
          · rw [Nat.max_eq_left hle]
            exact List.mem_append_left _ hlast
        · rcases List.mem_append.mp hother with hmem | hmem
          · exact Nat.le_trans (hgreatest other hmem) (Nat.le_max_left _ _)
          · rw [List.mem_singleton.mp hmem]
            exact Nat.le_max_right _ _

end Interval

/-! ## Points -/

namespace Ranges

variable {ranges : Ranges} {points : Dest → List Nat}

theorem covers_empty : Covers .empty fun _ => [] := fun _ => rfl

theorem Covers.congr {points' : Dest → List Nat} (h : ranges.Covers points)
    (heq : ∀ dest, points dest = points' dest) : ranges.Covers points' :=
  fun dest => heq dest ▸ h dest

theorem Covers.contains_iff (h : ranges.Covers points) (dest : Dest) :
    ranges.contains dest = true ↔ points dest ≠ [] := by
  rw [DestMap.contains_eq_true_iff, h dest, ne_eq, Interval.ofPoints?_eq_none_iff]

theorem Covers.touch (h : ranges.Covers points) (dest : Dest) (point : Nat) :
    (ranges.touch dest point).Covers fun other =>
      points other ++ if other = dest then [point] else [] := by
  intro other
  rw [Ranges.touch, DestMap.find?_update, h dest, h other]
  by_cases heq : other = dest
  · simp [heq, Interval.ofPoints?_concat]
  · simp [heq]

theorem Covers.touchAll (h : ranges.Covers points) {dests : List Dest} (hnodup : dests.Nodup)
    (point : Nat) :
    (ranges.touchAll dests point).Covers fun other =>
      points other ++ if other ∈ dests then [point] else [] := by
  induction dests generalizing ranges points with
  | nil => simpa [Ranges.touchAll] using h
  | cons dest rest ih =>
      obtain ⟨hdest, hrest⟩ := List.nodup_cons.mp hnodup
      refine (ih (h.touch dest point) hrest).congr fun other => ?_
      by_cases heq : other = dest
      · simp [heq, hdest]
      · simp [heq]

/-- A write counts where there is an interval already. -/
theorem Covers.touchWritten (h : ranges.Covers points) (inst : Inst) (index : Nat) :
    (ranges.touchWritten inst index).Covers fun other =>
      if points other = [] then []
      else points other ++ if inst.def? = some other then [writePoint index] else [] := by
  unfold Ranges.touchWritten
  split
  next dest hdef =>
    -- The guard of the pass asks whether an earlier one has found a point.
    by_cases hfound : ranges.contains dest = true
    · rw [if_pos hfound]
      refine (h.touch dest (writePoint index)).congr fun other => ?_
      have hpoints := (h.contains_iff dest).mp hfound
      by_cases heq : other = dest
      · simp [heq, hdef, hpoints]
      · simp [heq, hdef, Ne.symm heq]
    · rw [if_neg hfound]
      refine h.congr fun other => ?_
      have hnone := Classical.not_not.mp (mt (h.contains_iff dest).mpr hfound)
      by_cases heq : other = dest
      · simp [heq, hnone]
      · simp [hdef, Ne.symm heq]
  next hdef => exact h.congr fun other => by simp [hdef]

end Ranges

namespace Function

variable {function : Function} {live : Liveness} {ranges : Ranges} {held : Dest → List Nat}

/-- The points at which a destination is live. -/
def livePoints (function : Function) (live : Liveness) (dest : Dest) : List Nat :=
  (if dest ∈ live.liveBefore 0 then [0] else []) ++
    (List.range function.code.length).flatMap fun index =>
      (if dest ∈ live.liveBefore index then [readPoint index] else []) ++
        (if dest ∈ live.liveAfter index then [writePoint index] else [])

/-- The points at which a destination is written. -/
def writtenPoints (function : Function) (dest : Dest) : List Nat :=
  function.code.zipIdx.flatMap fun line =>
    if line.1.def? = some dest then [writePoint line.2] else []

/-- The points at which a destination occupies its register. -/
def points (function : Function) (live : Liveness) (dest : Dest) : List Nat :=
  function.livePoints live dest ++ function.writtenPoints dest

theorem covers_touchEntry (live : Liveness) :
    (touchEntry live .empty).Covers fun dest =>
      if dest ∈ live.liveBefore 0 then [0] else [] := by
  unfold touchEntry Liveness.liveBefore
  rw [List.head?_eq_getElem?]
  cases live.before[0]? with
  | some entry => exact Ranges.covers_empty.touchAll entry.nodup_toList 0
  | none => exact Ranges.covers_empty.congr fun dest => by simp

theorem covers_touchLive (h : ranges.Covers held) :
    (function.touchLive live ranges).Covers fun dest =>
      held dest ++ (List.range function.code.length).flatMap fun index =>
        (if dest ∈ live.liveBefore index then [readPoint index] else []) ++
          (if dest ∈ live.liveAfter index then [writePoint index] else []) := by
  unfold touchLive
  induction List.range function.code.length generalizing ranges held with
  | nil => simpa using h
  | cons index rest ih =>
      have hbefore := h.touchAll (live.liveBefore index).nodup_toList (readPoint index)
      have hafter := hbefore.touchAll (live.liveAfter index).nodup_toList (writePoint index)
      refine (ih hafter).congr fun dest => ?_
      simp only [List.flatMap_cons, List.append_assoc, DestSet.mem_toList]

theorem covers_touchDefs (h : ranges.Covers held) :
    (function.touchDefs ranges).Covers fun dest =>
      if held dest = [] then [] else held dest ++ function.writtenPoints dest := by
  unfold touchDefs writtenPoints
  induction function.code.zipIdx generalizing ranges held with
  | nil => exact h.congr fun dest => by simp
  | cons line rest ih =>
      refine (ih (h.touchWritten line.1 line.2)).congr fun dest => ?_
      by_cases hheld : held dest = []
      · simp [hheld]
      · simp [hheld]

/-- The passes before the last one find the points of the destinations that are live somewhere. -/
theorem covers_touches (function : Function) (live : Liveness) :
    (function.touchDefs (function.touchLive live (touchEntry live .empty))).Covers fun dest =>
      if function.livePoints live dest = [] then [] else function.points live dest :=
  covers_touchDefs (covers_touchLive (covers_touchEntry live))

end Function

/-! ## Marks -/

namespace Interval

/-- Notes that the destination lives on through those of some instructions that are said to. -/
def crossAll (interval : Interval) (through : Nat → Bool) (lines : List (Inst × Nat)) : Interval :=
  lines.foldl
    (fun interval line => if through line.2 then interval.cross line.1 else interval) interval

theorem crossAll_eq (interval : Interval) (through : Nat → Bool) (lines : List (Inst × Nat)) :
    interval.crossAll through lines =
      { interval with
        crossesCall := interval.crossesCall ||
          lines.any fun line => line.1.isCall && through line.2
        crossesDivision := interval.crossesDivision ||
          lines.any fun line => line.1.isDivision && through line.2 } := by
  unfold crossAll
  induction lines generalizing interval with
  | nil => simp
  | cons line rest ih =>
      rw [List.foldl_cons, ih]
      cases hthrough : through line.2 <;> simp [cross, hthrough, Bool.or_assoc]

/-- An instruction of neither kind leaves no mark. -/
theorem cross_of_not (interval : Interval) {inst : Inst}
    (h : (inst.isCall || inst.isDivision) = false) : interval.cross inst = interval := by
  obtain ⟨hcall, hdivision⟩ := Bool.or_eq_false_iff.mp h
  simp [cross, hcall, hdivision]

theorem cross_cross (interval : Interval) (inst : Inst) :
    (interval.cross inst).cross inst = interval.cross inst := by
  simp [cross]

end Interval

theorem Ranges.find?_markAll (ranges : Ranges) (dests : List Dest) (inst : Inst) (dest : Dest) :
    (ranges.markAll dests inst).find? dest =
      (ranges.find? dest).map fun interval =>
        if dest ∈ dests then interval.cross inst else interval := by
  unfold markAll
  induction dests generalizing ranges with
  | nil => simp
  | cons first rest ih =>
      rw [List.foldl_cons, ih, DestMap.find?_modify]
      by_cases heq : dest = first
      -- A destination that is listed again gets the same mark, which changes nothing.
      · rw [if_pos heq, ← heq, Option.map_map]
        refine congrArg (Option.map · _) (funext fun interval => ?_)
        by_cases hrest : dest ∈ rest <;> simp [hrest, Interval.cross_cross]
      · rw [if_neg heq]
        simp [heq]

namespace Function

variable {function : Function} {live : Liveness}

/-- Whether a destination lives on through an instruction of some kind. -/
def crosses (function : Function) (live : Liveness) (kind : Inst → Bool) (dest : Dest) : Bool :=
  function.code.zipIdx.any fun line =>
    kind line.1 && decide (dest ∈ function.liveAcross live line.2)

theorem find?_markCrossings (ranges : Ranges) (dest : Dest) :
    (function.markCrossings live ranges).find? dest =
      (ranges.find? dest).map fun interval =>
        interval.crossAll (fun index => decide (dest ∈ function.liveAcross live index))
          function.code.zipIdx := by
  unfold markCrossings
  induction function.code.zipIdx generalizing ranges with
  | nil => exact Option.map_id'.symm
  | cons line rest ih =>
      rw [List.foldl_cons, ih]
      have hline : (if line.1.isCall || line.1.isDivision then
          ranges.markAll (function.liveAcross live line.2) line.1 else ranges).find? dest =
            (ranges.find? dest).map fun interval =>
              if dest ∈ function.liveAcross live line.2 then interval.cross line.1
              else interval := by
        cases hkind : line.1.isCall || line.1.isDivision with
        | true => exact Ranges.find?_markAll ranges _ _ dest
        | false => simp [Interval.cross_of_not _ hkind]
      rw [hline, Option.map_map]
      refine congrArg (Option.map · _) (funext fun interval => ?_)
      simp [Interval.crossAll]

/-- The interval of a destination that is live somewhere: from the first to the last of its points,
with the kinds of instructions that it lives through. -/
def interval? (function : Function) (live : Liveness) (dest : Dest) : Option Interval :=
  if function.livePoints live dest = [] then none
  else do
    return {
      dest
      first := ← (function.points live dest).min?
      last := ← (function.points live dest).max?
      crossesCall := function.crosses live Inst.isCall dest
      crossesDivision := function.crosses live Inst.isDivision dest }

/-- The four passes find the interval of each destination. -/
theorem find?_ranges (function : Function) (live : Liveness) (dest : Dest) :
    (function.ranges live).find? dest = function.interval? live dest := by
  rw [ranges, find?_markCrossings, covers_touches, interval?]
  by_cases hlive : function.livePoints live dest = []
  · simp [hlive, Interval.ofPoints?_eq_none_iff.mpr]
  · simp only [hlive, if_false]
    cases hinterval : Interval.ofPoints? dest (function.points live dest) with
    | none =>
        obtain hnone := Interval.ofPoints?_eq_none_iff.mp hinterval
        simp [hnone]
    | some interval =>
        obtain ⟨first, last, hmin, hmax, rfl⟩ := Interval.ofPoints?_eq_some_iff.mp hinterval
        simp [hmin, hmax, Interval.crossAll_eq, crosses]

end Function

end ThreeAddress
