import ThreeAddress.Proofs.Liveness.Passes

/-!
# What intervals cover

There is one interval for each destination that is live somewhere. It reaches over
every point at which its destination is live or written, and the intervals stand
in the order in which they start.
-/

namespace ThreeAddress

namespace Interval

/-- Two intervals share a point. -/
def Meets (left right : Interval) : Prop :=
  left.first ≤ right.last ∧ right.first ≤ left.last

theorem Meets.symm {left right : Interval} (h : left.Meets right) : right.Meets left :=
  ⟨h.2, h.1⟩

theorem Meets.of_point {left right : Interval} (point : Nat)
    (hleft : left.first ≤ point ∧ point ≤ left.last)
    (hright : right.first ≤ point ∧ point ≤ right.last) : left.Meets right :=
  ⟨Nat.le_trans hleft.1 hright.2, Nat.le_trans hright.1 hleft.2⟩

theorem insertInOrder_perm (interval : Interval) (intervals : List Interval) :
    (interval.insertInOrder intervals).Perm (interval :: intervals) := by
  induction intervals with
  | nil => exact .refl _
  | cons head rest ih =>
      unfold insertInOrder
      split
      · exact .refl _
      · exact (ih.cons head).trans (.swap interval head rest)

/-- Sorting only changes the order. -/
theorem sort_perm (intervals : List Interval) : (sort intervals).Perm intervals := by
  induction intervals with
  | nil => exact .refl _
  | cons interval rest ih => exact (insertInOrder_perm interval _).trans (ih.cons interval)

theorem comesFirst_iff {left right : Interval} : left.comesFirst right = true ↔
    left.first < right.first ∨ left.first = right.first ∧ left.last ≤ right.last := by
  simp [comesFirst]

theorem first_le_of_comesFirst {left right : Interval} (h : left.comesFirst right = true) :
    left.first ≤ right.first := by
  rw [comesFirst_iff] at h
  omega

theorem first_le_of_not_comesFirst {left right : Interval}
    (h : ¬left.comesFirst right = true) : right.first ≤ left.first := by
  rw [comesFirst_iff] at h
  omega

theorem insertInOrder_sorted (interval : Interval) {intervals : List Interval}
    (h : intervals.Pairwise (·.first ≤ ·.first)) :
    (interval.insertInOrder intervals).Pairwise (·.first ≤ ·.first) := by
  induction intervals with
  | nil => exact List.pairwise_singleton _ _
  | cons head rest ih =>
      obtain ⟨hhead, hrest⟩ := List.pairwise_cons.mp h
      unfold insertInOrder
      split
      next hfirst =>
        refine List.pairwise_cons.mpr ⟨fun other hother => ?_, h⟩
        have hle := first_le_of_comesFirst hfirst
        rcases List.mem_cons.mp hother with rfl | hmem
        · exact hle
        · exact Nat.le_trans hle (hhead other hmem)
      next hlater =>
        refine List.pairwise_cons.mpr ⟨fun other hother => ?_, ih hrest⟩
        rcases List.mem_cons.mp ((insertInOrder_perm interval rest).mem_iff.mp hother) with
          rfl | hmem
        · exact first_le_of_not_comesFirst hlater
        · exact hhead other hmem

theorem sort_sorted (intervals : List Interval) :
    (sort intervals).Pairwise (·.first ≤ ·.first) := by
  induction intervals with
  | nil => exact .nil
  | cons interval rest ih => exact insertInOrder_sorted interval ih

end Interval

namespace Function

variable {function : Function} {live : Liveness}

theorem mem_livePoints_iff {dest : Dest} {point : Nat} :
    point ∈ function.livePoints live dest ↔ dest ∈ live.liveBefore 0 ∧ point = 0 ∨
      ∃ index < function.code.length, dest ∈ live.liveBefore index ∧ point = readPoint index ∨
        dest ∈ live.liveAfter index ∧ point = writePoint index := by
  simp only [livePoints, List.mem_append, List.mem_flatMap, List.mem_range,
    List.mem_ite_nil_right, List.mem_singleton]

theorem mem_writtenPoints_iff {dest : Dest} {point : Nat} :
    point ∈ function.writtenPoints dest ↔ ∃ index inst, function.code[index]? = some inst ∧
      inst.def? = some dest ∧ point = writePoint index := by
  simp only [writtenPoints, List.mem_flatMap, List.mem_ite_nil_right, List.mem_singleton,
    Prod.exists, List.mem_zipIdx_iff_getElem?]
  exact exists_comm

theorem mem_livePoints_before {index : Nat} {dest : Dest} (hindex : index < function.code.length)
    (h : dest ∈ live.liveBefore index) : readPoint index ∈ function.livePoints live dest :=
  mem_livePoints_iff.mpr (.inr ⟨index, hindex, .inl ⟨h, rfl⟩⟩)

theorem mem_livePoints_after {index : Nat} {dest : Dest} (hindex : index < function.code.length)
    (h : dest ∈ live.liveAfter index) : writePoint index ∈ function.livePoints live dest :=
  mem_livePoints_iff.mpr (.inr ⟨index, hindex, .inr ⟨h, rfl⟩⟩)

theorem mem_points_before {index : Nat} {dest : Dest} (hindex : index < function.code.length)
    (h : dest ∈ live.liveBefore index) : readPoint index ∈ function.points live dest :=
  List.mem_append_left _ (mem_livePoints_before hindex h)

theorem mem_points_after {index : Nat} {dest : Dest} (hindex : index < function.code.length)
    (h : dest ∈ live.liveAfter index) : writePoint index ∈ function.points live dest :=
  List.mem_append_left _ (mem_livePoints_after hindex h)

theorem mem_points_def {index : Nat} {inst : Inst} {dest : Dest}
    (hinst : function.code[index]? = some inst) (h : inst.def? = some dest) :
    writePoint index ∈ function.points live dest :=
  List.mem_append_right _ (mem_writtenPoints_iff.mpr ⟨index, inst, hinst, h, rfl⟩)

/-- A destination that has points at which it is live is live somewhere. -/
theorem exists_live_of_livePoints {dest : Dest} (h : function.livePoints live dest ≠ []) :
    ∃ index, dest ∈ live.liveBefore index ∨ dest ∈ live.liveAfter index := by
  obtain ⟨point, hpoint⟩ := List.exists_mem_of_ne_nil _ h
  rcases mem_livePoints_iff.mp hpoint with ⟨hlive, _⟩ | ⟨index, _, ⟨hlive, _⟩ | ⟨hlive, _⟩⟩
  · exact ⟨0, .inl hlive⟩
  · exact ⟨index, .inl hlive⟩
  · exact ⟨index, .inr hlive⟩

/-- The interval of a destination is made from its points. -/
theorem interval?_eq_some {dest : Dest} {interval : Interval}
    (h : function.interval? live dest = some interval) :
    function.livePoints live dest ≠ [] ∧ interval.dest = dest ∧
      (function.points live dest).min? = some interval.first ∧
      (function.points live dest).max? = some interval.last ∧
      interval.crossesCall = function.crosses live Inst.isCall dest ∧
      interval.crossesDivision = function.crosses live Inst.isDivision dest := by
  unfold interval? at h
  split at h
  next => cases h
  next hlive =>
    obtain ⟨first, hfirst, h⟩ := Option.bind_eq_some_iff.mp h
    obtain ⟨last, hlast, h⟩ := Option.bind_eq_some_iff.mp h
    obtain rfl := Option.some.inj h
    exact ⟨hlive, rfl, hfirst, hlast, rfl, rfl⟩

theorem exists_interval {dest : Dest} (h : function.livePoints live dest ≠ []) :
    ∃ interval, function.interval? live dest = some interval := by
  have hpoints : function.points live dest ≠ [] := by simp [points, h]
  obtain ⟨first, hfirst⟩ := Option.ne_none_iff_exists'.mp (mt List.min?_eq_none_iff.mp hpoints)
  obtain ⟨last, hlast⟩ := Option.ne_none_iff_exists'.mp (mt List.max?_eq_none_iff.mp hpoints)
  simp [interval?, h, hfirst, hlast]

theorem covers_of_mem_points {dest : Dest} {interval : Interval} {point : Nat}
    (h : function.interval? live dest = some interval)
    (hpoint : point ∈ function.points live dest) :
    interval.first ≤ point ∧ point ≤ interval.last := by
  obtain ⟨_, _, hmin, hmax, _, _⟩ := interval?_eq_some h
  exact ⟨(List.min?_eq_some_iff.mp hmin).2 _ hpoint, (List.max?_eq_some_iff.mp hmax).2 _ hpoint⟩

theorem crosses_of_mem_liveAcross {kind : Inst → Bool} {index : Nat} {inst : Inst} {dest : Dest}
    (hinst : function.code[index]? = some inst) (hkind : kind inst = true)
    (h : dest ∈ function.liveAcross live index) : function.crosses live kind dest = true := by
  refine List.any_eq_true.mpr ⟨(inst, index), List.mem_zipIdx_iff_getElem?.mpr hinst, ?_⟩
  simp [hkind, h]

/-! ## The intervals of a function -/

theorem mem_intervals {interval : Interval} :
    interval ∈ function.intervals live ↔
      ∃ dest, function.interval? live dest = some interval := by
  rw [intervals, (Interval.sort_perm _).mem_iff, DestMap.values, List.mem_map]
  constructor
  · rintro ⟨⟨dest, interval⟩, hmem, rfl⟩
    exact ⟨dest, (find?_ranges function live dest).symm.trans (DestMap.mem_entries_iff.mp hmem)⟩
  · rintro ⟨dest, hinterval⟩
    refine ⟨(dest, interval), DestMap.mem_entries_iff.mpr ?_, rfl⟩
    rw [find?_ranges, hinterval]

/-- The map of the passes lists the intervals in the order of their destinations. -/
theorem values_ranges_ordered :
    (function.ranges live).values.Pairwise (·.dest < ·.dest) := by
  refine List.pairwise_map.mpr ((function.ranges live).ordered.imp_of_mem ?_)
  intro left right hleft hright hlt
  have hdest : ∀ entry ∈ (function.ranges live).entries, entry.2.dest = entry.1 := by
    intro entry hentry
    have hfind := DestMap.mem_entries_iff.mp hentry
    rw [find?_ranges] at hfind
    exact (interval?_eq_some hfind).2.1
  rwa [hdest left hleft, hdest right hright]

theorem intervals_sorted : (function.intervals live).Pairwise (·.first ≤ ·.first) :=
  Interval.sort_sorted _

/-- No destination has two intervals. -/
theorem nodup_intervals_dest : ((function.intervals live).map (·.dest)).Nodup := by
  refine ((Interval.sort_perm _).map _).nodup_iff.mpr (List.nodup_iff_pairwise_ne.mpr ?_)
  refine List.pairwise_map.mpr (values_ranges_ordered.imp fun hlt heq => ?_)
  exact Dest.lt_irrefl _ (heq ▸ hlt)

theorem lt_length_of_mem_liveAfter {index : Nat} {dest : Dest}
    (h : dest ∈ function.liveness.liveAfter index) : index < function.code.length := by
  by_contra hnot
  obtain ⟨next, hnext, _⟩ := mem_liveAfter_iff.mp h
  simp [successors, List.getElem?_eq_none (Nat.not_lt.mp hnot)] at hnext

/-- Exactly the destinations that are live somewhere have intervals. -/
theorem exists_interval_iff {dest : Dest} :
    (∃ interval ∈ function.intervals function.liveness, interval.dest = dest) ↔
      ∃ index, dest ∈ function.liveness.liveBefore index ∨
        dest ∈ function.liveness.liveAfter index := by
  constructor
  · rintro ⟨interval, hmem, rfl⟩
    obtain ⟨dest, hinterval⟩ := mem_intervals.mp hmem
    obtain ⟨hlive, rfl, _⟩ := interval?_eq_some hinterval
    exact exists_live_of_livePoints hlive
  · rintro ⟨index, hlive⟩
    have hpoints : function.livePoints function.liveness dest ≠ [] := by
      rcases hlive with hbefore | hafter
      · exact List.ne_nil_of_mem
          (mem_livePoints_before (lt_length_of_mem_liveBefore hbefore) hbefore)
      · exact List.ne_nil_of_mem (mem_livePoints_after (lt_length_of_mem_liveAfter hafter) hafter)
    obtain ⟨interval, hinterval⟩ := exists_interval hpoints
    exact ⟨interval, mem_intervals.mpr ⟨dest, hinterval⟩, (interval?_eq_some hinterval).2.1⟩

/-- An interval covers every point of its destination. -/
theorem covers_of_mem_intervals {interval : Interval} {point : Nat}
    (h : interval ∈ function.intervals live)
    (hpoint : point ∈ function.points live interval.dest) :
    interval.first ≤ point ∧ point ≤ interval.last := by
  obtain ⟨dest, hinterval⟩ := mem_intervals.mp h
  rw [(interval?_eq_some hinterval).2.1] at hpoint
  exact covers_of_mem_points hinterval hpoint

end Function

end ThreeAddress
