import Mathlib.Data.List.Sort
import Mathlib.Order.Bounds.Basic
import ThreeAddress.Proofs.Liveness.Interval

/-!
# The extent of intervals

A destination is held wherever it is live and wherever it is written. Its interval
reaches from the first point at which it is held to the last one, and says whether
the destination lives through a call or a division. The intervals of a function are
the only list of such intervals, one for each destination that is live somewhere, in
the order of their ends and, of those with the same ends, of their destinations.
-/

namespace ThreeAddress

namespace Function

/-- A destination is held at a point: on entry, where an instruction reads, or where one writes. A
write holds its destination even if nothing reads what is written. -/
inductive HeldAt (function : Function) (dest : Dest) : Nat → Prop
  | entry : dest ∈ function.liveness.liveBefore 0 → HeldAt function dest 0
  | before {index} : dest ∈ function.liveness.liveBefore index →
      HeldAt function dest (2 * index + 1)
  | after {index} : dest ∈ function.liveness.liveAfter index →
      HeldAt function dest (2 * index + 2)
  | written {index inst} : function.code[index]? = some inst → inst.def? = some dest →
      HeldAt function dest (2 * index + 2)

/-- A destination is live after some instruction of a kind that does not write it. -/
def LivesThrough (function : Function) (kind : Inst → Bool) (dest : Dest) : Prop :=
  ∃ index inst, function.code[index]? = some inst ∧ kind inst = true ∧
    dest ∈ function.liveness.liveAfter index ∧ inst.def? ≠ some dest

/-- A destination is live before or after some instruction. -/
def Live (function : Function) (dest : Dest) : Prop :=
  ∃ index, dest ∈ function.liveness.liveBefore index ∨ dest ∈ function.liveness.liveAfter index

end Function

namespace Interval

/-- An interval reaches from the first to the last point at which its destination is held. -/
structure Exact (function : Function) (interval : Interval) : Prop where
  first : IsLeast {point | function.HeldAt interval.dest point} interval.first
  last : IsGreatest {point | function.HeldAt interval.dest point} interval.last
  crossesCall : interval.crossesCall = true ↔
    function.LivesThrough Inst.isCall interval.dest
  crossesDivision : interval.crossesDivision = true ↔
    function.LivesThrough Inst.isDivision interval.dest

/-- The order of intervals: by their first points, then by their last points, then by their
destinations. -/
def Precedes (left right : Interval) : Prop :=
  left.first < right.first ∨ left.first = right.first ∧
    (left.last < right.last ∨ left.last = right.last ∧ left.dest < right.dest)

end Interval

/-- A list has an exact interval for each destination that is live somewhere and for no other one,
in order. -/
structure Function.HasIntervals (function : Function) (intervals : List Interval) : Prop where
  exact : ∀ interval ∈ intervals, interval.Exact function
  live : ∀ dest, (∃ interval ∈ intervals, interval.dest = dest) ↔ function.Live dest
  nodup : (intervals.map (·.dest)).Nodup
  ordered : intervals.Pairwise Interval.Precedes

/-! ## The order -/

namespace Interval

variable {left right interval : Interval} {intervals : List Interval}

theorem Precedes.asymm (h : left.Precedes right) : ¬ right.Precedes left := by
  rintro (hfirst | ⟨hfirst, hlast | ⟨hlast, hdest⟩⟩)
  · rcases h with h | ⟨h, _⟩ <;> omega
  · rcases h with h | ⟨h, h | ⟨h, _⟩⟩ <;> omega
  · rcases h with h | ⟨h, h | ⟨h, hdest'⟩⟩
    · omega
    · omega
    · exact Dest.lt_irrefl _ (Dest.lt_trans hdest hdest')

instance : Std.Irrefl Precedes := ⟨fun _ h => h.asymm h⟩

instance : Std.Antisymm Precedes := ⟨fun _ _ h h' => absurd h' h.asymm⟩

theorem precedes_of_comesFirst (h : left.comesFirst right = true) (hdest : left.dest < right.dest) :
    left.Precedes right := by
  rcases comesFirst_iff.mp h with hfirst | ⟨hfirst, hlast⟩
  · exact .inl hfirst
  · rcases Nat.lt_or_eq_of_le hlast with hlt | heq
    · exact .inr ⟨hfirst, .inl hlt⟩
    · exact .inr ⟨hfirst, .inr ⟨heq, hdest⟩⟩

theorem precedes_of_not_comesFirst (h : ¬ left.comesFirst right = true) : right.Precedes left := by
  rw [comesFirst_iff] at h
  unfold Precedes
  omega

/-- An interval that comes before another one with its ends comes before all that follow that
one. -/
theorem Precedes.of_comesFirst {other : Interval} (hfirst : left.comesFirst right = true)
    (h : right.Precedes other) (hdest : left.dest < other.dest) : left.Precedes other := by
  rw [comesFirst_iff] at hfirst
  by_cases hends : left.first = other.first ∧ left.last = other.last
  · exact .inr ⟨hends.1, .inr ⟨hends.2, hdest⟩⟩
  · unfold Precedes at *
    omega

/-- Insertion keeps the order if no destination comes before the new one. -/
theorem insertInOrder_ordered (h : intervals.Pairwise Precedes)
    (hdest : ∀ other ∈ intervals, interval.dest < other.dest) :
    (interval.insertInOrder intervals).Pairwise Precedes := by
  induction intervals with
  | nil => exact List.pairwise_singleton _ _
  | cons head rest ih =>
      obtain ⟨hhead, hrest⟩ := List.pairwise_cons.mp h
      obtain ⟨hdestHead, hdestRest⟩ := List.forall_mem_cons.mp hdest
      unfold insertInOrder
      split
      next hfirst =>
        refine List.pairwise_cons.mpr ⟨List.forall_mem_cons.mpr ⟨?_, ?_⟩, h⟩
        · exact precedes_of_comesFirst hfirst hdestHead
        · intro other hother
          exact (hhead other hother).of_comesFirst hfirst (hdestRest other hother)
      next hlater =>
        refine List.pairwise_cons.mpr ⟨fun other hother => ?_, ih hrest hdestRest⟩
        rcases List.mem_cons.mp ((insertInOrder_perm interval rest).mem_iff.mp hother) with
          rfl | hmem
        · exact precedes_of_not_comesFirst hlater
        · exact hhead other hmem

/-- Sorting puts intervals with the same ends in the order of their destinations, if they stood in
that order. -/
theorem sort_ordered (h : intervals.Pairwise (·.dest < ·.dest)) :
    (sort intervals).Pairwise Precedes := by
  induction intervals with
  | nil => exact .nil
  | cons interval rest ih =>
      obtain ⟨hdest, hrest⟩ := List.pairwise_cons.mp h
      exact insertInOrder_ordered (ih hrest) fun other hother =>
        hdest other ((sort_perm rest).mem_iff.mp hother)

/-- There is at most one exact interval of a destination. -/
theorem Exact.unique {function : Function} (hleft : left.Exact function)
    (hright : right.Exact function) (hdest : left.dest = right.dest) : left = right := by
  obtain ⟨dest, first, last, crossesCall, crossesDivision⟩ := left
  obtain rfl : dest = right.dest := hdest
  have hfirst : first = right.first := hleft.first.unique hright.first
  have hlast : last = right.last := hleft.last.unique hright.last
  have hcall : crossesCall = right.crossesCall :=
    Bool.eq_iff_iff.mpr (hleft.crossesCall.trans hright.crossesCall.symm)
  have hdivision : crossesDivision = right.crossesDivision :=
    Bool.eq_iff_iff.mpr (hleft.crossesDivision.trans hright.crossesDivision.symm)
  rw [hfirst, hlast, hcall, hdivision]

end Interval

/-! ## What the analysis makes of points and crossings -/

namespace Function

variable {function : Function} {dest : Dest} {point : Nat} {interval : Interval}

theorem mem_points_iff :
    point ∈ function.points function.liveness dest ↔ function.HeldAt dest point := by
  constructor
  · intro h
    rcases List.mem_append.mp h with hlive | hwritten
    · rcases mem_livePoints_iff.mp hlive with
        ⟨hbefore, rfl⟩ | ⟨index, _, ⟨hbefore, rfl⟩ | ⟨hafter, rfl⟩⟩
      · exact .entry hbefore
      · exact .before hbefore
      · exact .after hafter
    · obtain ⟨index, inst, hinst, hdef, rfl⟩ := mem_writtenPoints_iff.mp hwritten
      exact .written hinst hdef
  · intro h
    cases h with
    | entry hlive => exact List.mem_append_left _ (List.mem_append_left _ (by simp [hlive]))
    | before hlive => exact mem_points_before (lt_length_of_mem_liveBefore hlive) hlive
    | after hlive => exact mem_points_after (lt_length_of_mem_liveAfter hlive) hlive
    | written hinst hdef => exact mem_points_def hinst hdef

theorem crosses_iff {kind : Inst → Bool} :
    function.crosses function.liveness kind dest = true ↔ function.LivesThrough kind dest := by
  constructor
  · intro h
    obtain ⟨⟨inst, index⟩, hline, hcrosses⟩ := List.any_eq_true.mp h
    have hinst := List.mem_zipIdx_iff_getElem?.mp hline
    obtain ⟨hkind, hacross⟩ := (Bool.and_eq_true _ _).mp hcrosses
    have hacross := of_decide_eq_true hacross
    simp only [liveAcross, hinst] at hacross
    obtain ⟨hlive, hdef⟩ := List.mem_filter.mp hacross
    exact ⟨index, inst, hinst, hkind, hlive, of_decide_eq_true hdef⟩
  · rintro ⟨index, inst, hinst, hkind, hlive, hdef⟩
    apply crosses_of_mem_liveAcross hinst hkind
    simp only [liveAcross, hinst]
    exact List.mem_filter.mpr ⟨hlive, decide_eq_true hdef⟩

theorem exact_of_interval? (h : function.interval? function.liveness dest = some interval) :
    interval.Exact function := by
  obtain ⟨_, rfl, hfirst, hlast, hcall, hdivision⟩ := interval?_eq_some h
  obtain ⟨hleast, hlower⟩ := List.min?_eq_some_iff.mp hfirst
  obtain ⟨hgreatest, hupper⟩ := List.max?_eq_some_iff.mp hlast
  refine ⟨⟨mem_points_iff.mp hleast, fun point hpoint => hlower point (mem_points_iff.mpr hpoint)⟩,
    ⟨mem_points_iff.mp hgreatest, fun point hpoint => hupper point (mem_points_iff.mpr hpoint)⟩,
    ?_, ?_⟩
  · rw [hcall, crosses_iff]
  · rw [hdivision, crosses_iff]

theorem intervals_ordered :
    (function.intervals function.liveness).Pairwise Interval.Precedes :=
  Interval.sort_ordered values_ranges_ordered

/-- The intervals of a function are exact. -/
theorem hasIntervals_intervals (function : Function) :
    function.HasIntervals (function.intervals function.liveness) where
  exact := fun interval hmem => by
    obtain ⟨dest, hinterval⟩ := mem_intervals.mp hmem
    exact exact_of_interval? hinterval
  live := fun _ => exists_interval_iff
  nodup := nodup_intervals_dest
  ordered := intervals_ordered

/-- An interval that is in one such list is in the other one. -/
theorem HasIntervals.subset {left right : List Interval} (hleft : function.HasIntervals left)
    (hright : function.HasIntervals right) : left ⊆ right := by
  intro interval hmem
  have hlive := (hleft.live interval.dest).mp ⟨interval, hmem, rfl⟩
  obtain ⟨other, hother, hdest⟩ := (hright.live interval.dest).mpr hlive
  rwa [(hleft.exact interval hmem).unique (hright.exact other hother) hdest.symm]

/-- The intervals of a function are exact: a list consists of one exact interval for each
destination that is live somewhere, in order, if and only if it is the list of them. -/
theorem hasIntervals_iff (function : Function) (intervals : List Interval) :
    function.HasIntervals intervals ↔ intervals = function.intervals function.liveness := by
  have hown := hasIntervals_intervals function
  constructor
  · intro h
    exact List.Subset.antisymm_of_pairwise h.ordered hown.ordered (h.subset hown) (hown.subset h)
  · rintro rfl
    exact hown

/-- A write to a destination that is live elsewhere belongs to its interval, and of two intervals
with the same ends the one of the smaller destination comes first. -/
example :
    (let function : Function := ⟨"f", ["c", "b", "a"], [], [
      .call "g" [.var "c", .var "b", .var "a"] none, .ret none, .move (.var "c") (.int 0)]⟩
    (function.intervals function.liveness).map fun interval =>
      (interval.dest, interval.first, interval.last)) =
      [(.var "a", 0, 1), (.var "b", 0, 1), (.var "c", 0, 6)] := by decide

end Function

end ThreeAddress
