import ThreeAddress.Proofs.Lowering.Independence
import ThreeAddress.Proofs.Registers.Pressure

/-!
# What the order of preference decides

Linear scan hands out registers without looking ahead. So the order of preference can
decide whether it finds an assignment: an interval that may have any register may be given
one of the few which an interval that crosses a call or a division will need. This is the
only way in which it can, and it takes as many live intervals as the later one may have
registers. Otherwise either all orders of preference find an assignment or none does.
-/

namespace ThreeAddress

namespace Interval

/-- An interval may have a register that another one may not have. -/
def Freer (left right : Interval) : Prop :=
  ∃ register ∈ Register.allocatable,
    left.permits register = true ∧ right.permits register = false

instance (left right : Interval) : Decidable (left.Freer right) :=
  inferInstanceAs (Decidable (∃ _ ∈ _, _))

/-- An interval is live where a more restricted one starts. -/
def Hinders (left right : Interval) : Prop :=
  left.Covers right.first ∧ left.Freer right

instance (left right : Interval) : Decidable (left.Hinders right) :=
  inferInstanceAs (Decidable (_ ∧ _))

/-- Crossing a call is the stronger restriction, because a division leaves alone whatever a call
leaves alone. -/
theorem freer_iff {left right : Interval} :
    left.Freer right ↔ (right.crossesCall = true ∧ left.crossesCall = false) ∨
      (right.crossesDivision = true ∧ left.crossesCall = false ∧ left.crossesDivision = false) := by
  obtain ⟨_, _, _, leftCall, leftDivision⟩ := left
  obtain ⟨_, _, _, rightCall, rightDivision⟩ := right
  simp only [Freer, permits]
  cases leftCall <;> cases leftDivision <;> cases rightCall <;> cases rightDivision <;> decide

end Interval

namespace LinearScan

variable {scan other : LinearScan} {function : Function} {assignment result : Assignment}
  {before after : List Interval} {interval : Interval} {error : OutOfRegisters}

/-- The registers that an interval may have. -/
def eligible (interval : Interval) : List Register :=
  Register.allocatable.filter interval.permits

/-- The placed intervals that are live where an interval starts, in registers that it may have. -/
def holders (placed : List Interval) (assignment : Assignment) (interval : Interval) :
    List Interval :=
  placed.filter fun earlier => decide (earlier.Covers interval.first ∧
    ∃ register ∈ eligible interval, assignment.register? earlier.dest = some register)

/-- An interval starts while an earlier one with fewer restrictions is live, and enough are live to
hold every register that it may have. -/
def Contended (function : Function) : Prop :=
  ∃ index < (function.intervals function.liveness).length,
    ∃ interval ∈ (function.intervals function.liveness)[index]?,
      (∃ earlier ∈ (function.intervals function.liveness).take index,
        earlier.Hinders interval) ∧
      (eligible interval).length ≤
        pressure ((function.intervals function.liveness).take index) interval.first

instance (function : Function) : Decidable (Contended function) :=
  inferInstanceAs (Decidable (∃ _ < _, ∃ _ ∈ _, _ ∧ _))

theorem mem_eligible {register : Register} :
    register ∈ eligible interval ↔
      register ∈ Register.allocatable ∧ interval.permits register = true :=
  List.mem_filter

theorem mem_holders {placed : List Interval} {earlier : Interval} :
    earlier ∈ holders placed assignment interval ↔
      earlier ∈ placed ∧ earlier.Covers interval.first ∧
        ∃ register ∈ eligible interval, assignment.register? earlier.dest = some register := by
  rw [holders, List.mem_filter, decide_eq_true_eq]

theorem length_holders_le {placed : List Interval} :
    (holders placed assignment interval).length ≤ pressure placed interval.first := by
  rw [pressure, List.countP_eq_length_filter]
  exact (List.monotone_filter_right placed fun earlier hholder =>
    decide_eq_true (of_decide_eq_true hholder).1).length_le

theorem Exhausted.length_eligible_le {placed : List Interval}
    (h : Exhausted placed assignment interval) :
    (eligible interval).length ≤ (holders placed assignment interval).length := by
  have hnodup : (eligible interval).Nodup := List.Nodup.filter _ (by decide)
  have hheld : ∀ register ∈ eligible interval,
      ∃ earlier ∈ holders placed assignment interval, earlier.Covers interval.first ∧
        assignment.register? earlier.dest = some register := by
    intro register hregister
    obtain ⟨hallocatable, hpermits⟩ := mem_eligible.mp hregister
    obtain ⟨earlier, hplaced, hcovers, hheld⟩ := h register hallocatable hpermits
    exact ⟨earlier, mem_holders.mpr ⟨hplaced, hcovers, register, hregister, hheld⟩, hcovers, hheld⟩
  exact (length_le_pressure hnodup hheld).trans List.countP_le_length

/-- If no holder is freer than the interval, a scan that places them all gives each of them, and the
interval as well, a register of its own that the interval may have. -/
theorem length_holders_lt (hpool : scan.pool.Perm Register.allocatable)
    (hassign : scan.assign function = .ok assignment)
    (hsplit : function.intervals function.liveness = before ++ interval :: after)
    (hfreer : ∀ earlier ∈ holders before result interval, ¬ earlier.Freer interval) :
    (holders before result interval).length < (eligible interval).length := by
  have hsublist : (holders before result interval ++ [interval]).Sublist
      (function.intervals function.liveness) := by
    rw [hsplit]
    exact List.filter_sublist.append (List.singleton_sublist.mpr List.mem_cons_self)
  have hspan : interval.first ≤ interval.last :=
    (upcoming_intervals function).span interval (by simp [hsplit])
  have hcovers : ∀ covering ∈ holders before result interval ++ [interval],
      covering.Covers interval.first := by
    intro covering hmem
    rcases List.mem_append.mp hmem with hholder | hself
    · exact (mem_holders.mp hholder).2.1
    · rw [List.mem_singleton.mp hself]
      exact ⟨Nat.le_refl _, hspan⟩
  have heligible : ∀ covering ∈ holders before result interval ++ [interval],
      ∀ register ∈ Register.allocatable, covering.permits register = true →
        register ∈ eligible interval := by
    intro covering hmem register hallocatable hpermits
    refine mem_eligible.mpr ⟨hallocatable, ?_⟩
    rcases List.mem_append.mp hmem with hholder | hself
    · by_contra hnot
      exact hfreer covering hholder
        ⟨register, hallocatable, hpermits, Bool.eq_false_iff.mpr hnot⟩
    · exact List.mem_singleton.mp hself ▸ hpermits
  have hle := length_le_of_assign hpool hassign hsublist hcovers heligible
  rw [List.length_append, List.length_singleton] at hle
  omega

/-- A scan fails for an interval that crosses a call or a division. Enough intervals are live where
it starts to hold every register that it may have, and one of them is freer and has been given a
register that it might have had. -/
def Displaces (scan : LinearScan) (function : Function) (error : OutOfRegisters) : Prop :=
  ∃ before interval after result,
    function.intervals function.liveness = before ++ interval :: after ∧
    scan.place function before [] (unplaced function) = .ok result ∧
    error = ⟨function.name, interval.dest⟩ ∧
    (interval.crossesCall = true ∨ interval.crossesDivision = true) ∧
    (eligible interval).length ≤ pressure before interval.first ∧
    ∃ earlier ∈ before, earlier.Hinders interval ∧
      ∃ register, interval.permits register = true ∧
        result.register? earlier.dest = some register

/-- If a scan fails where another one succeeds, it has given away a register too freely. -/
theorem displaces_of_assign (hpool : scan.pool.Perm Register.allocatable)
    (hpool' : other.pool.Perm Register.allocatable)
    (hfails : scan.assign function = .error error)
    (hfinds : other.assign function = .ok assignment) : scan.Displaces function error := by
  obtain ⟨before, interval, after, result, hsplit, hplace, hexhausted, rfl⟩ :=
    (assign_eq_error_iff hpool).mp hfails
  obtain ⟨earlier, hholder, hfreer⟩ :
      ∃ earlier ∈ holders before result interval, earlier.Freer interval := by
    by_contra hnone
    have hlt : (holders before result interval).length < (eligible interval).length :=
      length_holders_lt hpool' hfinds hsplit fun earlier hholder hfreer =>
        hnone ⟨earlier, hholder, hfreer⟩
    exact absurd hexhausted.length_eligible_le (Nat.not_le.mpr hlt)
  obtain ⟨hbefore, hcovers, register, hregister, hheld⟩ := mem_holders.mp hholder
  refine ⟨before, interval, after, result, hsplit, hplace, rfl, ?_,
    hexhausted.length_eligible_le.trans length_holders_le, earlier, hbefore, ⟨hcovers, hfreer⟩,
    register, (mem_eligible.mp hregister).2, hheld⟩
  exact (Interval.freer_iff.mp hfreer).imp And.left And.left

theorem Displaces.contended (h : scan.Displaces function error) : Contended function := by
  obtain ⟨before, interval, after, _, hsplit, _, _, _, hlive, earlier, hbefore, hhinders, _⟩ := h
  refine ⟨before.length, by simp [hsplit], interval, by simp [hsplit], ?_⟩
  rw [hsplit, List.take_left]
  exact ⟨⟨earlier, hbefore, hhinders⟩, hlive⟩

/-- Five intervals that are live at the same time are not enough. -/
theorem not_contended_of_pressure_le
    (h : ∀ point, pressure (function.intervals function.liveness) point ≤ 5) :
    ¬ Contended function := by
  rintro ⟨index, hindex, interval, hinterval, _, hlive⟩
  have hsplit : function.intervals function.liveness =
      (function.intervals function.liveness).take index ++
        interval :: (function.intervals function.liveness).drop (index + 1) := by
    obtain ⟨_, rfl⟩ := List.getElem?_eq_some_iff.mp hinterval
    rw [List.getElem_cons_drop, List.take_append_drop]
  have hself : interval.Covers interval.first :=
    ⟨Nat.le_refl _, (upcoming_intervals function).span interval (List.mem_of_getElem? hinterval)⟩
  have hpressure := h interval.first
  rw [hsplit, pressure, List.countP_append, List.countP_cons, decide_eq_true hself,
    if_pos rfl] at hpressure
  have heligible : Register.calleeSaved ⊆ eligible interval := fun register hregister =>
    mem_eligible.mpr (permits_of_mem_calleeSaved interval register hregister)
  have hlength : Register.calleeSaved.length ≤ (eligible interval).length :=
    (List.subperm_of_subset (by decide) heligible).length_le
  change 5 ≤ _ at hlength
  rw [pressure] at hlive
  omega

/-- Unless there is contention, a scan that finds an assignment shows that every one does. -/
theorem exists_assign_of_not_contended (hpool : scan.pool.Perm Register.allocatable)
    (hpool' : other.pool.Perm Register.allocatable) (hcontended : ¬ Contended function)
    (hfinds : ∃ assignment, other.assign function = .ok assignment) :
    ∃ assignment, scan.assign function = .ok assignment := by
  obtain ⟨assignment, hassign⟩ := hfinds
  cases hfails : scan.assign function with
  | ok assignment => exact ⟨assignment, rfl⟩
  | error error =>
      exact absurd (displaces_of_assign hpool hpool' hfails hassign).contended hcontended

/-- Both orders of preference find an assignment or neither does. -/
theorem exists_assign_iff_of_not_contended (seed : UInt64) (hcontended : ¬ Contended function) :
    (∃ assignment, standard.assign function = .ok assignment) ↔
      ∃ assignment, (seeded seed).assign function = .ok assignment :=
  ⟨exists_assign_of_not_contended (seeded_pool_perm seed) standard_pool_perm hcontended,
    exists_assign_of_not_contended standard_pool_perm (seeded_pool_perm seed) hcontended⟩

/-- A program is compiled if there are registers for the destinations, the parameters and the
arguments of each of its functions. -/
theorem exists_compile_iff_assign (hpool : scan.pool.Perm Register.allocatable)
    {program : Program} :
    (∃ asm, program.compile scan.assign = .ok asm) ↔ ∀ function ∈ program.functions,
      (∃ assignment, scan.assign function = .ok assignment) ∧ function.excess? = none := by
  have hfailure : ∀ function : Function,
      function.failure? scan.assign = function.refusal? scan.assign := fun function =>
    Function.failure?_eq_refusal? fun _ hassign => assign_legal hpool hassign
  rw [Program.exists_compile_iff]
  exact forall₂_congr fun function _ => by rw [hfailure, Function.refusal?_eq_none_iff]

/-- A seed changes which assignment is found and not whether there is one, unless an interval that
crosses a call or a division starts while a freer one is live and enough are live to hold every
register that it may have. So it never does with at most five live at a time. A program of such
functions is compiled in either order of preference or in neither. Whatever the function, the order
that fails where the other one succeeds has given such a freer interval a register which the later
one then lacks. -/
theorem assign_either_order (seed : UInt64) :
    (∀ function : Function, ¬ Contended function →
      ((∃ assignment, standard.assign function = .ok assignment) ↔
        ∃ assignment, (seeded seed).assign function = .ok assignment)) ∧
    (∀ program : Program, (∀ function ∈ program.functions, ¬ Contended function) →
      ((∃ asm, program.compile standard.assign = .ok asm) ↔
        ∃ asm, program.compile (seeded seed).assign = .ok asm)) ∧
    (∀ function : Function,
      (∀ point, pressure (function.intervals function.liveness) point ≤ 5) →
      ¬ Contended function) ∧
    ∀ scan ∈ [standard, seeded seed], ∀ other ∈ [standard, seeded seed],
      ∀ function assignment error, other.assign function = .ok assignment →
        scan.assign function = .error error → scan.Displaces function error := by
  have hpools : ∀ scan ∈ [standard, seeded seed], scan.pool.Perm Register.allocatable := by
    simp [standard_pool_perm, seeded_pool_perm]
  refine ⟨fun function => exists_assign_iff_of_not_contended seed, fun program hcontended => ?_,
    fun _ => not_contended_of_pressure_le,
    fun scan hscan other hother function assignment error hfinds hfails =>
      displaces_of_assign (hpools scan hscan) (hpools other hother) hfails hfinds⟩
  rw [exists_compile_iff_assign standard_pool_perm,
    exists_compile_iff_assign (seeded_pool_perm seed)]
  exact forall₂_congr fun function hfunction =>
    and_congr_left' (exists_assign_iff_of_not_contended seed (hcontended function hfunction))

/-- Sets values in one order and prints them in another one. All but the first one that is printed
live through a call. -/
def printing (values printed : List UInt32) : Function where
  name := "main"
  params := []
  locals := []
  code := values.map (fun number => .move (.temp number) (.int number.toInt32)) ++
    printed.map (fun number => .call "printInt" [.temp number] none) ++ [.ret none]

/-- Two values are no contention. Neither are six if the one that lives through no call is set last
and finds what the others leave. -/
theorem assign_either_order_last :
    ∀ function ∈ [printing [0, 1] [0, 1], printing [1, 2, 3, 4, 5, 0] [0, 1, 2, 3, 4, 5]],
      ¬ Contended function ∧
      (∃ assignment, standard.assign function = .ok assignment) ∧
      ∃ assignment, (seeded 0).assign function = .ok assignment := by
  intro function hfunction
  have hcontended : ¬ Contended function := by
    revert function
    decide +kernel
  have hstandard : ∃ assignment, standard.assign function = .ok assignment := by
    rcases List.mem_pair.mp hfunction with rfl | rfl <;> exact ⟨_, rfl⟩
  exact ⟨hcontended, hstandard, ((assign_either_order 0).1 _ hcontended).mp hstandard⟩

/-- If it is set first, the seed 0 gives it one of the five registers that the others need. -/
theorem seed_decides_first :
    ¬ ((∃ assignment, standard.assign (printing [0, 1, 2, 3, 4, 5] [0, 1, 2, 3, 4, 5]) =
        .ok assignment) ↔
      ∃ assignment, (seeded 0).assign (printing [0, 1, 2, 3, 4, 5] [0, 1, 2, 3, 4, 5]) =
        .ok assignment) := by
  have hstandard : ∃ assignment,
      standard.assign (printing [0, 1, 2, 3, 4, 5] [0, 1, 2, 3, 4, 5]) = .ok assignment :=
    ⟨_, rfl⟩
  have hseeded : (seeded 0).assign (printing [0, 1, 2, 3, 4, 5] [0, 1, 2, 3, 4, 5]) =
      .error ⟨"main", .temp 5⟩ := by
    decide +kernel
  intro hsame
  obtain ⟨assignment, hassign⟩ := hsame.mp hstandard
  cases hassign.symm.trans hseeded

end LinearScan

end ThreeAddress
