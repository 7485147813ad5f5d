import ThreeAddress.Proofs.Liveness.Extent
import ThreeAddress.Proofs.Registers.LinearScan

/-!
# When registers run out

While an interval is placed, the registers in use are those of the earlier intervals
that cover its first point. So linear scan fails only where these hold every register
that the interval may have. Five registers may hold any interval, and twelve may hold
one that crosses neither a call nor a division, which bounds from below how many
intervals cover the point of a failure.
-/

namespace ThreeAddress

/-- A point belongs to an interval. -/
def Interval.Covers (interval : Interval) (point : Nat) : Prop :=
  interval.first ≤ point ∧ point ≤ interval.last

instance (interval : Interval) (point : Nat) : Decidable (interval.Covers point) :=
  inferInstanceAs (Decidable (_ ∧ _))

/-- How many intervals a point belongs to. -/
def pressure (intervals : List Interval) (point : Nat) : Nat :=
  intervals.countP fun interval => decide (interval.Covers point)

namespace LinearScan

/-- Each register that an interval may have is held by a placed interval that covers its first
point. -/
def Exhausted (placed : List Interval) (assignment : Assignment) (interval : Interval) : Prop :=
  ∀ register ∈ Register.allocatable, interval.permits register = true →
    ∃ other ∈ placed, other.Covers interval.first ∧
      assignment.register? other.dest = some register

/-- What is in use once the intervals in `placed` have been placed, none of which starts after
`point`: the registers of those that do not end before it. -/
structure InUse (placed : List Interval) (point : Nat) (active : List Active)
    (assignment : Assignment) : Prop where
  started : ∀ interval ∈ placed, interval.first ≤ point
  mem_iff : ∀ held, held ∈ active ↔ ∃ interval ∈ placed, interval.last = held.last ∧
    point ≤ interval.last ∧ assignment.register? interval.dest = some held.register

/-- Intervals that are still to be placed after those in `placed`, from `point` on. -/
structure Upcoming (placed rest : List Interval) (point : Nat) : Prop where
  span : ∀ interval ∈ rest, interval.first ≤ interval.last
  sorted : rest.Pairwise (·.first ≤ ·.first)
  later : ∀ interval ∈ rest, point ≤ interval.first
  nodup : ((rest ++ placed).map (·.dest)).Nodup

variable {scan : LinearScan} {function : Function} {interval : Interval}
  {placed rest : List Interval} {point point' : Nat} {active : List Active}
  {assignment result : Assignment} {register : Register} {error : OutOfRegisters}

/-! ## What is in use -/

theorem InUse.advance (h : InUse placed point active assignment) (hpoint : point ≤ point') :
    InUse placed point' (stillActive active point') assignment := by
  refine ⟨fun interval hplaced => (h.started interval hplaced).trans hpoint, fun held => ?_⟩
  rw [stillActive, List.mem_filter, h.mem_iff, decide_eq_true_eq]
  constructor
  · rintro ⟨⟨interval, hplaced, hlast, _, hregister⟩, hheld⟩
    exact ⟨interval, hplaced, hlast, hlast ▸ hheld, hregister⟩
  · rintro ⟨interval, hplaced, hlast, hends, hregister⟩
    exact ⟨⟨interval, hplaced, hlast, hpoint.trans hends, hregister⟩, hlast ▸ hends⟩

theorem InUse.place (h : InUse placed interval.first active assignment)
    (hspan : interval.first ≤ interval.last) (hnew : ∀ other ∈ placed, other.dest ≠ interval.dest)
    (register : Register) :
    InUse (interval :: placed) interval.first (⟨interval.last, register⟩ :: active)
      (assignment.set interval.dest (some register)) := by
  refine ⟨List.forall_mem_cons.mpr ⟨Nat.le_refl _, h.started⟩, fun held => ?_⟩
  -- Earlier intervals stay where they are.
  have hplaced : (∃ other ∈ placed, other.last = held.last ∧ interval.first ≤ other.last ∧
      (assignment.set interval.dest (some register)).register? other.dest =
        some held.register) ↔ held ∈ active := by
    rw [h.mem_iff]
    refine exists_congr fun other => and_congr_right fun hother => ?_
    rw [Assignment.register?_set, if_neg (hnew other hother).symm]
  rw [List.mem_cons, List.exists_mem_cons_iff, hplaced, Assignment.register?_set, if_pos rfl]
  refine or_congr_left ⟨?_, ?_⟩
  · rintro rfl
    exact ⟨rfl, hspan, rfl⟩
  · rintro ⟨hlast, _, hregister⟩
    obtain ⟨last, register'⟩ := held
    obtain rfl : interval.last = last := hlast
    obtain rfl : register = register' := Option.some.inj hregister
    rfl

theorem Upcoming.tail (h : Upcoming placed (interval :: rest) point) :
    Upcoming (interval :: placed) rest interval.first := by
  obtain ⟨hspan, hsorted, _, hnodup⟩ := h
  obtain ⟨hfirst, hrest⟩ := List.pairwise_cons.mp hsorted
  refine ⟨(List.forall_mem_cons.mp hspan).2, hrest, hfirst, ?_⟩
  have hperm : (rest ++ interval :: placed).Perm (interval :: rest ++ placed) := List.perm_middle
  exact (hperm.map _).nodup_iff.mpr hnodup

theorem Upcoming.ne_dest (h : Upcoming placed (interval :: rest) point) :
    ∀ other ∈ placed, other.dest ≠ interval.dest := by
  intro other hmem heq
  have hnodup := h.nodup
  rw [List.cons_append, List.map_cons, List.nodup_cons] at hnodup
  exact hnodup.1 (heq ▸ List.mem_map_of_mem (List.mem_append_right _ hmem))

/-- What is in use after one more interval has been placed. -/
theorem InUse.next (h : InUse placed point active assignment)
    (hrest : Upcoming placed (interval :: rest) point) (register : Register) :
    InUse (interval :: placed) interval.first
      (⟨interval.last, register⟩ :: stillActive active interval.first)
      (assignment.set interval.dest (some register)) :=
  (h.advance (hrest.later interval List.mem_cons_self)).place
    (hrest.span interval List.mem_cons_self) hrest.ne_dest register

/-! ## Where the scan fails -/

/-- No register is chosen if and only if each one that the interval may have is in use. -/
theorem choose?_eq_none_iff (hpool : scan.pool.Perm Register.allocatable) :
    scan.choose? function active interval = none ↔
      ∀ register ∈ Register.allocatable, interval.permits register = true →
        ∃ held ∈ active, held.register = register := by
  have hfree : ∀ register, isFree active interval register = false ↔
      (interval.permits register = true → ∃ held ∈ active, held.register = register) := by
    intro register
    simp [isFree]
  constructor
  · intro h register hallocatable
    unfold choose? at h
    split at h
    next => cases h
    next =>
      have hnone := List.find?_eq_none.mp h register (hpool.mem_iff.mpr hallocatable)
      exact (hfree register).mp (Bool.eq_false_iff.mpr hnone)
  · intro h
    have hbusy : ∀ register ∈ Register.allocatable, ¬ isFree active interval register = true :=
      fun register hallocatable =>
        Bool.eq_false_iff.mp ((hfree register).mpr (h register hallocatable))
    unfold choose?
    split
    next hinted hfilter =>
      -- A hinted register is one of those that may be handed out.
      obtain ⟨hhint, hchosen⟩ := Option.filter_eq_some_iff.mp hfilter
      exact absurd hchosen (hbusy hinted (hint?_allocatable hhint))
    next =>
      exact List.find?_eq_none.mpr fun register hmem =>
        hbusy register (hpool.mem_iff.mp hmem)

theorem InUse.choose?_eq_none_iff (h : InUse placed interval.first active assignment)
    (hpool : scan.pool.Perm Register.allocatable) :
    scan.choose? function active interval = none ↔ Exhausted placed assignment interval := by
  rw [LinearScan.choose?_eq_none_iff hpool]
  refine forall₂_congr fun register _ => imp_congr_right fun _ => ?_
  constructor
  · rintro ⟨held, hheld, rfl⟩
    obtain ⟨other, hother, _, hends, hregister⟩ := (h.mem_iff held).mp hheld
    exact ⟨other, hother, ⟨h.started other hother, hends⟩, hregister⟩
  · rintro ⟨other, hother, ⟨_, hends⟩, hregister⟩
    exact ⟨⟨other.last, register⟩, (h.mem_iff _).mpr ⟨other, hother, rfl, hends, hregister⟩, rfl⟩

/-- The scan fails at the first interval for which no register is left. -/
theorem place_eq_error_iff (hpool : scan.pool.Perm Register.allocatable)
    (h : InUse placed point active assignment) (hrest : Upcoming placed rest point) :
    scan.place function rest active assignment = .error error ↔
      ∃ before interval after result, rest = before ++ interval :: after ∧
        scan.place function before active assignment = .ok result ∧
        Exhausted (before.reverse ++ placed) result interval ∧
        error = ⟨function.name, interval.dest⟩ := by
  induction rest generalizing placed point active assignment with
  | nil => simp [place]
  | cons interval rest ih =>
      have hactive := h.advance (hrest.later interval List.mem_cons_self)
      rw [place]
      cases hchoose : scan.choose? function (stillActive active interval.first) interval with
      | none =>
          constructor
          · intro hfails
            obtain rfl := Except.error.inj hfails
            exact ⟨[], interval, rest, assignment, rfl, rfl,
              (hactive.choose?_eq_none_iff hpool).mp hchoose, rfl⟩
          · rintro ⟨before, other, after, result, hsplit, hplace, _, rfl⟩
            cases before with
            | nil =>
                obtain ⟨rfl, rfl⟩ := List.cons.inj hsplit
                rfl
            | cons head before =>
                obtain ⟨rfl, rfl⟩ := List.cons.inj hsplit
                simp only [place, hchoose] at hplace
                cases hplace
      | some register =>
          dsimp only
          rw [ih (h.next hrest register) hrest.tail]
          constructor
          · rintro ⟨before, other, after, result, rfl, hplace, hexhausted, rfl⟩
            refine ⟨interval :: before, other, after, result, rfl, ?_, ?_, rfl⟩
            · simpa only [place, hchoose] using hplace
            · simpa using hexhausted
          · rintro ⟨before, other, after, result, hsplit, hplace, hexhausted, rfl⟩
            cases before with
            | nil =>
                obtain ⟨rfl, rfl⟩ := List.cons.inj hsplit
                obtain rfl := Except.ok.inj hplace
                have hnone : scan.choose? function _ _ = none :=
                  (hactive.choose?_eq_none_iff hpool).mpr hexhausted
                cases hchoose.symm.trans hnone
            | cons head before =>
                obtain ⟨rfl, rfl⟩ := List.cons.inj hsplit
                refine ⟨before, other, after, result, rfl, ?_, ?_, rfl⟩
                · simpa only [place, hchoose] using hplace
                · simpa using hexhausted

theorem inUse_nil (assignment : Assignment) : InUse [] 0 [] assignment :=
  ⟨by simp, by simp⟩

theorem upcoming_intervals (function : Function) :
    Upcoming [] (function.intervals function.liveness) 0 where
  span := fun interval hmem =>
    have hexact := (Function.hasIntervals_intervals function).exact interval hmem
    hexact.first.2 hexact.last.1
  sorted := Function.intervals_sorted
  later := fun _ _ => Nat.zero_le _
  nodup := by simpa using Function.nodup_intervals_dest

theorem assign_eq_error_iff (hpool : scan.pool.Perm Register.allocatable) :
    scan.assign function = .error error ↔
      ∃ before interval after result,
        function.intervals function.liveness = before ++ interval :: after ∧
        scan.place function before [] (unplaced function) = .ok result ∧
        Exhausted before result interval ∧ error = ⟨function.name, interval.dest⟩ := by
  rw [assign, place_eq_error_iff hpool (inUse_nil _) (upcoming_intervals function)]
  simp [Exhausted]

/-! ## How many intervals cover a point -/

/-- Intervals that hold different registers are counted by these. -/
theorem length_le_pressure {registers : List Register} (hnodup : registers.Nodup)
    (h : ∀ register ∈ registers, ∃ other ∈ placed, other.Covers point ∧
      assignment.register? other.dest = some register) :
    registers.length ≤ pressure placed point := by
  have hsubset : registers.map some ⊆
      (placed.filter fun other => decide (other.Covers point)).map
        fun other => assignment.register? other.dest := by
    intro held hheld
    obtain ⟨register, hregister, rfl⟩ := List.mem_map.mp hheld
    obtain ⟨other, hother, hcovers, heq⟩ := h register hregister
    exact List.mem_map.mpr
      ⟨other, List.mem_filter.mpr ⟨hother, decide_eq_true hcovers⟩, heq⟩
  have hmap : (registers.map some).Nodup := hnodup.map (Option.some_injective _)
  have hle := (List.subperm_of_subset hmap hsubset).length_le
  rwa [List.length_map, List.length_map, ← List.countP_eq_length_filter] at hle

/-- An interval that finds no register shares its first point with more intervals than there are
registers that it may have. -/
theorem Exhausted.lt_pressure (h : Exhausted placed assignment interval)
    (hspan : interval.first ≤ interval.last) {registers : List Register}
    (hnodup : registers.Nodup) (hregisters : ∀ register ∈ registers,
      register ∈ Register.allocatable ∧ interval.permits register = true)
    (after : List Interval) :
    registers.length < pressure (placed ++ interval :: after) interval.first := by
  have hle : registers.length ≤ pressure placed interval.first :=
    length_le_pressure hnodup fun register hmem =>
      h register (hregisters register hmem).1 (hregisters register hmem).2
  have hself : pressure (interval :: after) interval.first =
      pressure after interval.first + 1 :=
    List.countP_cons_of_pos (decide_eq_true ⟨Nat.le_refl _, hspan⟩)
  have hsplit : pressure (placed ++ interval :: after) interval.first =
      pressure placed interval.first + pressure (interval :: after) interval.first :=
    List.countP_append
  omega

/-- Registers that may hold any interval are enough where no more intervals cover a point. -/
theorem exists_assign_of_pressure_le (hpool : scan.pool.Perm Register.allocatable)
    {registers : List Register} (hnodup : registers.Nodup)
    (hregisters : ∀ interval ∈ function.intervals function.liveness, ∀ register ∈ registers,
      register ∈ Register.allocatable ∧ interval.permits register = true)
    (hpressure : ∀ point,
      pressure (function.intervals function.liveness) point ≤ registers.length) :
    ∃ assignment, scan.assign function = .ok assignment := by
  cases hassign : scan.assign function with
  | ok assignment => exact ⟨assignment, rfl⟩
  | error error =>
      obtain ⟨before, interval, after, result, hsplit, _, hexhausted, _⟩ :=
        (assign_eq_error_iff hpool).mp hassign
      have hmem : interval ∈ function.intervals function.liveness := by
        rw [hsplit]
        exact List.mem_append_right _ List.mem_cons_self
      have hspan := (upcoming_intervals function).span interval hmem
      have hlt := hexhausted.lt_pressure hspan hnodup (hregisters interval hmem) after
      rw [← hsplit] at hlt
      exact absurd (hpressure interval.first) (Nat.not_le.mpr hlt)

/-- The registers that neither calls nor divisions overwrite may hold any interval. -/
theorem permits_of_mem_calleeSaved (interval : Interval) :
    ∀ register ∈ Register.calleeSaved,
      register ∈ Register.allocatable ∧ interval.permits register = true := by
  have hkept : ∀ register ∈ Register.calleeSaved, register ∈ Register.allocatable ∧
      register.isCalleeSaved = true ∧ register.isDivisionClobbered = false := by decide
  intro register hmem
  obtain ⟨hallocatable, hsaved, hclobbered⟩ := hkept register hmem
  exact ⟨hallocatable, by simp [Interval.permits, hsaved, hclobbered]⟩

/-- Any register may hold an interval that crosses neither a call nor a division. -/
theorem permits_of_not_crosses (hcall : interval.crossesCall = false)
    (hdivision : interval.crossesDivision = false) (register : Register) :
    interval.permits register = true := by
  simp [Interval.permits, hcall, hdivision]

/-- Of intervals that were all placed, those that cover a point are no more than the registers that
they may have. -/
theorem length_le_of_assign (hpool : scan.pool.Perm Register.allocatable)
    (h : scan.assign function = .ok assignment) {covering : List Interval}
    (hsublist : covering.Sublist (function.intervals function.liveness))
    (hcovers : ∀ interval ∈ covering, interval.Covers point) {registers : List Register}
    (hregisters : ∀ interval ∈ covering, ∀ register ∈ Register.allocatable,
      interval.permits register = true → register ∈ registers) :
    covering.length ≤ registers.length := by
  obtain ⟨⟨_, _, hplacing⟩, _⟩ := assign_spec hpool h
  have hmem : ∀ interval ∈ covering, interval ∈ (function.intervals function.liveness).reverse :=
    fun interval hinterval => List.mem_reverse.mpr (hsublist.subset hinterval)
  have hdests : covering.Pairwise (·.dest ≠ ·.dest) :=
    (List.pairwise_map.mp Function.nodup_intervals_dest).sublist hsublist
  have hnodup : (covering.map fun interval => assignment.register? interval.dest).Nodup := by
    refine List.pairwise_map.mpr (hdests.imp_of_mem fun {left right} hleft hright hne => ?_)
    exact hplacing.apart left (hmem left hleft) right (hmem right hright) hne
      (.of_point point (hcovers left hleft) (hcovers right hright))
  have hsubset : (covering.map fun interval => assignment.register? interval.dest) ⊆
      registers.map some := by
    intro held hheld
    obtain ⟨interval, hinterval, rfl⟩ := List.mem_map.mp hheld
    obtain ⟨register, hregister, hallocatable, hpermits⟩ :=
      hplacing.placed interval (hmem interval hinterval)
    exact List.mem_map.mpr
      ⟨register, hregisters interval hinterval register hallocatable hpermits, hregister.symm⟩
  simpa using (List.subperm_of_subset hnodup hsubset).length_le

theorem pressure_le_of_assign (hpool : scan.pool.Perm Register.allocatable)
    (h : scan.assign function = .ok assignment) (point : Nat) :
    pressure (function.intervals function.liveness) point ≤ Register.allocatable.length := by
  rw [pressure, List.countP_eq_length_filter]
  exact length_le_of_assign hpool h List.filter_sublist
    (fun interval hinterval => of_decide_eq_true (List.mem_filter.mp hinterval).2)
    fun _ _ _ hallocatable _ => hallocatable

/-- Linear scan runs out of registers only under pressure, in either order of preference. It fails
for an interval if and only if earlier intervals that cover its first point hold every register that
it may have. With at most five intervals at a point it succeeds. If no interval crosses a call or a
division, it succeeds if and only if there are at most twelve at each point. -/
theorem assign_under_pressure (seed : Option UInt64) (function : Function) :
    let scan := seed.elim standard seeded
    let intervals := function.intervals function.liveness
    (∀ error, scan.assign function = .error error ↔
      ∃ before interval after result, intervals = before ++ interval :: after ∧
        scan.place function before [] (unplaced function) = .ok result ∧
        Exhausted before result interval ∧ error = ⟨function.name, interval.dest⟩) ∧
      ((∀ point, pressure intervals point ≤ 5) →
        ∃ assignment, scan.assign function = .ok assignment) ∧
      ((∀ interval ∈ intervals,
          interval.crossesCall = false ∧ interval.crossesDivision = false) →
        ((∃ assignment, scan.assign function = .ok assignment) ↔
          ∀ point, pressure intervals point ≤ 12)) := by
  intro scan intervals
  have hpool : scan.pool.Perm Register.allocatable := by
    cases seed with
    | none => exact standard_pool_perm
    | some seed => exact seeded_pool_perm seed
  refine ⟨fun error => assign_eq_error_iff hpool, fun hpressure => ?_, fun hplain => ⟨?_, ?_⟩⟩
  · have hnodup : Register.calleeSaved.Nodup := by decide
    exact exists_assign_of_pressure_le hpool hnodup
      (fun interval _ => permits_of_mem_calleeSaved interval) hpressure
  · rintro ⟨assignment, hassign⟩ point
    exact pressure_le_of_assign hpool hassign point
  · intro hpressure
    have hnodup : Register.allocatable.Nodup := by decide
    refine exists_assign_of_pressure_le hpool hnodup (fun interval hmem register hregister => ?_)
      hpressure
    obtain ⟨hcall, hdivision⟩ := hplain interval hmem
    exact ⟨hregister, permits_of_not_crosses hcall hdivision register⟩

/-- Of six values that live through a call, the sixth finds no register. -/
example :
    standard.assign ⟨"main", ["a", "b", "c", "d", "e", "f"], [], [
      .call "printStr" [] none,
      .call "g" [.var "a", .var "b", .var "c", .var "d", .var "e", .var "f"] none]⟩ =
      .error ⟨"main", .var "f"⟩ := by decide

end LinearScan

end ThreeAddress
