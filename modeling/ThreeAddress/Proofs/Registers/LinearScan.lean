import ThreeAddress.Proofs.Liveness.Interval
import ThreeAddress.Proofs.Registers.Legality
import ThreeAddress.Registers.LinearScan

/-!
# Linear scan keeps live destinations apart

The registers in use when an interval is placed include those of all earlier
intervals that still cover its first point, because the intervals stand in the
order in which they start. So no register is handed out twice for one point, and
what is live across a call or a division is placed out of its way.
-/

namespace ThreeAddress

namespace Assignment

theorem find?_setEntry (dest other : Dest) (register : Option Register)
    (entries : List (Dest × Option Register)) :
    find? other (setEntry dest register entries) =
      if dest = other then register else find? other entries := by
  induction entries with
  | nil => simp [setEntry, find?]
  | cons entry rest ih =>
      unfold setEntry
      split
      next hkey =>
        by_cases h : dest = other
        · simp [find?, h]
        · simp [find?, h, ← hkey]
      next hkey =>
        split
        next => simp [find?]
        next =>
          by_cases h : dest = other
          · subst h
            simp [find?, Ne.symm hkey, ih]
          · simp [find?, h, ih]

/-- Placing a destination changes where it lives and nothing else. -/
theorem register?_set (assignment : Assignment) (dest other : Dest)
    (register : Option Register) :
    (assignment.set dest register).register? other =
      if dest = other then register else assignment.register? other :=
  find?_setEntry dest other register assignment.entries

theorem mem_dests_set {assignment : Assignment} {dest other : Dest}
    {register : Option Register} :
    other ∈ (assignment.set dest register).dests ↔ other = dest ∨ other ∈ assignment.dests := by
  simp only [dests, set]
  induction assignment.entries with
  | nil => simp [setEntry]
  | cons entry rest ih =>
      unfold setEntry
      split
      next hkey => simp [hkey]
      next =>
        split
        next => simp
        next => simp only [List.map_cons, List.mem_cons, ih, or_left_comm]

end Assignment

namespace Random

variable {α : Type}

theorem swap_perm (items : List α) (left right : Nat) : (swap items left right).Perm items := by
  unfold swap
  split
  next first second hfirst hsecond =>
    obtain ⟨hleft, rfl⟩ := List.getElem?_eq_some_iff.mp hfirst
    obtain ⟨hright, rfl⟩ := List.getElem?_eq_some_iff.mp hsecond
    exact List.set_set_perm hleft hright
  next => exact .refl items

theorem shuffleFirst_perm (count : Nat) (items : List α) (stream : Stream) :
    (shuffleFirst count items stream).Perm items := by
  induction count generalizing items stream with
  | zero => exact .refl items
  | succ count ih => exact (ih _ _).trans (swap_perm items _ _)

/-- Whatever is drawn, a shuffled list has the same elements. -/
theorem shuffle_perm (items : List α) (stream : Stream) : (shuffle items stream).Perm items :=
  shuffleFirst_perm _ items stream

end Random

namespace LinearScan

variable {scan : LinearScan} {function : Function}

theorem standard_pool_perm : standard.pool.Perm Register.allocatable := .refl _

theorem seeded_pool_perm (seed : UInt64) : (seeded seed).pool.Perm Register.allocatable := by
  simp only [seeded, Random.shuffle_perm]

theorem pool_perm (seed : Option UInt64) :
    (seed.elim standard seeded).pool.Perm Register.allocatable := by
  cases seed with
  | none => exact standard_pool_perm
  | some seed => exact seeded_pool_perm seed

/-- Every hint is a register that may be handed out. -/
theorem hints_allocatable {entry : Dest × Register} (h : entry ∈ function.hints) :
    entry.2 ∈ Register.allocatable := by
  have harguments : ∀ register ∈ Register.arguments, register ∈ Register.allocatable := by decide
  have hrax : Register.rax ∈ Register.allocatable := by decide
  rcases List.mem_append.mp h with hparam | hdivision
  · exact harguments _ (List.of_mem_zip hparam).2
  · obtain ⟨inst, _, hentry⟩ := List.mem_flatMap.mp hdivision
    split at hentry
    next dst left right =>
      rcases List.mem_cons.mp hentry with rfl | hleft
      · exact hrax
      · obtain ⟨dest, _, rfl⟩ := List.mem_map.mp hleft
        exact hrax
    next => exact absurd hentry List.not_mem_nil

theorem hint?_allocatable {dest : Dest} {register : Register}
    (h : scan.hint? function dest = some register) : register ∈ Register.allocatable := by
  unfold hint? at h
  split at h
  · obtain ⟨entry, hentry, rfl⟩ := Option.map_eq_some_iff.mp h
    exact hints_allocatable (List.mem_reverse.mp (List.mem_of_find?_eq_some hentry))
  · exact absurd h (by simp)

/-- The register that is chosen may be handed out, is permitted, and is not in use. -/
theorem choose?_spec (hpool : scan.pool.Perm Register.allocatable) {active : List Active}
    {interval : Interval} {register : Register}
    (h : scan.choose? function active interval = some register) :
    register ∈ Register.allocatable ∧ interval.permits register = true ∧
      ∀ held ∈ active, held.register ≠ register := by
  -- A register that is hinted at has to pass the test that one of the pool has to pass.
  have hchosen : register ∈ Register.allocatable ∧ isFree active interval register = true := by
    unfold choose? at h
    split at h
    next hinted hfilter =>
      obtain rfl := Option.some.inj h
      obtain ⟨hhint, hfree⟩ := Option.filter_eq_some_iff.mp hfilter
      exact ⟨hint?_allocatable hhint, hfree⟩
    next =>
      exact ⟨hpool.mem_iff.mp (List.mem_of_find?_eq_some h), List.find?_some h⟩
  obtain ⟨hallocatable, hfree⟩ := hchosen
  simp only [isFree, Bool.and_eq_true, List.all_eq_true, decide_eq_true_eq, ne_eq] at hfree
  exact ⟨hallocatable, hfree.1, hfree.2⟩

/-- What holds once the intervals in `done` have been placed, as far as intervals that start at
`point` or later are concerned. -/
structure Placing (done : List Interval) (point : Nat) (active : List Active)
    (assignment : Assignment) : Prop where
  /-- Every placed interval has a register that it may have. -/
  placed : ∀ interval ∈ done, ∃ register, assignment.register? interval.dest = some register ∧
    register ∈ Register.allocatable ∧ interval.permits register = true
  /-- The register of an interval that may still be met is in use. -/
  held : ∀ interval ∈ done, point ≤ interval.last →
    ∀ register, assignment.register? interval.dest = some register →
      ⟨interval.last, register⟩ ∈ active
  /-- Intervals that share a point have different registers. -/
  apart : ∀ left ∈ done, ∀ right ∈ done, left.dest ≠ right.dest → left.Meets right →
    assignment.register? left.dest ≠ assignment.register? right.dest
  /-- Nothing else has a register. -/
  unplaced : ∀ dest, (∀ interval ∈ done, interval.dest ≠ dest) →
    assignment.register? dest = none

theorem Placing.later {done : List Interval} {point point' : Nat} {active : List Active}
    {assignment : Assignment} (h : Placing done point active assignment)
    (hpoint : point ≤ point') : Placing done point' (stillActive active point') assignment := by
  refine ⟨h.placed, fun interval hdone hlast register hregister => ?_, h.apart, h.unplaced⟩
  refine List.mem_filter.mpr ⟨h.held interval hdone (by omega) register hregister, ?_⟩
  simpa using hlast

/-- Placing an interval in a register that is not in use. -/
theorem Placing.place {done : List Interval} {interval : Interval} {active : List Active}
    {assignment : Assignment} {register : Register}
    (h : Placing done interval.first active assignment)
    (hnew : ∀ other ∈ done, other.dest ≠ interval.dest)
    (hallocatable : register ∈ Register.allocatable) (hpermits : interval.permits register = true)
    (hfree : ∀ held ∈ active, held.register ≠ register) :
    Placing (interval :: done) interval.first (⟨interval.last, register⟩ :: active)
      (assignment.set interval.dest (some register)) := by
  have hself : (assignment.set interval.dest (some register)).register? interval.dest =
      some register := by rw [Assignment.register?_set, if_pos rfl]
  have hother : ∀ other ∈ done,
      (assignment.set interval.dest (some register)).register? other.dest =
        assignment.register? other.dest := fun other hmem => by
    rw [Assignment.register?_set, if_neg (Ne.symm (hnew other hmem))]
  -- An interval that meets the new one is still in use, so its register is not the new one.
  have hmeets : ∀ other ∈ done, interval.first ≤ other.last →
      assignment.register? other.dest ≠ some register := fun other hmem hlast hregister =>
    hfree _ (h.held other hmem hlast register hregister) rfl
  constructor
  · intro other hmem
    rcases List.mem_cons.mp hmem with rfl | hdone
    · exact ⟨register, hself, hallocatable, hpermits⟩
    · rw [hother other hdone]
      exact h.placed other hdone
  · intro other hmem hlast held hheld
    rcases List.mem_cons.mp hmem with rfl | hdone
    · rw [hself] at hheld
      obtain rfl := Option.some.inj hheld
      exact List.mem_cons_self
    · rw [hother other hdone] at hheld
      exact List.mem_cons_of_mem _ (h.held other hdone hlast held hheld)
  · intro left hleft right hright hne hmeet
    rcases List.mem_cons.mp hleft with hnewLeft | hleftDone
    · rcases List.mem_cons.mp hright with hnewRight | hrightDone
      · exact absurd (hnewLeft.trans hnewRight.symm ▸ rfl) hne
      · subst hnewLeft
        rw [hself, hother right hrightDone]
        exact (hmeets right hrightDone hmeet.1).symm
    · rcases List.mem_cons.mp hright with hnewRight | hrightDone
      · subst hnewRight
        rw [hself, hother left hleftDone]
        exact hmeets left hleftDone hmeet.2
      · rw [hother left hleftDone, hother right hrightDone]
        exact h.apart left hleftDone right hrightDone hne hmeet
  · intro dest hdest
    rw [Assignment.register?_set, if_neg (hdest interval List.mem_cons_self)]
    exact h.unplaced dest fun other hmem => hdest other (List.mem_cons_of_mem _ hmem)

/-- The scan places all intervals, whatever it starts with. -/
theorem place_spec (hpool : scan.pool.Perm Register.allocatable) {rest done : List Interval}
    {point : Nat} {active : List Active} {assignment result : Assignment}
    (h : Placing done point active assignment)
    (hsorted : rest.Pairwise (·.first ≤ ·.first))
    (hstart : ∀ interval ∈ rest, point ≤ interval.first)
    (hnodup : ((rest ++ done).map (·.dest)).Nodup)
    (hplace : scan.place function rest active assignment = .ok result) :
    (∃ point active, Placing (rest.reverse ++ done) point active result) ∧
      ∀ dest, dest ∈ result.dests ↔
        dest ∈ assignment.dests ∨ ∃ interval ∈ rest, interval.dest = dest := by
  induction rest generalizing done point active assignment with
  | nil =>
      obtain rfl := Except.ok.inj hplace
      exact ⟨⟨point, active, h⟩, by simp⟩
  | cons interval rest ih =>
      obtain ⟨hfirst, hrest⟩ := List.pairwise_cons.mp hsorted
      rw [LinearScan.place] at hplace
      split at hplace
      next => exact absurd hplace (by simp)
      next register hchoose =>
        obtain ⟨hallocatable, hpermits, hfree⟩ := choose?_spec hpool hchoose
        have hnew : ∀ other ∈ done, other.dest ≠ interval.dest := by
          intro other hmem heq
          rw [List.cons_append, List.map_cons, List.nodup_cons] at hnodup
          exact hnodup.1 (heq ▸ List.mem_map_of_mem (List.mem_append_right _ hmem))
        -- First the intervals that end before this one starts are dropped, then it is placed.
        have hnext := (h.later (hstart interval List.mem_cons_self)).place hnew hallocatable
          hpermits hfree
        have hperm : (rest ++ interval :: done).Perm (interval :: rest ++ done) :=
          List.perm_middle
        obtain ⟨hplacing, hkeys⟩ := ih hnext hrest hfirst
          ((hperm.map _).nodup_iff.mpr hnodup) hplace
        refine ⟨by simpa using hplacing, fun dest => ?_⟩
        rw [hkeys dest, Assignment.mem_dests_set]
        simp only [List.mem_cons, exists_eq_or_imp]
        grind

theorem mem_dests_foldl (dests : List Dest) (start : Assignment) (dest : Dest) :
    dest ∈ ((dests.map fun dest => (dest, (none : Option Register))).foldl
        (fun assignment entry => assignment.set entry.1 entry.2) start).dests ↔
      dest ∈ start.dests ∨ dest ∈ dests := by
  induction dests generalizing start with
  | nil => simp
  | cons first rest ih =>
      rw [List.map_cons, List.foldl_cons, ih, Assignment.mem_dests_set, List.mem_cons]
      grind

theorem register?_foldl (dests : List Dest) {start : Assignment}
    (h : ∀ dest, start.register? dest = none) (dest : Dest) :
    ((dests.map fun dest => (dest, (none : Option Register))).foldl
      (fun assignment entry => assignment.set entry.1 entry.2) start).register? dest = none := by
  induction dests generalizing start with
  | nil => exact h dest
  | cons first rest ih =>
      apply ih
      intro other
      rw [Assignment.register?_set, h other]
      exact ite_self none

theorem placing_nil (function : Function) : Placing [] 0 [] (unplaced function) :=
  ⟨by simp, by simp, by simp, fun dest _ => register?_foldl function.dests (fun _ => rfl) dest⟩

theorem mem_function_dests {dest : Dest} :
    dest ∈ function.dests ↔
      (∃ name ∈ function.params ++ function.locals, dest = .var name) ∨
        ∃ inst ∈ function.code, inst.def? = some dest ∨ dest ∈ inst.uses := by
  simp only [Function.dests, List.mem_append, List.mem_map, List.mem_flatMap,
    Option.mem_toList]
  grind

theorem mem_dests_of_live {index : Nat} {dest : Dest}
    (h : dest ∈ function.liveness.liveBefore index ∨ dest ∈ function.liveness.liveAfter index) :
    dest ∈ function.dests := by
  have hused : dest ∈ function.used := by
    rcases h with hbefore | hafter
    · exact Function.mem_used_of_mem_liveBefore hbefore
    · obtain ⟨next, _, hnext⟩ := Function.mem_liveAfter_iff.mp hafter
      exact Function.mem_used_of_mem_liveBefore hnext
  obtain ⟨inst, hinst, huse⟩ := Function.mem_used.mp hused
  exact mem_function_dests.mpr (.inr ⟨inst, hinst, .inr huse⟩)

/-- What a successful scan has done with the intervals of a function. -/
theorem assign_spec (hpool : scan.pool.Perm Register.allocatable) {assignment : Assignment}
    (h : scan.assign function = .ok assignment) :
    (∃ point active, Placing (function.intervals function.liveness).reverse point active
        assignment) ∧
      ∀ dest, dest ∈ assignment.dests ↔ dest ∈ function.dests := by
  obtain ⟨hplacing, hkeys⟩ := place_spec hpool (placing_nil function) Function.intervals_sorted
    (fun _ _ => Nat.zero_le _) (by simpa using Function.nodup_intervals_dest) h
  refine ⟨by simpa using hplacing, fun dest => ?_⟩
  have hunplaced : dest ∈ (unplaced function).dests ↔ dest ∈ function.dests := by
    rw [unplaced, Assignment.ofList, mem_dests_foldl]
    simp [Assignment.empty, Assignment.dests]
  rw [hkeys, hunplaced]
  refine ⟨fun hmem => hmem.elim id fun hinterval => ?_, .inl⟩
  obtain ⟨_, hlive⟩ := Function.exists_interval_iff.mp hinterval
  exact mem_dests_of_live hlive

/-! ## Which registers destinations get -/

section Placed

variable {point : Nat} {active : List Active} {assignment : Assignment}
  (h : Placing (function.intervals function.liveness).reverse point active assignment)
include h

theorem Placing.exists_register_iff {dest : Dest} :
    (∃ register, assignment.register? dest = some register) ↔
      ∃ index, dest ∈ function.liveness.liveBefore index ∨
        dest ∈ function.liveness.liveAfter index := by
  rw [← Function.exists_interval_iff]
  constructor
  · rintro ⟨register, hregister⟩
    -- Without an interval it would not have been placed.
    by_contra hnone
    have hfree := h.unplaced dest fun interval hmem heq =>
      hnone ⟨interval, List.mem_reverse.mp hmem, heq⟩
    exact absurd (hregister.symm.trans hfree) (by simp)
  · rintro ⟨interval, hmem, rfl⟩
    obtain ⟨register, hregister, _⟩ := h.placed interval (List.mem_reverse.mpr hmem)
    exact ⟨register, hregister⟩

/-- A destination with a register has an interval, for which its register is permitted. -/
theorem Placing.interval_of_register {dest : Dest} {register : Register}
    (hregister : assignment.register? dest = some register) :
    ∃ interval ∈ function.intervals function.liveness, interval.dest = dest ∧
      register ∈ Register.allocatable ∧ interval.permits register = true := by
  obtain ⟨interval, hmem, rfl⟩ :=
    Function.exists_interval_iff.mpr (h.exists_register_iff.mp ⟨register, hregister⟩)
  obtain ⟨register', hregister', hspec⟩ := h.placed interval (List.mem_reverse.mpr hmem)
  obtain rfl : register = register' := Option.some.inj (hregister.symm.trans hregister')
  exact ⟨interval, hmem, rfl, hspec⟩

/-- Destinations that occupy a register at one point are in different ones. -/
theorem Placing.register?_ne_of_point {left right : Dest} {register : Register} {at' : Nat}
    (hleft : assignment.register? left = some register)
    (hleftPoint : at' ∈ function.points function.liveness left)
    (hrightPoint : at' ∈ function.points function.liveness right) (hne : left ≠ right) :
    assignment.register? right ≠ some register := by
  intro hright
  obtain ⟨leftInterval, hleftMem, rfl, _⟩ := h.interval_of_register hleft
  obtain ⟨rightInterval, hrightMem, rfl, _⟩ := h.interval_of_register hright
  exact h.apart leftInterval (List.mem_reverse.mpr hleftMem) rightInterval
    (List.mem_reverse.mpr hrightMem) hne
    (.of_point at' (Function.covers_of_mem_intervals hleftMem hleftPoint)
      (Function.covers_of_mem_intervals hrightMem hrightPoint)) (hleft.trans hright.symm)

theorem Placing.register?_ne_of_liveBefore {index : Nat} {left right : Dest}
    (hleft : left ∈ function.liveness.liveBefore index)
    (hright : right ∈ function.liveness.liveBefore index) (hne : left ≠ right) :
    assignment.register? left ≠ assignment.register? right := by
  have hindex := Function.lt_length_of_mem_liveBefore hleft
  obtain ⟨register, hregister⟩ := h.exists_register_iff.mpr ⟨index, .inl hleft⟩
  rw [hregister]
  exact (h.register?_ne_of_point hregister (Function.mem_points_before hindex hleft)
    (Function.mem_points_before hindex hright) hne).symm

theorem Placing.register?_ne_of_liveAfter {index : Nat} {left right : Dest}
    (hleft : left ∈ function.liveness.liveAfter index)
    (hright : right ∈ function.liveness.liveAfter index) (hne : left ≠ right) :
    assignment.register? left ≠ assignment.register? right := by
  have hindex := Function.lt_length_of_mem_liveAfter hleft
  obtain ⟨register, hregister⟩ := h.exists_register_iff.mpr ⟨index, .inr hleft⟩
  rw [hregister]
  exact (h.register?_ne_of_point hregister (Function.mem_points_after hindex hleft)
    (Function.mem_points_after hindex hright) hne).symm

/-- The crossings of an interval are those of its destination. -/
theorem Placing.permits_of_liveAcross {dest : Dest} {register : Register} {index : Nat}
    {inst : Inst} (hinst : function.code[index]? = some inst)
    (hacross : dest ∈ function.liveAcross function.liveness index)
    (hregister : assignment.register? dest = some register) :
    register ∈ Register.allocatable ∧
      (inst.isCall = true → register.isCalleeSaved = true) ∧
      (inst.isDivision = true → register.isDivisionClobbered = false) := by
  obtain ⟨interval, hmem, rfl, hallocatable, hpermits⟩ := h.interval_of_register hregister
  obtain ⟨dest, hinterval⟩ := Function.mem_intervals.mp hmem
  obtain ⟨_, rfl, _, _, hcall, hdivision⟩ := Function.interval?_eq_some hinterval
  simp only [Interval.permits, Bool.and_eq_true, Bool.not_eq_true', Bool.and_eq_false_imp,
    Bool.not_eq_false'] at hpermits
  refine ⟨hallocatable, fun hkind => hpermits.1 ?_, fun hkind => hpermits.2 ?_⟩
  · rw [hcall]
    exact Function.crosses_of_mem_liveAcross hinst hkind hacross
  · rw [hdivision]
    exact Function.crosses_of_mem_liveAcross hinst hkind hacross

theorem Placing.legal : assignment.Legal function where
  allocatable hregister := by
    obtain ⟨_, _, _, hallocatable, _⟩ := h.interval_of_register hregister
    exact hallocatable
  assigned hused := by
    obtain ⟨inst, hinst, huse⟩ := Function.mem_used.mp hused
    obtain ⟨index, hindex⟩ := List.mem_iff_getElem?.mp hinst
    exact h.exists_register_iff.mpr
      ⟨index, .inl ((Function.mem_liveBefore_iff hindex).mpr (.inl huse))⟩
  parameters _ _ hne hleft hright :=
    h.register?_ne_of_liveBefore hleft hright fun heq => hne (Dest.var.inj heq)
  written hinst hdef hregister hlive hne :=
    have hindex := Function.lt_length_of_mem_liveAfter hlive
    h.register?_ne_of_point hregister (Function.mem_points_def hinst hdef)
      (Function.mem_points_after hindex hlive) (Ne.symm hne)
  acrossCall hinst hkind hacross hregister := by
    obtain ⟨hallocatable, hsaved, _⟩ := h.permits_of_liveAcross hinst hacross hregister
    have hlist : ∀ register ∈ Register.allocatable, register.isCalleeSaved = true →
        register ∈ Register.calleeSaved := by decide
    exact hlist _ hallocatable (hsaved hkind)
  acrossDivision hinst hkind hacross hregister := by
    obtain ⟨_, _, hkept⟩ := h.permits_of_liveAcross hinst hacross hregister
    constructor <;> rintro rfl <;> exact absurd (hkept hkind) (by decide)

end Placed

/-- What the allocator promises about the destinations of a function, besides that its assignment
is legal. -/
structure Complete (function : Function) (assignment : Assignment) : Prop
    extends assignment.Legal function where
  /-- The destinations are those that the function mentions. -/
  keys : ∀ dest, dest ∈ assignment.dests ↔
    (∃ name ∈ function.params ++ function.locals, dest = .var name) ∨
      ∃ inst ∈ function.code, inst.def? = some dest ∨ dest ∈ inst.uses
  /-- Those that are live somewhere have registers. -/
  live : ∀ dest, (∃ register, assignment.register? dest = some register) ↔
    ∃ index, dest ∈ function.liveness.liveBefore index ∨
      dest ∈ function.liveness.liveAfter index
  /-- Scratch registers, the stack pointer and the frame pointer are not handed out. -/
  reserved : ∀ dest, ∀ register ∈ [Register.scratch, Register.scratch2, .rsp, .rbp],
    assignment.register? dest ≠ some register
  /-- Intervals that share a point have different registers. -/
  apart : ∀ left ∈ function.intervals function.liveness,
    ∀ right ∈ function.intervals function.liveness, left.dest ≠ right.dest →
      left.Meets right → assignment.register? left.dest ≠ assignment.register? right.dest
  apartBefore : ∀ index, ∀ left ∈ function.liveness.liveBefore index,
    ∀ right ∈ function.liveness.liveBefore index, left ≠ right →
      assignment.register? left ≠ assignment.register? right
  apartAfter : ∀ index, ∀ left ∈ function.liveness.liveAfter index,
    ∀ right ∈ function.liveness.liveAfter index, left ≠ right →
      assignment.register? left ≠ assignment.register? right

theorem assign_legal (hpool : scan.pool.Perm Register.allocatable) {assignment : Assignment}
    (h : scan.assign function = .ok assignment) : assignment.Legal function := by
  obtain ⟨⟨point, active, hplacing⟩, _⟩ := assign_spec hpool h
  exact hplacing.legal

/-- Linear scan only returns legal assignments, which place exactly the destinations that are live
somewhere, in either order of preference. -/
theorem assign_complete (seed : Option UInt64) {function : Function} {assignment : Assignment}
    (h : (seed.elim standard seeded).assign function = .ok assignment) :
    Complete function assignment := by
  have hpool : (seed.elim standard seeded).pool.Perm Register.allocatable := by
    cases seed with
    | none => exact standard_pool_perm
    | some seed => exact seeded_pool_perm seed
  obtain ⟨⟨point, active, hplacing⟩, hkeys⟩ := assign_spec hpool h
  have hlegal := hplacing.legal
  refine ⟨hlegal, fun dest => (hkeys dest).trans mem_function_dests,
    fun dest => hplacing.exists_register_iff, fun dest register hreserved hregister => ?_,
    fun left hleft right hright =>
      hplacing.apart left (List.mem_reverse.mpr hleft) right (List.mem_reverse.mpr hright),
    fun index left hleft right hright => hplacing.register?_ne_of_liveBefore hleft hright,
    fun index left hleft right hright => hplacing.register?_ne_of_liveAfter hleft hright⟩
  have hnot : ∀ register ∈ [Register.scratch, Register.scratch2, .rsp, .rbp],
      register ∉ Register.allocatable := by decide
  exact hnot register hreserved (hlegal.allocatable hregister)

/-- Halves its parameter until nothing is left, prints what is left each time, and counts the
rounds. -/
def halvings : Function where
  name := "halvings"
  params := ["n"]
  locals := []
  code := [
    .move (.temp 0) (.int 0),
    .label "again",
    .call "printInt" [.var "n"] none,
    .binary (.arith .div) (.var "n") (.var "n") (.int 2),
    .binary (.arith .add) (.temp 0) (.temp 0) (.int 1),
    .branch .gt (.var "n") (.int 0) "again",
    .ret (some (.temp 0))]

theorem assign_complete_halvings :
    standard.assign halvings = .ok ⟨[(.temp 0, some .r12), (.var "n", some .rbx)]⟩ ∧
      Complete halvings ⟨[(.temp 0, some .r12), (.var "n", some .rbx)]⟩ := by
  have hassign :
      standard.assign halvings = .ok ⟨[(.temp 0, some .r12), (.var "n", some .rbx)]⟩ := rfl
  exact ⟨hassign, assign_complete none hassign⟩

end LinearScan

end ThreeAddress
