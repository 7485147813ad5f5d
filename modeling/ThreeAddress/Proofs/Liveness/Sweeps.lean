import ThreeAddress.Proofs.Liveness.Fixpoint

/-!
# How many sweeps there are

The sweeping goes on as long as some set was changed during a sweep. Sets are only ever
enlarged, so a change that was made during a sweep is still there at its end, and a sweep
that changed something leaves more members than it found. All members are destinations that
some instruction reads, which bounds the number of sweeps.
-/

namespace ThreeAddress.Function

open Liveness

variable {function : Function} {live next result result' : Liveness} {changed : Bool}
  {count count' rounds : Nat}

/-- Sweeps, and notes whether a set was changed on the way. -/
def notingSweep (function : Function) : Nat → Liveness → Bool → Liveness × Bool
  | 0, live, changed => (live, changed)
  | count + 1, live, changed =>
      let next := function.refresh live count
      function.notingSweep count next (changed || decide (next ≠ live))

/-- Sweeping from given sets on ends with a result after a number of sweeps, of which all but the
last one change something. -/
inductive Settles (function : Function) : Nat → Liveness → Liveness → Prop
  | last {live result : Liveness}
      (hsweep : function.notingSweep function.code.length live false = (result, false)) :
      Settles function 1 live result
  | again {count : Nat} {live next result : Liveness}
      (hsweep : function.notingSweep function.code.length live false = (next, true))
      (hrest : Settles function count next result) : Settles function (count + 1) live result

/-- Sweeps until a sweep changes nothing, unless that takes more than the given number of sweeps. -/
def settle? (function : Function) : Nat → Liveness → Option Liveness
  | 0, _ => none
  | sweeps + 1, live =>
      match function.notingSweep function.code.length live false with
      | (result, false) => some result
      | (next, true) => function.settle? sweeps next

/-- Sets that recomputations lead to from empty ones, in whatever order they are made. -/
inductive Arises (function : Function) : Liveness → Prop
  | none : Arises function (.none function.code.length)
  | refresh {live : Liveness} (h : Arises function live) (index : Nat) :
      Arises function (function.refresh live index)

theorem Arises.justified (h : function.Arises live) : function.Justified live := by
  induction h with
  | none => exact justified_none function
  | refresh _ index ih => exact ih.refresh index

theorem notingSweep_fst (count : Nat) (live : Liveness) (changed : Bool) :
    (function.notingSweep count live changed).1 = function.sweep count live := by
  induction count generalizing live changed with
  | zero => rfl
  | succ count ih => exact ih _ _

/-- What a sweep has changed is still changed at its end. -/
theorem Justified.sweep_succ_eq_iff (h : function.Justified live) :
    function.sweep (count + 1) live = live ↔
      function.refresh live count = live ∧
        function.sweep count (function.refresh live count) = function.refresh live count := by
  constructor
  · intro hsweep
    have hfirst := h.refresh_eq_of_sweep_eq hsweep (Nat.lt_succ_self count)
    refine ⟨hfirst, ?_⟩
    rw [hfirst]
    simpa only [Function.sweep, hfirst] using hsweep
  · rintro ⟨hfirst, hrest⟩
    exact hrest.trans hfirst

/-- A change is noted if and only if the sweep as a whole changes something. -/
theorem Justified.notingSweep_snd (h : function.Justified live) :
    (function.notingSweep count live changed).2 = false ↔
      changed = false ∧ function.sweep count live = live := by
  induction count generalizing live changed with
  | zero => simp [notingSweep, Function.sweep]
  | succ count ih =>
      rw [notingSweep, ih (h.refresh count), h.sweep_succ_eq_iff, ← and_assoc, Bool.or_eq_false_iff,
        decide_eq_false_iff_not, not_not]

theorem Justified.notingSweep_of_eq (h : function.Justified live)
    (hsweep : function.sweep count live = live) :
    function.notingSweep count live false = (live, false) :=
  Prod.ext ((notingSweep_fst count live false).trans hsweep)
    (h.notingSweep_snd.mpr ⟨rfl, hsweep⟩)

theorem Justified.notingSweep_of_ne (h : function.Justified live)
    (hsweep : function.sweep count live ≠ live) :
    function.notingSweep count live false = (function.sweep count live, true) :=
  Prod.ext (notingSweep_fst count live false)
    (eq_true_of_ne_false fun hnone => hsweep (h.notingSweep_snd.mp hnone).2)

/-- There are no more sweeps than members that are missing, and one that finds none. -/
theorem Justified.exists_settles (h : function.Justified live)
    (hrounds : 2 * function.code.length * function.used.size < weight live + rounds) :
    ∃ sweeps ≤ rounds, function.Settles sweeps live (function.settle rounds live) := by
  induction rounds generalizing live with
  | zero => exact absurd h.weight_le (by omega)
  | succ rounds ih =>
      unfold settle
      dsimp only
      split
      next hstable => exact ⟨1, by omega, .last (h.notingSweep_of_eq hstable)⟩
      next hchanged =>
        have hgrows := h.weight_lt_sweep hchanged
        obtain ⟨sweeps, hle, hrest⟩ := ih (h.sweep function.code.length) (by omega)
        exact ⟨sweeps + 1, by omega, .again (h.notingSweep_of_ne hchanged) hrest⟩

theorem Settles.unique (h : function.Settles count live result)
    (h' : function.Settles count' live result') : count' = count ∧ result' = result := by
  induction h generalizing count' with
  | last hsweep =>
      cases h' with
      | last hsweep' => exact ⟨rfl, congrArg Prod.fst (hsweep'.symm.trans hsweep)⟩
      | again hsweep' => cases hsweep'.symm.trans hsweep
  | again hsweep _ ih =>
      cases h' with
      | last hsweep' => cases hsweep'.symm.trans hsweep
      | again hsweep' hrest' =>
          obtain rfl := congrArg Prod.fst (hsweep'.symm.trans hsweep)
          obtain ⟨rfl, hresult⟩ := ih hrest'
          exact ⟨rfl, hresult⟩

/-- A number of sweeps is enough if it is no less than the one after which sweeping ends. -/
theorem Settles.settle?_eq (h : function.Settles count live result) (sweeps : Nat) :
    function.settle? sweeps live = if count ≤ sweeps then some result else none := by
  induction h generalizing sweeps with
  | last hsweep => cases sweeps <;> simp [settle?, hsweep]
  | again hsweep _ ih => cases sweeps <;> simp [settle?, hsweep, ih]

theorem exists_settles_liveness (function : Function) :
    ∃ sweeps ≤ 2 * function.code.length * function.used.size + 1,
      function.Settles sweeps (.none function.code.length) function.liveness :=
  (justified_none function).exists_settles (by omega)

/-- Sweeping ends for every function, and with the sets that are taken to be live. At all times
recomputing a set enlarges it, as does a sweep, and the sets hold only destinations that are read
somewhere. So for each two sets of an instruction and each destination that is read there is at most
one sweep, besides the last one. -/
theorem liveness_settles (function : Function) :
    (∃ sweeps ≤ 2 * function.code.length * function.used.size + 1, ∀ count result,
      function.Settles count (.none function.code.length) result ↔
        count = sweeps ∧ result = function.liveness) ∧
    (∀ dest, dest ∈ function.used ↔ ∃ inst ∈ function.code, dest ∈ inst.uses) ∧
    ∀ live, function.Arises live →
      (∀ index, Within live (function.refresh live index)) ∧
      (∀ count, Within live (function.sweep count live)) ∧
      ∀ index dest, dest ∈ live.liveBefore index ∨ dest ∈ live.liveAfter index →
        dest ∈ function.used := by
  obtain ⟨sweeps, hle, hsettles⟩ := function.exists_settles_liveness
  refine ⟨⟨sweeps, hle, fun count result => ⟨hsettles.unique, ?_⟩⟩, fun _ => mem_used,
    fun live harises => ?_⟩
  · rintro ⟨rfl, rfl⟩
    exact hsettles
  · have hjustified := harises.justified
    refine ⟨hjustified.within_refresh, hjustified.within_sweep, fun index dest hmem => ?_⟩
    rcases hmem with hbefore | hafter
    · exact hjustified.used hbefore
    · obtain ⟨_, _, hlive⟩ := mem_joined.mp (hjustified.after hafter)
      exact hjustified.used hlive

end ThreeAddress.Function
