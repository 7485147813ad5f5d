import Mathlib.Data.List.Chain
import ThreeAddress.Proofs.Liveness.Fixpoint

/-!
# Liveness and paths

A destination is live before an instruction if control may come from there to an
instruction that reads it, past none that writes it. The analysis finds these
destinations and no others, whatever control does: the sets that it ends with are
the least ones that satisfy the liveness equations.
-/

namespace ThreeAddress

/-- Control may go on to the instruction that follows. -/
def Inst.goesOn : Inst → Bool
  | .jump _ | .ret _ => false
  | _ => true

namespace Function

variable {function : Function} {index next : Nat} {dest : Dest}

/-! ## Control -/

/-- The last declaration of a label is at `place`. -/
structure DeclaresLast (function : Function) (label : String) (place : Nat) : Prop where
  declares : function.code[place]? = some (.label label)
  last : ∀ later, place < later → function.code[later]? ≠ some (.label label)

/-- Control may go from one instruction to another: to the one that follows, or to the last
declaration of the label that a jump or a branch names. -/
inductive Flows (function : Function) : Nat → Nat → Prop
  | next {index inst} : function.code[index]? = some inst → inst.goesOn = true →
      index + 1 < function.code.length → Flows function index (index + 1)
  | target {index inst label place} : function.code[index]? = some inst →
      inst.target? = some label → function.DeclaresLast label place →
      Flows function index place

/-- A path of control from `index` to an instruction that reads `dest`. It comes there past the
instructions at `passed`, none of which writes `dest`. -/
structure ReadsFirst (function : Function) (dest : Dest) (index : Nat) (passed : List Nat)
    (last : Nat) : Prop where
  starts : (passed ++ [last]).head? = some index
  flows : (passed ++ [last]).IsChain function.Flows
  reads : ∃ inst, function.code[last]? = some inst ∧ dest ∈ inst.uses
  keeps : ∀ place ∈ passed, ∀ inst, function.code[place]? = some inst → inst.def? ≠ some dest

/-- The liveness equations. What is live after an instruction is what is live before some
instruction that control may go to; what is live before it is what it reads, and what is live after
it unless it writes it. -/
structure Solves (function : Function) (live : Liveness) : Prop where
  covers : live.Covers function.code.length
  after : ∀ index dest, dest ∈ live.liveAfter index ↔
    ∃ next, function.Flows index next ∧ dest ∈ live.liveBefore next
  before : ∀ index inst, function.code[index]? = some inst → ∀ dest,
    dest ∈ live.liveBefore index ↔
      dest ∈ inst.uses ∨ (dest ∈ live.liveAfter index ∧ inst.def? ≠ some dest)

theorem Flows.exists_inst (h : function.Flows index next) :
    ∃ inst, function.code[index]? = some inst := by
  cases h with
  | next hinst | target hinst => exact ⟨_, hinst⟩

theorem not_declared_after_lastLabelFrom {label : String} {code : List Inst}
    {start found later : Nat} (h : lastLabelFrom label start code = some found)
    (hlater : found - start < later) : code[later]? ≠ some (.label label) := by
  induction code generalizing start later with
  | nil => simp
  | cons inst rest ih =>
      obtain ⟨later, rfl⟩ := Nat.exists_eq_add_of_lt (Nat.zero_lt_of_lt hlater)
      rw [Nat.zero_add, List.getElem?_cons_succ]
      rw [Nat.zero_add] at hlater
      unfold lastLabelFrom at h
      split at h
      next place hplace =>
        obtain rfl := Option.some.inj h
        have hle := (lastLabelFrom_eq_some hplace).1
        exact ih hplace (by omega)
      next hnone =>
        -- the label is not declared in the rest at all
        intro hdeclared
        obtain ⟨place, hplace⟩ := exists_lastLabelFrom (List.mem_of_getElem? hdeclared) (start + 1)
        cases hnone.symm.trans hplace

theorem labelIndex?_eq_some_iff {label : String} {place : Nat} :
    function.labelIndex? label = some place ↔ function.DeclaresLast label place := by
  constructor
  · intro h
    exact ⟨getElem?_labelIndex h, fun later hlater =>
      not_declared_after_lastLabelFrom h (by rwa [Nat.sub_zero])⟩
  · intro h
    obtain ⟨found, hfound⟩ := exists_lastLabelFrom (List.mem_of_getElem? h.declares) 0
    have hdeclares : function.code[found]? = some (.label label) := getElem?_labelIndex hfound
    -- of two last declarations neither comes after the other
    rcases Nat.lt_trichotomy place found with hlt | rfl | hlt
    · exact absurd hdeclares (h.last found hlt)
    · exact hfound
    · exact absurd h.declares (not_declared_after_lastLabelFrom hfound (by rwa [Nat.sub_zero]))

/-- The successors of an instruction are where control may go from there. -/
theorem mem_successors_iff : next ∈ function.successors index ↔ function.Flows index next := by
  constructor
  · intro h
    cases hinst : function.code[index]? with
    | none => simp [successors, hinst] at h
    | some inst =>
        have hfollows : inst.goesOn = true →
            next ∈ (if index + 1 < function.code.length then [index + 1] else []) →
            function.Flows index next := by
          intro hgoes hmem
          split at hmem
          next hlength =>
            obtain rfl := List.mem_singleton.mp hmem
            exact .next hinst hgoes hlength
          next => cases hmem
        have htarget : ∀ label, inst.target? = some label →
            next ∈ (function.labelIndex? label).toList → function.Flows index next := by
          intro label hlabel hplace
          exact .target hinst hlabel (labelIndex?_eq_some_iff.mp (Option.mem_toList.mp hplace))
        simp only [successors, hinst] at h
        cases inst with
        | ret value => cases h
        | jump label => exact htarget label rfl h
        | branch op left right label =>
            exact (List.mem_append.mp h).elim (htarget label rfl) (hfollows rfl)
        | _ => exact hfollows rfl h
  · intro h
    cases h with
    | @next inst hinst hgoes hlength =>
        simp only [successors, hinst, if_pos hlength]
        cases inst with
        | jump | ret => cases hgoes
        | branch => exact List.mem_append_right _ (List.mem_singleton_self _)
        | _ => exact List.mem_singleton_self _
    | @target inst label _ hinst hlabel hplace =>
        have hmem : next ∈ (function.labelIndex? label).toList :=
          Option.mem_toList.mpr (labelIndex?_eq_some_iff.mpr hplace)
        simp only [successors, hinst]
        cases inst with
        | jump =>
            obtain rfl := Option.some.inj hlabel
            exact hmem
        | branch =>
            obtain rfl := Option.some.inj hlabel
            exact List.mem_append_left _ hmem
        | _ => cases hlabel

/-! ## What the analysis finds -/

/-- What holds of a destination wherever it is read, and is carried back along control past what
does not write it. -/
structure CarriedBack (function : Function) (holds : Nat → Dest → Prop) : Prop where
  read : ∀ {index inst dest}, function.code[index]? = some inst → dest ∈ inst.uses →
    holds index dest
  past : ∀ {index inst next dest}, function.code[index]? = some inst → inst.def? ≠ some dest →
    function.Flows index next → holds next dest → holds index dest

/-- A result has sets for all instructions, and what it has as live before one of them has a
property. -/
structure FindsOnly (function : Function) (holds : Nat → Dest → Prop) (live : Liveness) :
    Prop where
  covers : live.Covers function.code.length
  found : ∀ {index dest}, dest ∈ live.liveBefore index → holds index dest

section FindsOnly

variable {holds : Nat → Dest → Prop} {live : Liveness}

theorem FindsOnly.none (function : Function) (holds : Nat → Dest → Prop) :
    function.FindsOnly holds (.none function.code.length) :=
  ⟨Liveness.covers_none _, fun hmem => absurd hmem Liveness.not_mem_liveBefore_none⟩

theorem FindsOnly.refresh (hback : function.CarriedBack holds) (h : function.FindsOnly holds live)
    (index : Nat) : function.FindsOnly holds (function.refresh live index) := by
  refine ⟨covers_refresh h.covers index, fun {other dest} hmem => ?_⟩
  cases hinst : function.code[index]? with
  | none =>
      simp only [Function.refresh, hinst] at hmem
      exact h.found hmem
  | some inst =>
      rw [liveBefore_refresh h.covers hinst] at hmem
      split at hmem
      next heq =>
        subst heq
        rcases Inst.mem_transfer.mp hmem with huse | ⟨hjoined, hdef⟩
        · exact hback.read hinst huse
        · obtain ⟨next, hnext, hlive⟩ := mem_joined.mp hjoined
          exact hback.past hinst hdef (mem_successors_iff.mp hnext) (h.found hlive)
      next => exact h.found hmem

theorem FindsOnly.sweep (hback : function.CarriedBack holds) (h : function.FindsOnly holds live)
    (count : Nat) : function.FindsOnly holds (function.sweep count live) := by
  induction count generalizing live with
  | zero => exact h
  | succ count ih => exact ih (h.refresh hback count)

theorem FindsOnly.settle (hback : function.CarriedBack holds) (h : function.FindsOnly holds live)
    (rounds : Nat) : function.FindsOnly holds (function.settle rounds live) := by
  induction rounds generalizing live with
  | zero => exact h
  | succ rounds ih =>
      unfold Function.settle
      dsimp only
      split
      next => exact h
      next => exact ih (h.sweep hback _)

/-- The analysis finds nothing but what is read or carried back. -/
theorem CarriedBack.of_live (h : function.CarriedBack holds)
    (hlive : dest ∈ function.liveness.liveBefore index) : holds index dest :=
  ((FindsOnly.none function holds).settle h function.maxSweeps).found hlive

end FindsOnly

/-- Once a sweep changes nothing, it does not matter how many more may follow. -/
theorem settle_add {rounds : Nat} {live : Liveness}
    (h : function.sweep function.code.length (function.settle rounds live) =
      function.settle rounds live) (more : Nat) :
    function.settle (rounds + more) live = function.settle rounds live := by
  induction rounds generalizing live with
  | zero =>
      rw [Nat.zero_add]
      cases more with
      | zero => rfl
      | succ more => exact if_pos h
  | succ rounds ih =>
      rw [Nat.add_right_comm]
      unfold settle at h ⊢
      dsimp only at h ⊢
      by_cases hstable : function.sweep function.code.length live = live
      · rw [if_pos hstable, if_pos hstable]
      · rw [if_neg hstable] at h ⊢
        rw [if_neg hstable]
        exact ih h

/-! ## The least solution -/

theorem carriedBack_readsFirst (function : Function) :
    function.CarriedBack fun index dest =>
      ∃ passed last, function.ReadsFirst dest index passed last := by
  constructor
  · intro index inst dest hinst huse
    exact ⟨[], index, rfl, .singleton _, ⟨inst, hinst, huse⟩, by simp⟩
  · rintro index inst next dest hinst hdef hflow ⟨passed, last, h⟩
    refine ⟨index :: passed, last, rfl, ?_, h.reads, List.forall_mem_cons.mpr ⟨?_, h.keeps⟩⟩
    · apply List.isChain_cons.mpr
      refine ⟨fun place hplace => ?_, h.flows⟩
      obtain rfl := Option.some.inj (h.starts.symm.trans hplace)
      exact hflow
    · intro other hother
      obtain rfl := Option.some.inj (hinst.symm.trans hother)
      exact hdef

theorem carriedBack_of_solves {live : Liveness} (h : function.Solves live) :
    function.CarriedBack fun index dest => dest ∈ live.liveBefore index := by
  constructor
  · intro index inst dest hinst huse
    exact (h.before index inst hinst dest).mpr (.inl huse)
  · intro index inst next dest hinst hdef hflow hlive
    have hafter := (h.after index dest).mpr ⟨next, hflow, hlive⟩
    exact (h.before index inst hinst dest).mpr (.inr ⟨hafter, hdef⟩)

theorem solves_liveness (function : Function) : function.Solves function.liveness where
  covers := (liveness_stable function).1.covers
  after := fun index dest => by simp only [mem_liveAfter_iff, mem_successors_iff]
  before := fun _ _ hinst _ => mem_liveBefore_iff hinst

/-- A read is found all the way back along its path. -/
theorem ReadsFirst.live {passed : List Nat} {last : Nat}
    (h : function.ReadsFirst dest index passed last) :
    dest ∈ function.liveness.liveBefore index := by
  have hback := carriedBack_of_solves (solves_liveness function)
  induction passed generalizing index with
  | nil =>
      obtain rfl := Option.some.inj h.starts
      obtain ⟨inst, hinst, huse⟩ := h.reads
      exact hback.read hinst huse
  | cons place rest ih =>
      obtain rfl := Option.some.inj h.starts
      obtain ⟨hflow, hflows⟩ := List.isChain_cons.mp h.flows
      obtain ⟨next, hnext⟩ : ∃ next, (rest ++ [last]).head? = some next := by
        cases rest <;> exact ⟨_, rfl⟩
      have hlive := ih ⟨hnext, hflows, h.reads, fun other hother =>
        h.keeps other (List.mem_cons_of_mem _ hother)⟩
      obtain ⟨inst, hinst⟩ := (hflow next hnext).exists_inst
      have hdef := h.keeps place List.mem_cons_self inst hinst
      exact hback.past hinst hdef (hflow next hnext) hlive

/-- The analysis solves the liveness equations, and what it finds is in every solution. A
destination is live before an instruction if and only if a path of control leads from there to a
read of it, past no write. The result is the same however many more sweeps may follow. -/
theorem liveness_exact (function : Function) :
    function.Solves function.liveness ∧
      (∀ live, function.Solves live → function.liveness.Within live) ∧
      (∀ index dest, dest ∈ function.liveness.liveBefore index ↔
        ∃ passed last, function.ReadsFirst dest index passed last) ∧
      ∀ more, function.settle (function.maxSweeps + more) (.none function.code.length) =
        function.liveness := by
  have hsolves := solves_liveness function
  refine ⟨hsolves, fun live hlive => ?_, fun index dest => ?_, ?_⟩
  · have hback := carriedBack_of_solves hlive
    refine ⟨hback.of_live, fun {index dest} hafter => ?_⟩
    obtain ⟨next, hflow, hnext⟩ := (hsolves.after index dest).mp hafter
    exact (hlive.after index dest).mpr ⟨next, hflow, hback.of_live hnext⟩
  · constructor
    · exact (carriedBack_readsFirst function).of_live
    · rintro ⟨passed, last, h⟩
      exact h.live
  · exact settle_add (liveness_stable function).2

/-- A jump goes to the last declaration of its label, past a read that it never comes to. -/
example :
    (Function.liveness ⟨"f", [], [], [.jump "a", .label "a", .ret (some (.temp 0)), .label "a",
      .ret (some (.temp 1))]⟩).before.map DestSet.toList =
      [[.temp 1], [.temp 0], [.temp 0], [.temp 1], [.temp 1]] := by decide

end Function

end ThreeAddress
