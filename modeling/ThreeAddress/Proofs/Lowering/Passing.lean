import ThreeAddress.Proofs.Lowering.Operations
import ThreeAddress.Proofs.Registers.Moves

/-!
# Passing arguments and parameters

Before a call each argument is in its register, and on entry each live parameter
is brought from its argument register to its own, whatever other registers these
coincide with.
-/

namespace ThreeAddress.Placed

open Emission

variable {placed : Placed} {address : String → Int64} {cpu : Cpu}

/-- Moves one after the other. -/
theorem moves_ensures (address : String → Int64) (cpu : Cpu) (moves : List Move) :
    (moves.forM fun parallel => move parallel.src parallel.dst).Ensures address cpu fun _ next =>
      ∀ register, next.get register = Move.performAll moves cpu.get register := by
  induction moves generalizing cpu with
  | nil => exact .pure fun _ => rfl
  | cons first rest ih =>
      refine .bind (move_ensures fun middle hdst hsame => ?_)
      apply (ih middle).mono
      intro _ next hnext register
      have hperform : middle.get = Move.perform cpu.get first := by
        funext other
        by_cases hother : other = first.dst
        · subst hother
          rw [hdst, Move.perform_dst]
        · rw [hsame other (by simpa using hother), Move.perform_of_ne hother]
      rw [hnext register, hperform]
      rfl

/-- Moves that happen at once, if their destinations are different. -/
theorem moveAll_ensures {moves : List Move} (hnodup : (moves.map Move.dst).Nodup)
    (hscratch : Register.scratch ∉ moves.map Move.dst) :
    (moveAll moves).Ensures address cpu fun _ next =>
      (∀ move ∈ moves, next.get move.dst = cpu.get move.src) ∧
        cpu.SameExcept (.scratch :: moves.map Move.dst) next := by
  refine (moves_ensures address cpu _).mono fun _ next hnext => ⟨?_, ?_⟩
  · intro move hmove
    have hne : move.dst ≠ Register.scratch :=
      fun heq => hscratch (heq ▸ List.mem_map_of_mem hmove)
    rw [hnext, Move.performAll_resolve hnodup hscratch hne, Move.together_of_mem hnodup hmove]
  · intro register hregister
    rw [List.mem_cons, not_or] at hregister
    rw [hnext, Move.performAll_resolve hnodup hscratch hregister.1,
      Move.together_of_not_mem hregister.2]

/-! ## Arguments -/

/-- The argument registers of the arguments that satisfy a condition. -/
def argumentRegisters (condition : Source → Bool) (passed : List (Source × Register)) :
    List Register :=
  (passed.filter fun entry => condition entry.1).map (·.2)

/-- The moves of arguments bring the register of each destination to an argument register. -/
theorem argumentMoves_ensures (placed : Placed) (address : String → Int64) (cpu : Cpu)
    (passed : List (Source × Register)) :
    (placed.argumentMoves passed).Ensures address cpu fun moves next =>
      next = cpu ∧ moves.map Move.dst = argumentRegisters (!·.isLiteral) passed ∧
        ∀ entry ∈ passed, entry.1.isLiteral = false →
          ∃ move ∈ moves, move.dst = entry.2 ∧
            cpu.get move.src = placed.word address cpu entry.1 := by
  induction passed with
  | nil => exact .pure ⟨rfl, rfl, by simp⟩
  | cons entry rest ih =>
      obtain ⟨arg, argument⟩ := entry
      unfold argumentMoves Lowering.argumentMoves
      cases hdest : arg.dest? with
      | none =>
          have hliteral : arg.isLiteral = true := by simp [Source.isLiteral, hdest]
          refine ih.mono fun moves next ⟨hnext, hmoves, hall⟩ => ⟨hnext, ?_, ?_⟩
          · simpa [argumentRegisters, hliteral] using hmoves
          · intro entry hentry hnot
            rcases List.mem_cons.mp hentry with rfl | hentry
            · exact absurd hnot (by simp [hliteral])
            · exact hall entry hentry hnot
      | some dest =>
          have hliteral : arg.isLiteral = false := by simp [Source.isLiteral, hdest]
          refine .bind (operand_ensures fun register hregister => ?_)
          refine .bind (ih.mono fun moves next ⟨hnext, hmoves, hall⟩ => .pure ⟨hnext, ?_, ?_⟩)
          · simpa [argumentRegisters, hliteral] using hmoves
          · intro entry hentry hnot
            rcases List.mem_cons.mp hentry with rfl | hentry
            · exact ⟨_, List.mem_cons_self, rfl, (word_of_dest hdest hregister).symm⟩
            · obtain ⟨move, hmove, hdst, hsrc⟩ := hall entry hentry hnot
              exact ⟨move, List.mem_cons_of_mem _ hmove, hdst, hsrc⟩

theorem word_of_literal {arg : Source} (hliteral : arg.isLiteral = true) (middle : Cpu) :
    placed.word address middle arg = placed.word address cpu arg := by
  apply word_congr
  intro dest _ hdest
  simp [Source.isLiteral, hdest] at hliteral

/-- A literal among the arguments is loaded into its argument register. -/
theorem literal_ensures (placed : Placed) (address : String → Int64) (cpu : Cpu) (arg : Source)
    (argument : Register) :
    (if arg.isLiteral = true then discard (placed.source argument arg)
      else pure ()).Ensures address cpu fun _ next =>
        (arg.isLiteral = true → next.get argument = placed.word address cpu arg) ∧
          cpu.SameExcept (argumentRegisters Source.isLiteral [(arg, argument)]) next := by
  cases hliteral : arg.isLiteral with
  | false =>
      rw [if_neg (by simp)]
      exact .pure ⟨(nomatch ·), Cpu.SameExcept.refl _ cpu⟩
  | true =>
      refine .bind ((source_ensures placed address cpu argument arg).mono ?_)
      intro register middle hmiddle
      have hregister : register = argument := by
        rcases hmiddle.register with ⟨heq, _⟩ | ⟨dest, hdest, _⟩
        · exact heq
        · simp [Source.isLiteral, hdest] at hliteral
      subst hregister
      refine .pure ⟨fun _ => hmiddle.word, ?_⟩
      simpa [argumentRegisters, hliteral] using hmiddle.same

theorem literals_ensures (placed : Placed) (address : String → Int64) (cpu : Cpu)
    {passed : List (Source × Register)} (hnodup : (passed.map (·.2)).Nodup) :
    (passed.forM fun (arg, argument) => do
      if arg.isLiteral then discard (placed.source argument arg)).Ensures address cpu fun _ next =>
        (∀ entry ∈ passed, entry.1.isLiteral = true →
          next.get entry.2 = placed.word address cpu entry.1) ∧
        cpu.SameExcept (argumentRegisters Source.isLiteral passed) next := by
  induction passed generalizing cpu with
  | nil => exact .pure ⟨by simp, .refl _ _⟩
  | cons entry rest ih =>
      obtain ⟨arg, argument⟩ := entry
      obtain ⟨hargument, hrest⟩ := List.nodup_cons.mp hnodup
      refine .bind ((literal_ensures placed address cpu arg argument).mono ?_)
      intro _ middle hmiddle
      obtain ⟨hfirst, hsame⟩ := hmiddle
      refine (ih middle hrest).mono fun _ next ⟨hothers, hsameRest⟩ => ⟨?_, ?_⟩
      · intro entry hentry hliteral
        rcases List.mem_cons.mp hentry with rfl | hentry
        · have hkept : argument ∉ argumentRegisters Source.isLiteral rest := by
            intro hmem
            obtain ⟨other, hother, heq⟩ := List.mem_map.mp hmem
            exact hargument (List.mem_map.mpr ⟨other, (List.mem_filter.mp hother).1, heq⟩)
          rw [hsameRest argument hkept, hfirst hliteral]
        · rw [hothers entry hentry hliteral, word_of_literal hliteral]
      · have hmem : argumentRegisters Source.isLiteral ((arg, argument) :: rest) =
            argumentRegisters Source.isLiteral [(arg, argument)] ++
              argumentRegisters Source.isLiteral rest := by
          simp only [argumentRegisters, ← List.map_append, ← List.filter_append,
            List.singleton_append]
        rw [hmem]
        exact (hsame.mono (List.subset_append_left _ _)).trans
          (hsameRest.mono (List.subset_append_right _ _))

/-- The part of a call before the call instruction. -/
def pass (placed : Placed) (args : List Source) : Emission Unit := do
  moveAll (← placed.argumentMoves (args.zip Register.arguments))
  (args.zip Register.arguments).forM fun (arg, argument) => do
    if arg.isLiteral then discard (placed.source argument arg)

theorem argumentRegisters_subset (condition : Source → Bool) (passed : List (Source × Register)) :
    argumentRegisters condition passed ⊆ passed.map (·.2) :=
  List.map_subset _ (List.filter_subset_self _)

theorem zip_fst_sublist {α β : Type} (left : List α) (right : List β) :
    ((left.zip right).map (·.1)).Sublist left := by
  induction left generalizing right with
  | nil => simp
  | cons first rest ih =>
      cases right with
      | nil => simp
      | cons other others => exact (ih others).cons_cons first

theorem zip_snd_sublist {α β : Type} (left : List α) (right : List β) :
    ((left.zip right).map (·.2)).Sublist right := by
  induction right generalizing left with
  | nil => simp
  | cons other others ih =>
      cases left with
      | nil => simp
      | cons first rest => exact (ih rest).cons_cons other

/-- Each argument is put into its register. -/
theorem pass_ensures (placed : Placed) (address : String → Int64) (cpu : Cpu)
    (args : List Source) :
    (placed.pass args).Ensures address cpu fun _ next =>
      (∀ entry ∈ args.zip Register.arguments,
        next.get entry.2 = placed.word address cpu entry.1) ∧
      cpu.SameExcept (.scratch :: Register.arguments) next := by
  have hsublist := zip_snd_sublist args Register.arguments
  unfold pass
  generalize args.zip Register.arguments = passed at hsublist ⊢
  have hnodup : (passed.map (·.2)).Nodup :=
    (show Register.arguments.Nodup by decide).sublist hsublist
  have hregisters : ∀ condition, argumentRegisters condition passed ⊆ Register.arguments :=
    fun condition =>
      List.Subset.trans (argumentRegisters_subset condition passed) hsublist.subset
  have hmoves : (argumentRegisters (!·.isLiteral) passed).Nodup :=
    hnodup.sublist (List.filter_sublist.map _)
  have hscratch : Register.scratch ∉ argumentRegisters (!·.isLiteral) passed :=
    fun hmem => absurd (hregisters _ hmem) (by decide)
  refine .bind ((argumentMoves_ensures placed address cpu passed).mono ?_)
  rintro moves _ ⟨rfl, hdsts, hall⟩
  rw [← hdsts] at hmoves hscratch
  refine .bind ((moveAll_ensures hmoves hscratch).mono fun _ middle ⟨hmoved, hsame⟩ => ?_)
  apply (literals_ensures placed address middle hnodup).mono
  intro _ next hnext
  obtain ⟨hliterals, hrest⟩ := hnext
  refine ⟨?_, ?_⟩
  · intro entry hentry
    cases hliteral : entry.1.isLiteral with
    | true => rw [hliterals entry hentry hliteral, word_of_literal hliteral]
    | false =>
        obtain ⟨move, hmove, hdst, hsrc⟩ := hall entry hentry hliteral
        -- Literals are loaded after the moves, but never into the register of another argument.
        have hkept : entry.2 ∉ argumentRegisters Source.isLiteral passed := by
          intro hmem
          obtain ⟨other, hother, heq⟩ := List.mem_map.mp hmem
          obtain ⟨hother, hyes⟩ := List.mem_filter.mp hother
          have hsameEntry := List.inj_on_of_nodup_map hnodup hother hentry heq
          rw [hsameEntry, hliteral] at hyes
          exact absurd hyes (by simp)
        rw [hrest _ hkept, ← hdst, hmoved move hmove, hsrc]
  · refine (hsame.mono ?_).trans (hrest.mono (List.subset_cons_of_subset _ (hregisters _)))
    rw [hdsts]
    exact List.cons_subset_cons _ (hregisters _)

/-! ## Calls -/

/-- The code of a call up to the call instruction. -/
def beforeCall (placed : Placed) (callee : String) (args : List Source) : Emission Unit := do
  placed.pass args
  if args.isEmpty && Builtin.ofName? callee = some .printStr then
    instr (.movImm 0 .rdi)

/-- The code after a call instruction, which moves the result to its destination. -/
def resultCode (placed : Placed) (pending : Option Dest) : Emission Unit :=
  match pending.bind placed.assignment.register? with
  | some register => move .result register
  | none => pure ()

/-- A call is a call instruction with the code before and after it. -/
theorem call_eq {callee : String} {args : List Source} {dst : Option Dest}
    (h : (placed.call callee args dst).result = .ok ()) :
    args.length ≤ maxArguments ∧ (placed.beforeCall callee args).result = .ok () ∧
      (placed.resultCode dst).result = .ok () ∧
      (placed.call callee args dst).code = (placed.beforeCall callee args).code ++
        .instr (.call callee) :: (placed.resultCode dst).code := by
  by_cases hargs : maxArguments < args.length
  · unfold call Lowering.call at h
    rw [if_pos hargs] at h
    obtain ⟨_, hfail, _⟩ := bind_result_eq_ok.mp h
    exact absurd hfail (by simp)
  · have hcall : placed.call callee args dst = (do
        placed.beforeCall callee args
        instr (.call callee)
        placed.resultCode dst) := by
      unfold call Lowering.call beforeCall pass resultCode
      rw [if_neg hargs]
      simp only [bind_assoc]
      cases args.isEmpty && decide (Builtin.ofName? callee = some .printStr) <;> rfl
    rw [hcall] at h ⊢
    obtain ⟨_, hbefore, h⟩ := bind_result_eq_ok.mp h
    obtain ⟨_, _, hafter⟩ := bind_result_eq_ok.mp h
    refine ⟨Nat.not_lt.mp hargs, hbefore, hafter, ?_⟩
    rw [code_bind_ok hbefore]
    rfl

/-- At the call instruction each argument is in its register, and a line that is printed without
an argument is given as zero. -/
theorem beforeCall_ensures (placed : Placed) (address : String → Int64) (cpu : Cpu)
    (callee : String) (args : List Source) :
    (placed.beforeCall callee args).Ensures address cpu fun _ next =>
      (∀ entry ∈ args.zip Register.arguments,
        next.get entry.2 = placed.word address cpu entry.1) ∧
      (args = [] → Builtin.ofName? callee = some .printStr → next.get .rdi = 0) ∧
      cpu.SameExcept (.scratch :: Register.arguments) next := by
  refine .bind ((pass_ensures placed address cpu args).mono ?_)
  intro _ middle hmiddle
  obtain ⟨hargs, hsame⟩ := hmiddle
  split
  next hnothing =>
    rw [Bool.and_eq_true, List.isEmpty_iff] at hnothing
    refine .instr rfl ⟨?_, fun _ _ => middle.get_set_self _ _, hsame.set (by decide) _⟩
    rw [hnothing.1]
    exact fun entry hentry => absurd hentry (by simp)
  next hsomething =>
    refine .pure ⟨hargs, fun hempty hprint => ?_, hsame⟩
    exact absurd (by simp [hempty, hprint]) hsomething

theorem resultCode_ensures (placed : Placed) (address : String → Int64) (cpu : Cpu)
    (pending : Option Dest) :
    (placed.resultCode pending).Ensures address cpu fun _ next =>
      (∀ dst register, pending = some dst → placed.assignment.register? dst = some register →
        next.get register = cpu.get .result) ∧
      ∀ register, next.get register = cpu.get register ∨
        ∃ dst, pending = some dst ∧ placed.assignment.register? dst = some register := by
  unfold resultCode
  cases hregister : pending.bind placed.assignment.register? with
  | none =>
      refine .pure ⟨fun dst register hdst hsome => ?_, fun _ => .inl rfl⟩
      simp [hdst, hsome] at hregister
  | some found =>
      obtain ⟨dst, rfl, hdst⟩ := Option.bind_eq_some_iff.mp hregister
      refine move_ensures fun next hget hsame => ⟨?_, fun register => ?_⟩
      · intro other register hother hsome
        obtain rfl := Option.some.inj hother
        obtain rfl := Option.some.inj (hdst.symm.trans hsome)
        exact hget
      · by_cases heq : register = found
        · subst heq
          exact .inr ⟨dst, rfl, hdst⟩
        · exact .inl (hsame register (by simpa using heq))

/-! ## Parameters -/

/-- A live parameter with a register is moved there from its argument register. -/
theorem mem_parameterMoves {move : Move} :
    move ∈ placed.parameterMoves ↔ ∃ dest,
      (dest, move.src) ∈ (placed.function.params.map Dest.var).zip Register.arguments ∧
        dest ∈ placed.function.liveAtStart?.getD .empty ∧
        placed.assignment.register? dest = some move.dst := by
  simp only [parameterMoves, List.mem_filterMap, Prod.exists]
  constructor
  · rintro ⟨dest, argument, hentry, hmove⟩
    split at hmove
    next hlive =>
      obtain ⟨register, hregister, rfl⟩ := Option.map_eq_some_iff.mp hmove
      exact ⟨dest, hentry, hlive, hregister⟩
    next => exact absurd hmove (by simp)
  · rintro ⟨dest, hentry, hlive, hregister⟩
    exact ⟨dest, move.src, hentry, by rw [if_pos hlive, hregister]; rfl⟩

/-- Live parameters have registers of their own. -/
def ParametersApart (placed : Placed) : Prop :=
  ∀ {left right}, left ∈ placed.function.params → right ∈ placed.function.params → left ≠ right →
    Dest.var left ∈ placed.function.liveAtStart?.getD .empty →
    Dest.var right ∈ placed.function.liveAtStart?.getD .empty →
    placed.assignment.register? (.var left) ≠ placed.assignment.register? (.var right)

theorem nodup_parameterMoves (hparams : placed.function.params.Nodup)
    (hapart : placed.ParametersApart) : (placed.parameterMoves.map Move.dst).Nodup := by
  have hdests : (((placed.function.params.map Dest.var).zip Register.arguments).map (·.1)).Nodup :=
    (hparams.map fun _ _ heq => Dest.var.inj heq).sublist (zip_fst_sublist _ _)
  rw [List.Nodup, List.pairwise_map] at hdests
  rw [List.Nodup, List.pairwise_map, parameterMoves, List.pairwise_filterMap]
  apply hdests.imp_of_mem
  rintro ⟨left, leftArgument⟩ ⟨right, rightArgument⟩ hleft hright hne leftMove hleftMove
    rightMove hrightMove
  dsimp only at hne hleftMove hrightMove
  split at hleftMove <;> [skip; exact absurd hleftMove (by simp)]
  next hleftLive =>
    split at hrightMove <;> [skip; exact absurd hrightMove (by simp)]
    next hrightLive =>
      obtain ⟨_, hleftRegister, rfl⟩ := Option.map_eq_some_iff.mp hleftMove
      obtain ⟨_, hrightRegister, rfl⟩ := Option.map_eq_some_iff.mp hrightMove
      obtain ⟨leftName, hleftName, rfl⟩ := List.mem_map.mp (List.of_mem_zip hleft).1
      obtain ⟨rightName, hrightName, rfl⟩ := List.mem_map.mp (List.of_mem_zip hright).1
      intro heq
      have hnames : leftName ≠ rightName := fun hname => hne (congrArg Dest.var hname)
      apply hapart hleftName hrightName hnames hleftLive hrightLive
      rw [hleftRegister, hrightRegister]
      exact congrArg some heq

/-- On entry each live parameter is brought to its register. -/
theorem parameters_ensures (hallocatable : placed.Allocatable)
    (hparams : placed.function.params.Nodup) (hapart : placed.ParametersApart) :
    (moveAll placed.parameterMoves).Ensures address cpu fun _ next =>
      (∀ dest argument register,
        (dest, argument) ∈ (placed.function.params.map Dest.var).zip Register.arguments →
        dest ∈ placed.function.liveAtStart?.getD .empty →
        placed.assignment.register? dest = some register →
          next.get register = cpu.get argument) ∧
      ∀ register, register ≠ .scratch →
        (∀ dest, placed.assignment.register? dest ≠ some register) →
          next.get register = cpu.get register := by
  -- No destination lives in the scratch register, which breaks cycles among the parameters.
  have hscratch : Register.scratch ∉ placed.parameterMoves.map Move.dst := by
    intro hmem
    obtain ⟨move, hmove, hdst⟩ := List.mem_map.mp hmem
    obtain ⟨dest, _, _, hregister⟩ := mem_parameterMoves.mp hmove
    exact (ne_scratch (hallocatable hregister)).1 hdst
  apply (moveAll_ensures (nodup_parameterMoves hparams hapart) hscratch).mono
  intro _ next hnext
  obtain ⟨hmoved, hsame⟩ := hnext
  refine ⟨fun dest argument register hentry hlive hregister => ?_, fun register hne hnone => ?_⟩
  · exact hmoved ⟨register, argument⟩ (mem_parameterMoves.mpr ⟨dest, hentry, hlive, hregister⟩)
  · apply hsame register
    rw [List.mem_cons, not_or]
    refine ⟨hne, fun hmem => ?_⟩
    obtain ⟨move, hmove, rfl⟩ := List.mem_map.mp hmem
    obtain ⟨dest, _, _, hregister⟩ := mem_parameterMoves.mp hmove
    exact hnone dest hregister

end ThreeAddress.Placed
