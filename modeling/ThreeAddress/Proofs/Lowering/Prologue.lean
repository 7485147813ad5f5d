import ThreeAddress.Proofs.Liveness.Sweeps
import ThreeAddress.Proofs.Lowering.Mentions

/-!
# Writing the prologue ends

A prologue is written after the sweeps of the liveness analysis and the rounds in which
the moves of the parameters are put in order. The argument registers do not include the
scratch register, so these moves never read it, and the rounds end even where parameters
share a name or a register and where one of them lives in the scratch register.
-/

namespace ThreeAddress.Placed

open Emission

variable {placed : Placed}

/-- The moves that bring the parameters among the given destinations to their registers. -/
def movesOf (placed : Placed) (live : DestSet) : List Move :=
  ((placed.function.params.map Dest.var).zip Register.arguments).filterMap fun (dest, argument) =>
    if dest ∈ live then
      (placed.assignment.register? dest).map fun register => ⟨register, argument⟩
    else none

/-- A prologue that ends with the given moves. -/
def opening (placed : Placed) (moves : List Move) : Emission Unit := do
  placed.saved.forM fun register => instr (.push register)
  if placed.padding ≠ 0 then instr (.subSp placed.padding)
  moves.forM fun parallel => move parallel.src parallel.dst

/-- The prologue, unless that takes more than the given number of sweeps, or more than the given
number of rounds. -/
def prologueWithin? (placed : Placed) (sweeps rounds : Nat) : Option (Emission Unit) :=
  if maxArguments < placed.function.params.length then
    some (fail (.tooManyParameters placed.function.name placed.function.params.length))
  else do
    let live ← placed.function.settle? sweeps (.none placed.function.code.length)
    let moves := placed.movesOf (live.before.head?.getD .empty)
    let found ← Move.sequence? .scratch rounds (moves.filter fun move => move.dst ≠ move.src)
    return placed.opening found

theorem prologue_eq_opening (h : placed.function.params.length ≤ maxArguments) :
    placed.prologue = placed.opening (Move.resolve placed.parameterMoves .scratch) := by
  unfold prologue Lowering.prologue
  rw [if_neg (Nat.not_lt.mpr h)]
  rfl

/-- A prologue fails for too many parameters only. -/
theorem result_prologue_iff :
    placed.prologue.result = .ok () ↔ placed.function.params.length ≤ maxArguments := by
  have hends := placed.writes_prologue.ends
  calc placed.prologue.result = .ok ()
    _ ↔ CompileError.of? placed.prologue.result = none := by
      rw [CompileError.of?_eq_none_iff]
      exact ⟨fun hresult => ⟨(), hresult⟩, fun ⟨_, hresult⟩ => hresult⟩
    _ ↔ placed.function.params.length ≤ maxArguments := by
      simp [hends, Function.overlongParameters?]

theorem length_parameterMoves_le (placed : Placed) :
    placed.parameterMoves.length ≤ placed.function.params.length := by
  calc placed.parameterMoves.length
    _ ≤ ((placed.function.params.map Dest.var).zip Register.arguments).length :=
      List.length_filterMap_le _ _
    _ ≤ placed.function.params.length := by simp

/-- No argument is passed in the scratch register. -/
theorem scratch_not_mem_src (placed : Placed) :
    Register.scratch ∉ placed.parameterMoves.map Move.src := by
  intro hmem
  obtain ⟨move, hmove, hsrc⟩ := List.mem_map.mp hmem
  obtain ⟨dest, hentry, _, _⟩ := mem_parameterMoves.mp hmove
  have hargument := (List.of_mem_zip hentry).2
  rw [hsrc] at hargument
  exact absurd hargument (by decide)

theorem prologueWithin?_of_lt (h : maxArguments < placed.function.params.length)
    (sweeps rounds : Nat) : placed.prologueWithin? sweeps rounds = some placed.prologue := by
  unfold prologueWithin? prologue Lowering.prologue
  rw [if_pos h, if_pos h]
  rfl

/-- With enough sweeps and rounds, what is written is the prologue. -/
theorem prologueWithin?_of_le (h : placed.function.params.length ≤ maxArguments) {settled : Nat}
    (hsettles : placed.function.Settles settled
      (.none placed.function.code.length) placed.function.liveness) (sweeps rounds : Nat) :
    placed.prologueWithin? sweeps rounds =
      if settled ≤ sweeps ∧ (Move.resolve placed.parameterMoves .scratch).length ≤ rounds then
        some placed.prologue
      else none := by
  have hyields := (Move.Apart.yields_resolve (.inr placed.scratch_not_mem_src)).1 rounds
  rw [prologueWithin?, if_neg (Nat.not_lt.mpr h), hsettles.settle?_eq sweeps,
    prologue_eq_opening h]
  by_cases hsweeps : settled ≤ sweeps
  · simp only [hsweeps, if_true, true_and]
    -- the moves that are put in order are those of the parameters
    change (Move.sequence? .scratch rounds
      (placed.parameterMoves.filter fun move => move.dst ≠ move.src)).bind _ = _
    rw [hyields]
    split <;> rfl
  · simp [hsweeps]

theorem exists_prologueWithin?_eq (placed : Placed) :
    ∃ settled ≤ 2 * placed.function.code.length * placed.function.used.size + 1,
      ∃ ordered ≤ 2 * placed.function.params.length, ∀ sweeps rounds,
        placed.prologueWithin? sweeps rounds =
          if settled ≤ sweeps ∧ ordered ≤ rounds then some placed.prologue else none := by
  by_cases hparams : placed.function.params.length ≤ maxArguments
  · obtain ⟨settled, hsettled, hsettles⟩ := placed.function.exists_settles_liveness
    have hordered := (Move.Apart.yields_resolve (.inr placed.scratch_not_mem_src)).2
    have hlength := placed.length_parameterMoves_le
    refine ⟨settled, hsettled, (Move.resolve placed.parameterMoves .scratch).length, by omega, ?_⟩
    exact prologueWithin?_of_le hparams hsettles
  · -- writing fails before the first sweep
    refine ⟨0, Nat.zero_le _, 0, Nat.zero_le _, fun sweeps rounds => ?_⟩
    simp [prologueWithin?_of_lt (Nat.not_le.mp hparams)]

/-- Putting moves in order ends within two rounds for each of them, with the moves that are found,
even if several moves have one destination, as long as the scratch register is not a destination, or
not a source. So writing the prologue ends for every function, whether or not its parameters have
different names, and whatever registers its destinations live in; it succeeds if there are no more
parameters than registers for them. -/
theorem prologue_ends :
    (∀ (moves : List Move) (scratch : Register),
      scratch ∉ moves.map Move.dst ∨ scratch ∉ moves.map Move.src →
        Move.Yields scratch (moves.filter fun move => move.dst ≠ move.src)
          (Move.resolve moves scratch) ∧
        (Move.resolve moves scratch).length ≤ 2 * moves.length) ∧
    ∀ placed : Placed,
      (placed.prologue.result = .ok () ↔ placed.function.params.length ≤ maxArguments) ∧
      ∃ settled ≤ 2 * placed.function.code.length * placed.function.used.size + 1,
        ∃ ordered ≤ 2 * placed.function.params.length, ∀ sweeps rounds,
          placed.prologueWithin? sweeps rounds =
            if settled ≤ sweeps ∧ ordered ≤ rounds then some placed.prologue else none := by
  constructor
  · intro moves scratch hapart
    exact Move.Apart.yields_resolve hapart
  · intro placed
    exact ⟨result_prologue_iff, placed.exists_prologueWithin?_eq⟩

/-- Moves two of which have one destination, the first from the scratch register. -/
def stalled : List Move := [⟨.rcx, .r10⟩, ⟨.rax, .rcx⟩, ⟨.rcx, .rax⟩]

/-- A function with two parameters of one name, which exchange their registers with the third. -/
def repeating : Placed where
  function :=
    { name := "sum", params := ["x", "y", "x"], locals := [],
      code := [.binary (.arith .add) (.temp 0) (.var "x") (.var "y"), .ret (some (.temp 0))] }
  assignment := ⟨[(.temp 0, some .rax), (.var "x", some .rsi), (.var "y", some .rdi)]⟩

theorem prologue_ends_repeating :
    Move.resolve stalled .r10 =
      [⟨.r10, .r10⟩, ⟨.r10, .rcx⟩, ⟨.rcx, .rax⟩, ⟨.rcx, .r10⟩, ⟨.rax, .r10⟩] ∧
    Move.sequence? .r10 4 stalled = none ∧
    Move.sequence? .r10 5 stalled = some (Move.resolve stalled .r10) ∧
    repeating.prologue.result = .ok () ∧
    repeating.prologue.code =
      [.instr (.subSp 8), .instr (.mov .rdi .r10), .instr (.mov .rsi .rdi),
        .instr (.mov .rdx .rsi), .instr (.mov .r10 .rsi)] ∧
    ∃ settled ≤ 13, ∃ ordered ≤ 6, ∀ sweeps rounds,
      repeating.prologueWithin? sweeps rounds =
        if settled ≤ sweeps ∧ ordered ≤ rounds then some repeating.prologue else none := by
  obtain ⟨hmoves, hprologue⟩ := prologue_ends
  obtain ⟨hyields, -⟩ := hmoves stalled .r10 (.inl (by decide))
  have hresolve : Move.resolve stalled .r10 =
      [⟨.r10, .r10⟩, ⟨.r10, .rcx⟩, ⟨.rcx, .rax⟩, ⟨.rcx, .r10⟩, ⟨.rax, .r10⟩] := by decide
  obtain ⟨hresult, hends⟩ := hprologue repeating
  exact ⟨hresolve, hyields 4, hyields 5, hresult.mpr (by decide), by decide, hends⟩

end ThreeAddress.Placed
