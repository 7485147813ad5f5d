import ThreeAddress.Proofs.Lowering.Execution
import ThreeAddress.Proofs.Lowering.Words

/-!
# Code of operations

The code of an operation computes its result whichever registers the operands
and the destination are in, and changes no other registers than that of the
destination, the scratch registers, and those that a division overwrites.
-/

namespace ThreeAddress

/-- A word is the one that a register holds for a value, if that is an integer or a truth value. -/
def Value.Fits (value : Value) (word : Int64) : Prop :=
  ∀ expected, value.word? = some expected → word = expected

namespace Placed

open Emission

variable {placed : Placed} {address : String → Int64} {cpu : Cpu}

/-- Destinations live in registers that the generated code does not use for itself. -/
def Allocatable (placed : Placed) : Prop :=
  ∀ {dest register}, placed.assignment.register? dest = some register →
    register ∈ Register.allocatable

theorem ne_scratch {register : Register} (h : register ∈ Register.allocatable) :
    register ≠ .scratch ∧ register ≠ .scratch2 ∧ register ≠ .rsp ∧ register ≠ .rbp := by
  revert h
  cases register <;> decide

/-- A source stands for the same word after a register was changed that no destination lives in. -/
theorem word_of_same {registers : List Register} {next : Cpu}
    (hallocatable : placed.Allocatable) (hsame : cpu.SameExcept registers next)
    (hregisters : ∀ register ∈ registers, register ∉ Register.allocatable) (source : Source) :
    placed.word address next source = placed.word address cpu source :=
  word_congr fun _ _ _ hregister =>
    hsame _ fun hmem => hregisters _ hmem (hallocatable hregister)

theorem Sourced.ne {scratch register other : Register} {source : Source} {next : Cpu}
    (h : placed.Sourced address scratch source cpu register next)
    (hallocatable : placed.Allocatable) (hscratch : scratch ≠ other)
    (hother : other ∉ Register.allocatable) : register ≠ other := by
  rcases h.register with ⟨rfl, _⟩ | ⟨_, _, hregister, _⟩
  · exact hscratch
  · exact fun heq => hother (heq ▸ hallocatable hregister)

/-- What two operands are before an operation, the right one first. -/
theorem operands_ensures (hallocatable : placed.Allocatable) {left right : Source} {β : Type}
    {post : β → Cpu → Prop} {rest : Register → Register → Emission β}
    (h : ∀ leftRegister rightRegister next,
      next.get leftRegister = placed.word address cpu left →
      next.get rightRegister = placed.word address cpu right →
      cpu.SameExcept [.scratch, .scratch2] next →
      (rest leftRegister rightRegister).Ensures address next post) :
    (do
      let rightRegister ← placed.source .scratch right
      let leftRegister ← placed.source .scratch2 left
      rest leftRegister rightRegister).Ensures address cpu post := by
  refine .bind ((source_ensures placed address cpu .scratch right).mono ?_)
  intro rightRegister middle hright
  refine .bind ((source_ensures placed address middle .scratch2 left).mono ?_)
  intro leftRegister next hleft
  refine h leftRegister rightRegister next ?_ ?_ ?_
  · rw [hleft.word]
    exact word_of_same hallocatable hright.same (by decide) left
  · have hne : rightRegister ≠ .scratch2 := hright.ne hallocatable (by decide) (by decide)
    rw [hleft.same rightRegister (by simpa using hne), hright.word]
  · exact (hright.same.mono (by simp)).trans (hleft.same.mono (by simp))

theorem compare_ensures (hallocatable : placed.Allocatable) (left right : Source) :
    (placed.compare left right).Ensures address cpu fun _ next =>
      next.compared =
          some (orderOf (placed.word address cpu left) (placed.word address cpu right)) ∧
        cpu.SameExcept [.scratch, .scratch2] next := by
  apply operands_ensures hallocatable
  intro leftRegister rightRegister next hleft hright hsame
  refine .instr rfl ⟨?_, hsame⟩
  rw [hleft, hright]

/-- The condition of a relational operator, as a word. -/
theorem condition_ensures {op : RelOp} {dst : Register} {ordering : Ordering}
    (hcompared : cpu.compared = some ordering) :
    (do
      instr (.set op.condition dst)
      instr (.zeroExtend dst)).Ensures address cpu fun _ next =>
        next.get dst = boolWord (op.condition.holds ordering) ∧ cpu.SameExcept [dst] next := by
  have hholds : cpu.holds? op.condition = some (op.condition.holds ordering) := by
    rw [Cpu.holds?, hcompared, Option.map_some]
  refine .instr_bind (cpu.set dst
    ((cpu.get dst &&& ~~~255) ||| boolWord (op.condition.holds ordering))) ?_
      (.instr rfl ⟨?_, ?_⟩)
  · simp only [Instr.map, Cpu.exec?, hholds, boolWord]
  · rw [Cpu.get_set_self, Cpu.get_set_self, lowByte_boolWord]
  · exact ((Cpu.SameExcept.refl _ cpu).set List.mem_cons_self _).set List.mem_cons_self _

/-- A right operand that an operation would overwrite is brought to the scratch register. -/
theorem guard_ensures (condition : Prop) [Decidable condition] {register : Register} {β : Type}
    {post : β → Cpu → Prop} {rest : Register → Emission β}
    (h : ∀ guarded next, next.get guarded = cpu.get register →
      (guarded = .scratch ∨ (guarded = register ∧ ¬ condition)) →
      cpu.SameExcept [.scratch] next → (rest guarded).Ensures address next post) :
    (if condition then do
        move register .scratch
        let guarded ← pure Register.scratch
        rest guarded
      else do
        let guarded ← pure register
        rest guarded).Ensures address cpu post := by
  split
  next =>
    refine .bind (move_ensures fun next hget hsame => .bind (.pure ?_))
    exact h .scratch next hget (.inl rfl) hsame
  next hnot => exact .bind (.pure (h register cpu rfl (.inr ⟨rfl, hnot⟩) (.refl _ _)))

/-- The registers that an operation on a destination in `dst` may change. -/
def touched (dst : Register) : List Register := [dst, .scratch, .scratch2]

theorem arithmetic_ensures (hallocatable : placed.Allocatable) {op : ArithOp} {alu : AluOp}
    {dst : Register} (hdst : dst ∈ Register.allocatable) (left right : Source) :
    (placed.arithmetic op alu dst left right).Ensures address cpu fun _ next =>
      (let result :=
        alu.eval (placed.word address cpu left) (placed.word address cpu right)
      next.get dst = if op.isLogical then result else result.toInt32.toInt64) ∧
        cpu.SameExcept (touched dst) next := by
  unfold arithmetic Lowering.arithmetic
  refine .bind ((source_ensures placed address cpu .scratch right).mono ?_)
  intro register first hright
  apply guard_ensures (register = dst)
  intro guarded second hguarded hcases hsecond
  refine .bind ((source_ensures placed address second .scratch2 left).mono ?_)
  intro leftRegister third hleft
  refine .bind (move_ensures fun fourth hmoved hfourth => ?_)
  have hscratch := ne_scratch hdst
  -- The left operand is moved to the destination, so the right one must not be there.
  have hguardedDst : guarded ≠ dst := by
    rcases hcases with rfl | ⟨rfl, hne⟩
    · exact hscratch.1.symm
    · exact hne
  have hguardedScratch : guarded ≠ .scratch2 := by
    rcases hcases with rfl | ⟨rfl, _⟩
    · decide
    · exact hright.ne hallocatable (by decide) (by decide)
  have hsameSecond : cpu.SameExcept [.scratch] second := hright.same.trans hsecond
  have hleftWord : fourth.get dst = placed.word address cpu left := by
    rw [hmoved, hleft.word]
    exact word_of_same hallocatable hsameSecond (by decide) left
  have hrightWord : fourth.get guarded = placed.word address cpu right := by
    rw [hfourth guarded (by simpa using hguardedDst),
      hleft.same guarded (by simpa using hguardedScratch), hguarded, hright.word]
  have hsame : cpu.SameExcept (touched dst) fourth :=
    ((hsameSecond.mono (by simp [touched])).trans (hleft.same.mono (by simp [touched]))).trans
      (hfourth.mono (by simp [touched]))
  refine .instr_bind _ rfl ?_
  simp only [← hleftWord, ← hrightWord]
  cases hlogical : op.isLogical with
  | true =>
      refine .pure ⟨?_, hsame.compute (by simp [touched]) _⟩
      rw [Cpu.get_compute_self, if_pos rfl]
  | false =>
      refine .instr rfl ⟨?_, (hsame.compute (by simp [touched]) _).set (by simp [touched]) _⟩
      rw [Cpu.get_set_self, Cpu.get_compute_self]
      rfl

theorem division_ensures (hallocatable : placed.Allocatable) {dst : Register}
    {left right : Source} {quotient remainder : Int64}
    (hdivide : divideWide (if placed.word address cpu left < 0 then -1 else 0)
      (placed.word address cpu left) (placed.word address cpu right) =
        some (quotient, remainder)) :
    (placed.division dst left right).Ensures address cpu fun _ next =>
      next.get dst = quotient.toInt32.toInt64 ∧
        cpu.SameExcept (.rax :: .rdx :: touched dst) next := by
  unfold division Lowering.division
  refine .bind ((source_ensures placed address cpu .scratch right).mono ?_)
  intro register first hright
  apply guard_ensures (register.isDivisionClobbered = true)
  intro guarded second hguarded hcases hsecond
  refine .bind ((source_ensures placed address second .rax left).mono ?_)
  intro leftRegister third hleft
  refine .bind (move_ensures fun fourth hmoved hfourth => ?_)
  -- The dividend takes both registers before the division reads the divisor.
  have hclobbered : guarded ≠ .rax ∧ guarded ≠ .rdx := by
    rcases hcases with rfl | ⟨rfl, hnot⟩
    · decide
    · revert hnot
      cases guarded <;> decide
  have hsameSecond : cpu.SameExcept [.scratch] second := hright.same.trans hsecond
  have hleftWord : fourth.get .rax = placed.word address cpu left := by
    rw [hmoved, hleft.word]
    exact word_of_same hallocatable hsameSecond (by decide) left
  have hrightWord : fourth.get guarded = placed.word address cpu right := by
    rw [hfourth guarded (by simpa using hclobbered.1),
      hleft.same guarded (by simpa using hclobbered.1), hguarded, hright.word]
  have hsame : cpu.SameExcept (.rax :: .rdx :: touched dst) fourth :=
    ((hsameSecond.mono (by simp [touched])).trans (hleft.same.mono (by simp))).trans
      (hfourth.mono (by simp))
  refine .instr_bind _ rfl ?_
  generalize hfifth : fourth.set .rdx (if fourth.get .rax < 0 then -1 else 0) = fifth
  have hrax : fifth.get .rax = placed.word address cpu left := by
    rw [← hfifth, Cpu.get_set_of_ne _ _ (by decide), hleftWord]
  have hrdx : fifth.get .rdx = if placed.word address cpu left < 0 then -1 else 0 := by
    rw [← hfifth, Cpu.get_set_self, hleftWord]
  have hdivisor : fifth.get guarded = placed.word address cpu right := by
    rw [← hfifth, Cpu.get_set_of_ne _ _ hclobbered.2, hrightWord]
  have hsameFifth : cpu.SameExcept (.rax :: .rdx :: touched dst) fifth := by
    rw [← hfifth]
    exact hsame.set (by simp) _
  refine .instr_bind ((fifth.compute .rax quotient).compute .rdx remainder) ?_
    (.instr_bind _ rfl (move_ensures fun last hlast hsameLast => ?_))
  · simp only [Instr.map, Cpu.exec?, hrax, hrdx, hdivisor, hdivide]
  · refine ⟨?_, ?_⟩
    · rw [hlast, Cpu.get_set_self, Cpu.get_compute_of_ne _ _ (by decide), Cpu.get_compute_self]
    · refine Cpu.SameExcept.trans ?_ (hsameLast.mono (by simp [touched]))
      exact ((hsameFifth.compute (by simp) _).compute (by simp) _).set (by simp) _

/-- The registers that an instruction may change when its destination lives in `dst`. -/
def changed (op : BinaryOp) (dst : Register) : List Register :=
  if op = .arith .div then .rax :: .rdx :: touched dst else touched dst

/-- The code of a binary operation leaves its result in the register of the destination. -/
theorem binary_ensures (hallocatable : placed.Allocatable) {op : BinaryOp} {dst : Register}
    (hdst : dst ∈ Register.allocatable) {left right : Source} {leftValue rightValue value : Value}
    (hleft : leftValue.Fits (placed.word address cpu left))
    (hright : rightValue.Fits (placed.word address cpu right))
    (hop : op.eval leftValue rightValue = .ok value) :
    (placed.binary op dst left right).Ensures address cpu fun _ next =>
      value.word? = some (next.get dst) ∧ cpu.SameExcept (changed op dst) next := by
  cases op with
  | rel op =>
      obtain ⟨holds, hholds, rfl⟩ : ∃ holds, op.eval leftValue rightValue = .ok holds ∧
          Value.bool holds = value := by
        simp only [BinaryOp.eval] at hop
        cases hholds : op.eval leftValue rightValue with
        | error => simp [hholds, Except.map] at hop
        | ok holds => exact ⟨holds, rfl, by simpa [hholds, Except.map] using hop⟩
      obtain ⟨leftWord, rightWord, hleftWord, hrightWord, hcondition⟩ := RelOp.eval_eq_ok hholds
      refine .bind ((compare_ensures hallocatable left right).mono ?_)
      intro _ middle hmiddle
      obtain ⟨hcompared, hmiddle⟩ := hmiddle
      apply (condition_ensures hcompared).mono
      intro _ next hnext
      obtain ⟨hget, hsame⟩ := hnext
      rw [hleft leftWord hleftWord, hright rightWord hrightWord, hcondition] at hget
      refine ⟨by rw [hget]; rfl, ?_⟩
      exact (hmiddle.mono (by simp [changed, touched])).trans
        (hsame.mono (by simp [changed, touched]))
  | arith op =>
      cases halu : op.alu? with
      | some alu =>
          obtain ⟨leftWord, rightWord, hleftWord, hrightWord, hvalue⟩ :=
            ArithOp.eval_eq_ok halu hop
          have hne : op ≠ .div := by
            rintro rfl
            simp [ArithOp.alu?] at halu
          have hcode : placed.binary (.arith op) dst left right =
              placed.arithmetic op alu dst left right := by
            simp only [binary, Lowering.binary, halu]
          rw [hcode]
          apply (arithmetic_ensures hallocatable hdst left right).mono
          intro _ next hnext
          obtain ⟨hget, hsame⟩ := hnext
          rw [hleft leftWord hleftWord, hright rightWord hrightWord] at hget
          refine ⟨by rw [hvalue, hget], hsame.mono (by simp [changed, hne])⟩
      | none =>
          obtain rfl : op = .div := by
            cases op <;> simp [ArithOp.alu?] at halu ⊢
          obtain ⟨leftWord, rightWord, quotient, remainder, hleftWord, hrightWord, hdivide,
            hvalue⟩ := ArithOp.div_eq_ok hop
          rw [← hleft leftWord hleftWord, ← hright rightWord hrightWord] at hdivide
          apply (division_ensures hallocatable hdivide).mono
          intro _ next hnext
          obtain ⟨hget, hsame⟩ := hnext
          exact ⟨by rw [hvalue, hget], hsame.mono (by simp [changed])⟩

/-- The code of a unary operation leaves its result in the register of the destination. -/
theorem unary_ensures {op : UnaryOp} {dst : Register} {src : Source} {operand value : Value}
    (hsrc : operand.Fits (placed.word address cpu src)) (hop : op.eval operand = .ok value) :
    (placed.unary op dst src).Ensures address cpu fun _ next =>
      value.word? = some (next.get dst) ∧ cpu.SameExcept [dst] next := by
  unfold unary Lowering.unary
  refine .bind ((source_ensures placed address cpu dst src).mono ?_)
  intro register first hfirst
  refine .bind (move_ensures fun second hmoved hsecond => ?_)
  have hword : second.get dst = placed.word address cpu src := by rw [hmoved, hfirst.word]
  have hsame := hfirst.same.trans hsecond
  cases op with
  | neg =>
      obtain ⟨word, hoperand, hvalue⟩ := UnaryOp.neg_eq_ok hop
      rw [hsrc word hoperand] at hword
      refine .instr_bind _ rfl (.instr rfl ⟨?_, ?_⟩)
      · rw [Cpu.get_set_self, Cpu.get_compute_self, hword, hvalue]
      · exact (hsame.compute List.mem_cons_self _).set List.mem_cons_self _
  | not =>
      obtain ⟨word, hoperand, hvalue⟩ := UnaryOp.not_eq_ok hop
      rw [hsrc word hoperand] at hword
      refine .instr rfl ⟨?_, hsame.compute List.mem_cons_self _⟩
      rw [Cpu.get_compute_self, hword, hvalue]

/-- A copy of a source. -/
theorem copy_ensures (placed : Placed) (address : String → Int64) (cpu : Cpu) (dst : Register)
    (src : Source) :
    (do
      let register ← placed.source dst src
      move register dst).Ensures address cpu fun _ next =>
        next.get dst = placed.word address cpu src ∧ cpu.SameExcept [dst] next := by
  refine .bind ((source_ensures placed address cpu dst src).mono ?_)
  intro register first hfirst
  refine move_ensures fun next hget hsame => ⟨?_, hfirst.same.trans hsame⟩
  rw [hget, hfirst.word]

end Placed

end ThreeAddress
