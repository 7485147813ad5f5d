import ThreeAddress.Lowering.Program
import ThreeAddress.Proofs.Lowering.Emission

/-!
# What generators write

A generator writes the code that there is with texts in place, with the numbers that the
texts get from the pool at each point. Each lowering function keeps this, wherever in its
code it interns a text, so a routine is the code of its function with numbers for the texts,
in the order of the code.
-/

namespace ThreeAddress

namespace LiteralPool

/-- Numbers the literals of code in the order of the code. -/
def number (pool : LiteralPool) : List (Item String) → List (Item Nat) × LiteralPool
  | [] => ([], pool)
  | item :: rest =>
      let pool' :=
        match item.literal? with
        | some text => (pool.intern text).2
        | none => pool
      let numbered := pool'.number rest
      (item.mapLiteral (fun text => (pool.intern text).1) :: numbered.1, numbered.2)

/-- Code is numbered part by part. -/
theorem number_append (pool : LiteralPool) (first second : List (Item String)) :
    pool.number (first ++ second) =
      ((pool.number first).1 ++ ((pool.number first).2.number second).1,
        ((pool.number first).2.number second).2) := by
  induction first generalizing pool with
  | nil => rfl
  | cons item rest ih => simp only [List.cons_append, number, ih]

end LiteralPool

namespace Generator

variable {α β : Type}

/-- A generator writes the code of an emission with numbers for the texts, and has its result: it
leaves a pool with the texts of that code, after those that it has found there. -/
def Numbers (generator : Generator α) (emission : Emission α) : Prop :=
  ∀ state : State, generator.run.run state =
    (emission.result, ⟨(state.pool.number emission.code).2,
      state.items ++ (state.pool.number emission.code).1.toArray⟩)

namespace Numbers

theorem pure (value : α) : Numbers (Pure.pure value) (Pure.pure value) := by
  intro state
  change (_, state) = (_, State.mk state.pool (state.items ++ #[]))
  rw [Array.append_empty]
  rfl

theorem fail (error : CompileError) :
    Numbers (CodeWriter.fail error : Generator α) (CodeWriter.fail error) := by
  intro state
  change (_, state) = (_, State.mk state.pool (state.items ++ #[]))
  rw [Array.append_empty]
  rfl

/-- What refers to no literal is written alike. -/
theorem item {item : Item Nat} (hnone : item.literal? = none) :
    Numbers (CodeWriter.item item) (CodeWriter.item (item.mapLiteral fun _ => "")) := by
  intro state
  change (_, State.mk state.pool (state.items.push item)) = _
  have hsame (index : String → Nat) : (item.mapLiteral fun _ => "").mapLiteral index = item := by
    cases item with
    | label => rfl
    | instr code => cases code <;> first | rfl | cases hnone
  have hnone' : (item.mapLiteral fun _ => "").literal? = none := by
    cases item with
    | label => rfl
    | instr code => cases code <;> first | rfl | cases hnone
  simp [LiteralPool.number, CodeWriter.item, hnone', hsame]

theorem instr {code : Instr String String Nat} (hnone : (Item.instr code).literal? = none) :
    Numbers (CodeWriter.instr code) (CodeWriter.instr (code.map id id fun _ => "")) :=
  item hnone

/-- The text of a literal is interned, and the number that it gets is written. -/
theorem leaLiteral (text : String) (dst : Register) :
    Numbers (do CodeWriter.instr (.leaLiteral (← CodeWriter.literal text) dst))
      (do CodeWriter.instr (.leaLiteral (← CodeWriter.literal text) dst)) := by
  intro state
  rfl

theorem bind {generator : Generator α} {emission : Emission α} {next : α → Generator β}
    {next' : α → Emission β} (h : generator.Numbers emission)
    (hnext : ∀ value, (next value).Numbers (next' value)) :
    Numbers (generator >>= next) (emission >>= next') := by
  intro state
  rw [ExceptT.run_bind, StateT.run_bind, h state]
  obtain ⟨code, result⟩ := emission
  cases result with
  | error error => rfl
  | ok value =>
      refine (hnext value _).trans ?_
      simp [Bind.bind, Emission.bind, LiteralPool.number_append]

theorem forM {items : List β} {write : β → Generator Unit} {write' : β → Emission Unit}
    (h : ∀ item ∈ items, (write item).Numbers (write' item)) :
    Numbers (items.forM write) (items.forM write') := by
  induction items with
  | nil => exact pure ()
  | cons first rest ih =>
      obtain ⟨hfirst, hrest⟩ := List.forall_mem_cons.mp h
      exact bind hfirst fun _ => ih hrest

theorem optional (condition : Prop) [Decidable condition] {generator : Generator Unit}
    {emission : Emission Unit} {next : Unit → Generator β} {next' : Unit → Emission β}
    (h : generator.Numbers emission) (hnext : (next ()).Numbers (next' ())) :
    Numbers (if condition then generator >>= next else next ())
      (if condition then emission >>= next' else next' ()) := by
  split
  · exact bind h fun _ => hnext
  · exact hnext

theorem move (src dst : Register) :
    Numbers (Lowering.move src dst) (Lowering.move src dst) := by
  unfold Lowering.move
  split
  · exact pure ()
  · exact instr rfl

theorem moveAll (moves : List Move) :
    Numbers (Lowering.moveAll moves) (Lowering.moveAll moves) :=
  forM fun parallel _ => move parallel.src parallel.dst

/-- An operand may have to be moved out of the way. -/
theorem guard (condition : Prop) [Decidable condition] {register : Register}
    {rest : Register → Generator β} {rest' : Register → Emission β}
    (h : ∀ guarded, (rest guarded).Numbers (rest' guarded)) :
    Numbers
      (if condition then do
        Lowering.move register .scratch
        let guarded ← Pure.pure Register.scratch
        rest guarded
      else do
        let guarded ← Pure.pure register
        rest guarded)
      (if condition then do
        Lowering.move register .scratch
        let guarded ← Pure.pure Register.scratch
        rest' guarded
      else do
        let guarded ← Pure.pure register
        rest' guarded) := by
  split
  · exact bind (move _ _) fun _ => bind (pure _) h
  · exact bind (pure _) h

end Numbers

variable (placed : Placed)

theorem numbers_operand (dest : Dest) :
    Numbers (Lowering.operand placed dest) (placed.operand dest) := by
  unfold Placed.operand Lowering.operand
  split
  · exact .pure _
  · exact .fail _

theorem numbers_source (scratch : Register) (source : Source) :
    Numbers (Lowering.source placed scratch source) (placed.source scratch source) := by
  cases source with
  | temp number => exact numbers_operand placed (.temp number)
  | var name => exact numbers_operand placed (.var name)
  | int value => exact .bind (.instr rfl) fun _ => .pure scratch
  | bool value => exact .bind (.instr rfl) fun _ => .pure scratch
  | str text => exact .bind (.leaLiteral text scratch) fun _ => .pure scratch

theorem numbers_prologue : Numbers (Lowering.prologue placed) placed.prologue := by
  unfold Placed.prologue Lowering.prologue
  refine .optional (maxArguments < placed.function.params.length) (.fail _) ?_
  refine .bind (.forM fun _ _ => .instr rfl) fun _ => ?_
  exact .optional (placed.padding ≠ 0) (.instr rfl) (.moveAll _)

theorem numbers_epilogue : Numbers (Lowering.epilogue placed) placed.epilogue := by
  unfold Placed.epilogue Lowering.epilogue
  refine .optional (placed.padding ≠ 0) (.instr rfl) ?_
  exact .bind (.forM fun _ _ => .instr rfl) fun _ => .instr rfl

theorem numbers_compare (left right : Source) :
    Numbers (Lowering.compare placed left right) (placed.compare left right) :=
  .bind (numbers_source placed .scratch right) fun _ =>
    .bind (numbers_source placed .scratch2 left) fun _ => .instr rfl

theorem numbers_division (dst : Register) (left right : Source) :
    Numbers (Lowering.division placed dst left right) (placed.division dst left right) := by
  refine .bind (numbers_source placed .scratch right) fun register => ?_
  apply Numbers.guard (register.isDivisionClobbered = true)
  intro divisor
  refine .bind (numbers_source placed .rax left) fun dividend => ?_
  refine .bind (.move dividend .rax) fun _ => ?_
  exact .bind (.instr rfl) fun _ => .bind (.instr rfl) fun _ => .bind (.instr rfl) fun _ =>
    .move _ _

theorem numbers_arithmetic (op : ArithOp) (alu : AluOp) (dst : Register) (left right : Source) :
    Numbers (Lowering.arithmetic placed op alu dst left right)
      (placed.arithmetic op alu dst left right) := by
  refine .bind (numbers_source placed .scratch right) fun register => ?_
  apply Numbers.guard (register = dst)
  intro guarded
  refine .bind (numbers_source placed .scratch2 left) fun leftRegister => ?_
  refine .bind (.move leftRegister dst) fun _ => .bind (.instr rfl) fun _ => ?_
  split
  · exact .instr rfl
  · exact .pure ()

theorem numbers_binary (op : BinaryOp) (dst : Register) (left right : Source) :
    Numbers (Lowering.binary placed op dst left right) (placed.binary op dst left right) := by
  cases op with
  | rel op =>
      exact .bind (numbers_compare placed left right) fun _ =>
        .bind (.instr rfl) fun _ => .instr rfl
  | arith op =>
      unfold Placed.binary Lowering.binary
      dsimp only
      split
      · exact numbers_division placed dst left right
      · exact numbers_arithmetic placed op _ dst left right

theorem numbers_unary (op : UnaryOp) (dst : Register) (src : Source) :
    Numbers (Lowering.unary placed op dst src) (placed.unary op dst src) := by
  unfold Placed.unary Lowering.unary
  refine .bind (numbers_source placed dst src) fun _ => .bind (.move _ _) fun _ => ?_
  cases op with
  | neg => exact .bind (.instr rfl) fun _ => .instr rfl
  | not => exact .instr rfl

theorem numbers_argumentMoves (passed : List (Source × Register)) :
    Numbers (Lowering.argumentMoves placed passed) (placed.argumentMoves passed) := by
  induction passed with
  | nil => exact .pure []
  | cons first rest ih =>
      unfold Placed.argumentMoves Lowering.argumentMoves
      split
      · exact ih
      · exact .bind (numbers_operand placed _) fun _ => .bind ih fun _ => .pure _

theorem numbers_call (callee : String) (args : List Source) (dst : Option Dest) :
    Numbers (Lowering.call placed callee args dst) (placed.call callee args dst) := by
  unfold Placed.call Lowering.call
  refine .optional (maxArguments < args.length) (.fail _) ?_
  refine .bind (numbers_argumentMoves placed _) fun moves => .bind (.moveAll moves) fun _ => ?_
  refine .bind (.forM ?_) fun _ => ?_
  · intro passed _
    dsimp only
    split
    · exact .bind (numbers_source placed passed.2 passed.1) fun _ => .pure _
    · exact .pure ()
  · refine .optional (args.isEmpty && Builtin.ofName? callee = some .printStr) (.instr rfl) ?_
    refine .bind (.instr rfl) fun _ => ?_
    split
    · exact .move _ _
    · exact .pure ()

theorem numbers_inst (inst : Inst) :
    Numbers (Lowering.inst placed inst) (placed.inst inst) := by
  cases inst with
  | binary op dst left right =>
      simp only [Placed.inst, Lowering.inst]
      split
      · exact .pure ()
      · exact numbers_binary placed op _ left right
  | unary op dst src =>
      simp only [Placed.inst, Lowering.inst]
      split
      · exact .pure ()
      · exact numbers_unary placed op _ src
  | move dst src =>
      simp only [Placed.inst, Lowering.inst]
      split
      · exact .pure ()
      · exact .bind (numbers_source placed _ src) fun _ => .move _ _
  | load dst address =>
      simp only [Placed.inst, Lowering.inst]
      split
      · exact .pure ()
      · exact .bind (numbers_source placed .scratch _) fun _ => .instr rfl
  | store address src =>
      exact .bind (numbers_source placed .scratch _) fun _ =>
        .bind (numbers_source placed .scratch2 src) fun _ => .instr rfl
  | label name => exact .item rfl
  | jump target => exact .instr rfl
  | branch op left right target =>
      exact .bind (numbers_compare placed left right) fun _ => .instr rfl
  | call callee args dst => exact numbers_call placed callee args dst
  | ret value =>
      cases value with
      | none => exact .bind (.pure ()) fun _ => numbers_epilogue placed
      | some value =>
          exact .bind (numbers_source placed .result value) fun _ =>
            .bind (.move _ _) fun _ => numbers_epilogue placed

theorem numbers_code : Numbers (Lowering.code placed) placed.code := by
  unfold Placed.code Lowering.code
  refine .bind (numbers_prologue placed) fun _ =>
    .bind (.forM fun inst _ => numbers_inst placed inst) fun _ => ?_
  split
  · exact numbers_epilogue placed
  · exact .pure ()

end Generator

/-- A routine is the code of its function with numbers for the texts. -/
theorem Placed.routine_eq (placed : Placed) (pool : LiteralPool) :
    placed.routine pool =
      (placed.code.result.map fun _ => ⟨placed.function.name, (pool.number placed.code.code).1⟩,
        (pool.number placed.code.code).2) := by
  simp only [routine, Generator.numbers_code placed ⟨pool, #[]⟩]
  simp

end ThreeAddress
