import ThreeAddress.Proofs.Lowering.Failures

/-!
# Operators in whatever registers

Of operands that an operator takes, its code computes the value that evaluation gives, and is
carried out without a trap, even if operands and destination share registers or are in those
that a division overwrites. Only the scratch registers and, by a division, `rax` and `rdx` are
changed besides the register of the destination.
-/

namespace ThreeAddress

/-- The operands that a binary operator takes. -/
inductive BinaryOp.Takes : BinaryOp → Value → Value → Prop
  | arithmetic {op : ArithOp} (hlogical : op.isLogical = false) {left right : Int32}
      (hdivisor : op = .div → right ≠ 0) : Takes (.arith op) (.int left) (.int right)
  | logical {op : ArithOp} (hlogical : op.isLogical = true) (left right : Bool) :
      Takes (.arith op) (.bool left) (.bool right)
  | order (op : RelOp) (left right : Int32) : Takes (.rel op) (.int left) (.int right)
  | equality {op : RelOp} (hequality : op = .eq ∨ op = .ne) (left right : Bool) :
      Takes (.rel op) (.bool left) (.bool right)

/-- The operand that a unary operator takes. -/
inductive UnaryOp.Takes : UnaryOp → Value → Prop
  | neg (operand : Int32) : Takes .neg (.int operand)
  | not (operand : Bool) : Takes .not (.bool operand)

theorem BinaryOp.Takes.eval {op : BinaryOp} {left right : Value} (h : op.Takes left right) :
    ∃ value, op.eval left right = .ok value := by
  cases h with
  | @arithmetic op hlogical left right hdivisor =>
      cases op with
      | div => exact ⟨.int (left / right), if_neg (hdivisor rfl)⟩
      | add | sub | mul => exact ⟨_, rfl⟩
      | and | or => cases hlogical
  | @logical op hlogical left right =>
      cases op with
      | and | or => exact ⟨_, rfl⟩
      | add | sub | mul | div => cases hlogical
  | order op => cases op <;> exact ⟨_, rfl⟩
  | equality hequality => rcases hequality with rfl | rfl <;> exact ⟨_, rfl⟩

theorem UnaryOp.Takes.eval {op : UnaryOp} {operand : Value} (h : op.Takes operand) :
    ∃ value, op.eval operand = .ok value := by
  cases h <;> exact ⟨_, rfl⟩

namespace Placed

variable {placed : Placed} {cpu : Cpu} {source : Source} {value : Value}

/-- A source has a value: it is a literal, or its destination is in a register that holds an
integer, with the sign extended, or a truth value as 0 or 1. -/
inductive Supplies (placed : Placed) (cpu : Cpu) : Source → Value → Prop
  | int (value : Int32) : Supplies placed cpu (.int value) (.int value)
  | bool (value : Bool) : Supplies placed cpu (.bool value) (.bool value)
  | register {dest : Dest} {register : Register} {value : Value}
      (hregister : placed.assignment.register? dest = some register)
      (hword : value.word? = some (cpu.get register)) : Supplies placed cpu dest.toSource value

theorem Supplies.fits (h : placed.Supplies cpu source value) (address : String → Int64) :
    value.Fits (placed.word address cpu source) := by
  intro expected hexpected
  cases h with
  | int | bool => exact Option.some.inj hexpected
  | register hregister hword =>
      rw [word_of_dest (Dest.dest?_toSource _) hregister]
      exact Option.some.inj (hword.symm.trans hexpected)

theorem Supplies.assigned (h : placed.Supplies cpu source value) {dest : Dest}
    (hdest : source.dest? = some dest) :
    ∃ register, placed.assignment.register? dest = some register := by
  cases h with
  | int | bool => cases hdest
  | register hregister =>
      rw [Dest.dest?_toSource] at hdest
      exact ⟨_, Option.some.inj hdest ▸ hregister⟩

/-- An instruction whose operands have values can be lowered, unless it passes too much. -/
theorem result_of_supplies {inst : Inst}
    (hsources : ∀ source ∈ inst.sources, ∃ value, placed.Supplies cpu source value)
    (hlength : placed.function.overlongCall? inst = none) :
    (placed.inst inst).result = .ok () := by
  have hassigned : ∀ dest ∈ inst.uses,
      ∃ register, placed.assignment.register? dest = some register := by
    intro dest huse
    obtain ⟨source, hsource, hdest⟩ := List.mem_filterMap.mp huse
    obtain ⟨value, hvalue⟩ := hsources source hsource
    exact hvalue.assigned hdest
  have hends := (placed.writes_inst inst).ends
  rw [unlowerable?_of_assigned hassigned, hlength, CompileError.of?_eq_none_iff] at hends
  exact hends.choose_spec

theorem inst_binary {op : BinaryOp} {dst : Dest} {left right : Source} {register : Register}
    (hregister : placed.assignment.register? dst = some register) :
    placed.inst (.binary op dst left right) = placed.binary op register left right := by
  simp only [inst, Lowering.inst, hregister]

theorem inst_unary {op : UnaryOp} {dst : Dest} {src : Source} {register : Register}
    (hregister : placed.assignment.register? dst = some register) :
    placed.inst (.unary op dst src) = placed.unary op register src := by
  simp only [inst, Lowering.inst, hregister]

theorem mem_changed {op : BinaryOp} {dst other : Register} :
    other ∈ changed op dst ↔ other = dst ∨ other = .r10 ∨ other = .r11 ∨
      (op = .arith .div ∧ (other = .rax ∨ other = .rdx)) := by
  have htouched : other ∈ touched dst ↔ other = dst ∨ other = .r10 ∨ other = .r11 := by
    simp [touched, Register.scratch, Register.scratch2]
  unfold changed
  split
  next hdivision =>
    rw [List.mem_cons, List.mem_cons, htouched]
    simp only [hdivision, true_and]
    tauto
  next hother =>
    rw [htouched]
    simp only [hother, false_and, or_false]

/-- The code of an operator leaves the value of the operator in the register of the destination,
for all operands that the operator takes and wherever these and the destination are. It runs to its
end, and of the other registers it changes none but the scratch registers and those of a
division. -/
theorem operators_compute (hallocatable : placed.Allocatable) (address : String → Int64)
    (cpu : Cpu) :
    (∀ op dst left right register leftValue rightValue,
      placed.assignment.register? dst = some register →
      placed.Supplies cpu left leftValue → placed.Supplies cpu right rightValue →
      op.Takes leftValue rightValue →
      ∃ value next, op.eval leftValue rightValue = .ok value ∧
        (placed.inst (.binary op dst left right)).result = .ok () ∧
        cpu.execAll address (placed.inst (.binary op dst left right)).code = some next ∧
        value.word? = some (next.get register) ∧
        ∀ other, next.get other ≠ cpu.get other →
          other = register ∨ other = .r10 ∨ other = .r11 ∨
            (op = .arith .div ∧ (other = .rax ∨ other = .rdx))) ∧
    ∀ op dst src register operand, placed.assignment.register? dst = some register →
      placed.Supplies cpu src operand → op.Takes operand →
      ∃ value next, op.eval operand = .ok value ∧
        (placed.inst (.unary op dst src)).result = .ok () ∧
        cpu.execAll address (placed.inst (.unary op dst src)).code = some next ∧
        value.word? = some (next.get register) ∧
        ∀ other, next.get other ≠ cpu.get other → other = register := by
  constructor
  · intro op dst left right register leftValue rightValue hregister hleft hright htakes
    obtain ⟨value, hvalue⟩ := htakes.eval
    have hsources : ∀ source ∈ (Inst.binary op dst left right).sources,
        ∃ value, placed.Supplies cpu source value :=
      List.forall_mem_cons.mpr ⟨⟨leftValue, hleft⟩,
        List.forall_mem_singleton.mpr ⟨rightValue, hright⟩⟩
    have hresult : (placed.inst (.binary op dst left right)).result = .ok () :=
      result_of_supplies hsources rfl
    rw [inst_binary hregister] at hresult ⊢
    obtain ⟨next, hexec, hword, hsame⟩ := binary_ensures hallocatable (hallocatable hregister)
      (hleft.fits address) (hright.fits address) hvalue () hresult
    refine ⟨value, next, hvalue, hresult, hexec, hword, fun other hchanged => ?_⟩
    exact mem_changed.mp (not_not.mp fun hnot => hchanged (hsame other hnot))
  · intro op dst src register operand hregister hsrc htakes
    obtain ⟨value, hvalue⟩ := htakes.eval
    have hresult : (placed.inst (.unary op dst src)).result = .ok () :=
      result_of_supplies (List.forall_mem_singleton.mpr ⟨operand, hsrc⟩) rfl
    rw [inst_unary hregister] at hresult ⊢
    obtain ⟨next, hexec, hword, hsame⟩ := unary_ensures (hsrc.fits address) hvalue () hresult
    refine ⟨value, next, hvalue, hresult, hexec, hword, fun other hchanged => ?_⟩
    exact List.mem_singleton.mp (not_not.mp fun hnot => hchanged (hsame other hnot))

/-- A division whose operands are in the registers that it overwrites, the divisor in that of the
quotient. -/
def crossing : Placed where
  function :=
    { name := "quotient", params := [], locals := [],
      code := [.binary (.arith .div) (.temp 0) (.temp 1) (.temp 2)] }
  assignment := ⟨[(.temp 0, some .rax), (.temp 1, some .rdx), (.temp 2, some .rax)]⟩

/-- The least integer divided by -1 wraps around, as the quotient has 64 bits. -/
theorem operators_compute_crossing :
    ∃ next, (((default : Cpu).set .rdx (-2147483648)).set .rax (-1)).execAll (fun _ => 0)
        (crossing.inst (.binary (.arith .div) (.temp 0) (.temp 1) (.temp 2))).code = some next ∧
      next.get .rax = -2147483648 ∧ next.get .rbx = 0 := by
  have hallocatable : crossing.Allocatable := by
    intro dest register hregister
    have hmem : ∀ register ∈ crossing.assignment.registers, register ∈ Register.allocatable := by
      decide
    exact hmem register (Assignment.mem_registers hregister)
  generalize hcpu : ((default : Cpu).set .rdx (-2147483648)).set .rax (-1) = cpu
  have hleft : crossing.Supplies cpu (.temp 1) (.int (-2147483648)) :=
    @Supplies.register _ _ (.temp 1) .rdx _ rfl (by rw [← hcpu]; rfl)
  have hright : crossing.Supplies cpu (.temp 2) (.int (-1)) :=
    @Supplies.register _ _ (.temp 2) .rax _ rfl (by rw [← hcpu]; rfl)
  obtain ⟨value, next, hvalue, -, hexec, hword, hchanged⟩ :=
    (operators_compute hallocatable (fun _ => 0) cpu).1 (.arith .div) (.temp 0) (.temp 1) (.temp 2)
      .rax _ _ rfl hleft hright (.arithmetic rfl fun _ => by decide)
  obtain rfl : Value.int (-2147483648) = value := Except.ok.inj hvalue
  refine ⟨next, hexec, (Option.some.inj hword).symm, ?_⟩
  have hrbx : next.get .rbx = cpu.get .rbx := by
    by_contra hne
    exact absurd (hchanged .rbx hne) (by decide)
  rw [hrbx, ← hcpu]
  rfl

end Placed

end ThreeAddress
