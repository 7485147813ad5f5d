import ThreeAddress.Proofs.Native.Frames
import ThreeAddress.Proofs.Native.Paths

/-!
# Straight code

Apart from jumps and returns, the code of an instruction writes registers that
no caller wants back, and registers of destinations. If the caller wants one of
these back, the routine has it on the stack.
-/

namespace ThreeAddress

/-- An instruction that neither jumps nor changes the stack pointer or a register of the caller
that is not in the frame. -/
def Item.Straight {Literal : Type} (frame : Slots) : Item Literal → Prop
  | .label _ => False
  | .instr code => code.target? = none ∧ ∀ register ∈ code.writes, frame.Frees register

theorem Instr.writes_of_target? {Target Callee Literal : Type}
    {code : Instr Target Callee Literal} {target : Target} (h : code.target? = some target) :
    code.writes = [] := by
  cases code with
  | jmp | jcc => rfl
  | _ => cases h

theorem Item.Straight.tame {Literal : Type} {frame : Slots} {item : Item Literal}
    (h : item.Straight frame) : item.Tame frame := by
  cases item with
  | label => exact h.elim
  | instr => exact h.2

theorem Slots.frees_of_not_saved {frame : Slots} {register : Register}
    (hrsp : register ≠ .rsp) (hsaved : register.isCalleeSaved = false) : frame.Frees register :=
  ⟨hrsp, fun h => absurd (hsaved.symm.trans h) (by decide)⟩

theorem Slots.frees_scratch {frame : Slots} : frame.Frees .scratch :=
  frees_of_not_saved (by decide) rfl

theorem Slots.frees_scratch2 {frame : Slots} : frame.Frees .scratch2 :=
  frees_of_not_saved (by decide) rfl

theorem Slots.frees_rdx {frame : Slots} : frame.Frees .rdx :=
  frees_of_not_saved (by decide) rfl

theorem Slots.frees_rax {frame : Slots} : frame.Frees .rax :=
  frees_of_not_saved (by decide) rfl

theorem Slots.frees_of_mem {frame : Slots} {registers : List Register}
    (hall : ∀ register ∈ registers, register ≠ .rsp ∧ register.isCalleeSaved = false)
    {register : Register} (h : register ∈ registers) : frame.Frees register :=
  frees_of_not_saved (hall register h).1 (hall register h).2

theorem Slots.frees_argument {frame : Slots} {register : Register}
    (h : register ∈ Register.arguments) : frame.Frees register :=
  frees_of_mem (by decide) h

theorem Slots.frees_callerSaved {frame : Slots} {register : Register}
    (h : register ∈ Machine.callerSaved) : frame.Frees register :=
  frees_of_mem (by decide) h

namespace Emission

variable {α β : Type} {frame : Slots}

/-- What is written is straight code. -/
def Straight (frame : Slots) (emission : Emission α) : Prop :=
  ∀ item ∈ emission.code, item.Straight frame

theorem Straight.pure (value : α) : Straight frame (Pure.pure value : Emission α) :=
  List.forall_mem_nil _

theorem Straight.fail (error : CompileError) : Straight frame (Emission.fail error : Emission α) :=
  List.forall_mem_nil _

theorem Straight.instr {code : Instr String String String} (hjump : code.target? = none)
    (hwrites : ∀ register ∈ code.writes, frame.Frees register) :
    Straight frame (Emission.instr code) :=
  List.forall_mem_singleton.mpr ⟨hjump, hwrites⟩

/-- An instruction with one register to write. -/
theorem Straight.write {code : Instr String String String} {register : Register}
    (hwrites : code.writes = [register]) (hregister : frame.Frees register) :
    Straight frame (Emission.instr code) := by
  refine .instr ?_ (hwrites ▸ List.forall_mem_singleton.mpr hregister)
  cases code with
  | jmp | jcc => cases hwrites
  | _ => rfl

theorem Straight.bind {first : Emission α} {next : α → Emission β} (hfirst : first.Straight frame)
    (hnext : ∀ value, first.result = .ok value → (next value).Straight frame) :
    (first >>= next).Straight frame := by
  intro item hitem
  cases hresult : first.result with
  | error error =>
      simp only [Bind.bind, Emission.bind, hresult] at hitem
      exact hfirst item hitem
  | ok value =>
      rw [code_bind_ok hresult, List.mem_append] at hitem
      exact hitem.elim (hfirst item) (hnext value hresult item)

theorem Straight.forM {items : List α} {write : α → Emission Unit}
    (h : ∀ item ∈ items, (write item).Straight frame) : (items.forM write).Straight frame := by
  induction items with
  | nil => exact .pure ()
  | cons first rest ih =>
      exact (h first List.mem_cons_self).bind fun _ _ =>
        ih fun item hitem => h item (List.mem_cons_of_mem _ hitem)

end Emission

namespace Placed

open Emission

variable {placed : Placed} {frame : Slots}

/-! ## Straight code -/

theorem straight_move {dst : Register} (src : Register) (hdst : frame.Frees dst) :
    (move src dst).Straight frame := by
  unfold move Lowering.move
  split
  next => exact .pure ()
  next => exact .write rfl hdst

theorem straight_operand (placed : Placed) (dest : Dest) :
    (placed.operand dest).Straight frame := by
  unfold operand Lowering.operand
  split
  next => exact .pure _
  next => exact .fail _

theorem straight_source (placed : Placed) {scratch : Register} (source : Source)
    (hscratch : frame.Frees scratch) : (placed.source scratch source).Straight frame := by
  cases source with
  | temp | var => exact placed.straight_operand _
  | int | bool | str =>
      exact (Straight.write rfl hscratch).bind fun _ _ => .pure _

theorem straight_compare (placed : Placed) (left right : Source) :
    (placed.compare left right).Straight frame :=
  (placed.straight_source right Slots.frees_scratch).bind fun _ _ =>
    (placed.straight_source left Slots.frees_scratch2).bind fun _ _ =>
      .instr rfl (List.forall_mem_nil _)

/-- A register is moved to the scratch register if something may overwrite it. -/
theorem straight_guard {condition : Prop} [Decidable condition] (register : Register) {β : Type}
    {rest : Register → Emission β} (h : ∀ guarded, (rest guarded).Straight frame) :
    (if condition then do
        move register .scratch
        let guarded ← Pure.pure Register.scratch
        rest guarded
      else do
        let guarded ← Pure.pure register
        rest guarded : Emission β).Straight frame := by
  split
  next =>
    exact (straight_move register Slots.frees_scratch).bind fun _ _ =>
      (Straight.pure _).bind fun _ _ => h _
  next => exact (Straight.pure _).bind fun _ _ => h _

theorem straight_division (placed : Placed) {dst : Register} (left right : Source)
    (hdst : frame.Frees dst) : (placed.division dst left right).Straight frame := by
  unfold division Lowering.division
  refine (placed.straight_source right Slots.frees_scratch).bind fun divisor _ => ?_
  apply straight_guard divisor
  intro guarded
  refine (placed.straight_source left Slots.frees_rax).bind fun dividend _ => ?_
  refine (straight_move dividend Slots.frees_rax).bind fun _ _ => ?_
  refine (Straight.write rfl Slots.frees_rdx).bind fun _ _ => ?_
  refine (Straight.instr rfl ?_).bind fun _ _ => ?_
  · exact List.forall_mem_cons.mpr
      ⟨Slots.frees_rax, List.forall_mem_singleton.mpr Slots.frees_rdx⟩
  · exact (Straight.write rfl Slots.frees_rax).bind fun _ _ => straight_move _ hdst

theorem straight_arithmetic (placed : Placed) (op : ArithOp) (alu : AluOp) {dst : Register}
    (left right : Source) (hdst : frame.Frees dst) :
    (placed.arithmetic op alu dst left right).Straight frame := by
  unfold arithmetic Lowering.arithmetic
  refine (placed.straight_source right Slots.frees_scratch).bind fun register _ => ?_
  apply straight_guard register
  intro guarded
  refine (placed.straight_source left Slots.frees_scratch2).bind fun leftRegister _ => ?_
  refine (straight_move leftRegister hdst).bind fun _ _ => ?_
  refine (Straight.write rfl hdst).bind fun _ _ => ?_
  split
  next => exact .write rfl hdst
  next => exact .pure ()

theorem straight_binary (placed : Placed) (op : BinaryOp) {dst : Register} (left right : Source)
    (hdst : frame.Frees dst) : (placed.binary op dst left right).Straight frame := by
  unfold binary Lowering.binary
  split
  next =>
    exact (placed.straight_compare left right).bind fun _ _ =>
      (Straight.write rfl hdst).bind fun _ _ => .write rfl hdst
  next =>
    split
    next => exact placed.straight_division left right hdst
    next => exact placed.straight_arithmetic _ _ left right hdst

theorem straight_unary (placed : Placed) (op : UnaryOp) {dst : Register} (src : Source)
    (hdst : frame.Frees dst) : (placed.unary op dst src).Straight frame := by
  unfold unary Lowering.unary
  refine (placed.straight_source src hdst).bind fun operand _ => ?_
  refine (straight_move operand hdst).bind fun _ _ => ?_
  cases op with
  | neg => exact (Straight.write rfl hdst).bind fun _ _ => .write rfl hdst
  | not => exact .write rfl hdst

theorem straight_moveAll {moves : List Move} (h : ∀ move ∈ moves, frame.Frees move.dst) :
    (moveAll moves).Straight frame := by
  refine .forM fun move hmove => straight_move _ ?_
  rcases Move.dst_of_mem_resolve hmove with hdst | hdst
  · exact hdst ▸ Slots.frees_scratch
  · obtain ⟨other, hother, heq⟩ := List.mem_map.mp hdst
    exact heq ▸ h other hother

theorem straight_argumentMoves (placed : Placed) (passed : List (Source × Register)) :
    (placed.argumentMoves passed).Straight frame := by
  induction passed with
  | nil => exact .pure []
  | cons entry rest ih =>
      unfold argumentMoves Lowering.argumentMoves
      split
      next => exact ih
      next =>
        exact (placed.straight_operand _).bind fun _ _ => ih.bind fun _ _ => .pure _

theorem straight_pass (placed : Placed) (args : List Source) :
    (placed.pass args).Straight frame := by
  have hargument : ∀ register ∈ (args.zip Register.arguments).map (·.2),
      frame.Frees register := fun register hregister =>
    Slots.frees_argument ((zip_snd_sublist args _).subset hregister)
  unfold pass
  refine (placed.straight_argumentMoves _).bind fun moves hmoves => ?_
  refine (straight_moveAll fun move hmove => hargument _ ?_).bind fun _ _ => ?_
  · obtain ⟨_, _, _, hdst, _⟩ :=
      argumentMoves_ensures placed (fun _ => 0) default _ moves hmoves
    exact argumentRegisters_subset _ _ (hdst ▸ List.mem_map_of_mem hmove)
  · refine .forM fun entry hentry => ?_
    dsimp only
    split
    next =>
      exact (placed.straight_source entry.1 (hargument _ (List.mem_map_of_mem hentry))).bind
        fun _ _ => .pure ()
    next => exact .pure ()

theorem straight_beforeCall (placed : Placed) (callee : String) (args : List Source) :
    (placed.beforeCall callee args).Straight frame := by
  refine (placed.straight_pass args).bind fun _ _ => ?_
  split
  next => exact .write rfl (Slots.frees_argument (by decide))
  next => exact .pure ()

theorem straight_call {callee : String} {args : List Source} {dst : Option Dest}
    (hresult : (placed.call callee args dst).result = .ok ())
    (hdst : ∀ register, dst.bind placed.assignment.register? = some register →
      frame.Frees register) : (placed.call callee args dst).Straight frame := by
  have hafter : (placed.resultCode dst).Straight frame := by
    unfold resultCode
    split
    next register hregister => exact straight_move _ (hdst register hregister)
    next => exact .pure ()
  intro item hitem
  rw [(call_eq hresult).2.2.2, List.mem_append, List.mem_cons] at hitem
  rcases hitem with hitem | rfl | hitem
  · exact placed.straight_beforeCall callee args item hitem
  · exact ⟨rfl, fun _ => Slots.frees_callerSaved⟩
  · exact hafter item hitem

/-! ## The frame of a function -/

/-- The words of a routine on the stack while its body runs. -/
def slots (placed : Placed) : Slots :=
  (if placed.padding ≠ 0 then [none] else []) ++ placed.saved.reverse.map some

/-- With the return address the words keep the stack aligned. -/
theorem length_slots (placed : Placed) : placed.slots.length % 2 = 1 := by
  unfold slots padding
  by_cases heven : placed.saved.length % 2 = 0
  · rw [if_pos heven, if_pos (by decide)]
    simp only [List.length_append, List.length_map, List.length_reverse, List.length_singleton]
    omega
  · rw [if_neg heven, if_neg (by decide)]
    simp only [List.length_append, List.length_map, List.length_reverse, List.length_nil]
    omega

/-- The padding is a word of the frame, if there is any. -/
theorem framing_cases (placed : Placed) (code : Int32 → Instr String String String) :
    (placed.slots = none :: placed.saved.reverse.map some ∧
        placed.framing code = [.instr (code 8)]) ∨
      (placed.slots = placed.saved.reverse.map some ∧ placed.framing code = []) := by
  unfold slots framing padding
  by_cases heven : placed.saved.length % 2 = 0
  · rw [if_pos heven]
    exact .inl ⟨rfl, rfl⟩
  · rw [if_neg heven]
    exact .inr ⟨rfl, rfl⟩

/-- The register of a destination may be changed: it is saved if the caller may want it back. -/
theorem frees_register (hallocatable : placed.Allocatable) {dest : Dest} {register : Register}
    (hregister : placed.assignment.register? dest = some register) :
    placed.slots.Frees register := by
  have hmem := hallocatable hregister
  refine ⟨(ne_scratch hmem).2.2.1, fun hsaved => List.mem_append_right _ ?_⟩
  have hcalleeSaved : register ∈ Register.calleeSaved := by
    revert hmem hsaved
    cases register <;> decide
  exact List.mem_map_of_mem (List.mem_reverse.mpr (List.mem_filter.mpr
    ⟨hcalleeSaved, decide_eq_true (Assignment.mem_registers hregister)⟩))

/-- What the code of an instruction looks like. -/
inductive Shaped (placed : Placed) : Inst → List (Item String) → Prop
  | straight {inst : Inst} {items : List (Item String)}
      (hstraight : ∀ item ∈ items, item.Straight placed.slots) (htarget : inst.target? = none)
      (hlabel : ∀ name, inst ≠ .label name) (hret : ∀ value, inst ≠ .ret value) :
      Shaped placed inst items
  | label (name : String) :
      Shaped placed (.label name) [.label (localLabel placed.function.name name)]
  | jump {inst : Inst} {target : String} {before : List (Item String)}
      {code : Instr String String String} (htarget : inst.target? = some target)
      (hbefore : ∀ item ∈ before, item.Straight placed.slots)
      (hcode : code.target? = some (localLabel placed.function.name target)) :
      Shaped placed inst (before ++ [.instr code])
  | ret {value : Option Source} {before : List (Item String)}
      (hbefore : ∀ item ∈ before, item.Straight placed.slots) :
      Shaped placed (.ret value) (before ++ placed.epilogue.code)

/-- Nothing is written for a destination without a register. -/
theorem straight_dest (hallocatable : placed.Allocatable) {dst : Dest}
    {write : Register → Emission Unit}
    (hwrite : ∀ register, placed.slots.Frees register → (write register).Straight placed.slots) :
    (match placed.assignment.register? dst with
      | none => Pure.pure ()
      | some register => write register).Straight placed.slots := by
  split
  next => exact .pure ()
  next register hregister => exact hwrite register (frees_register hallocatable hregister)

theorem shaped_inst (hallocatable : placed.Allocatable) {inst : Inst}
    (hresult : (placed.inst inst).result = .ok ()) :
    placed.Shaped inst (placed.inst inst).code := by
  cases inst with
  | binary op dst left right =>
      exact .straight (straight_dest hallocatable fun _ => placed.straight_binary op left right)
        rfl nofun nofun
  | unary op dst src =>
      exact .straight (straight_dest hallocatable fun _ => placed.straight_unary op src)
        rfl nofun nofun
  | move dst src =>
      refine .straight (straight_dest hallocatable fun register hregister => ?_) rfl nofun nofun
      exact (placed.straight_source src hregister).bind fun _ _ => straight_move _ hregister
  | load dst address =>
      refine .straight (straight_dest hallocatable fun register hregister => ?_) rfl nofun nofun
      exact (placed.straight_source address.base Slots.frees_scratch).bind fun _ _ =>
        .write rfl hregister
  | store address src =>
      refine .straight (Straight.bind (placed.straight_source _ Slots.frees_scratch) fun _ _ => ?_)
        rfl nofun nofun
      exact (placed.straight_source src Slots.frees_scratch2).bind fun _ _ =>
        .instr rfl (List.forall_mem_nil _)
  | label name => exact .label name
  | jump target => exact .jump rfl (List.forall_mem_nil _) rfl
  | branch op left right target =>
      obtain ⟨_, hcompare, _⟩ := bind_result_eq_ok.mp hresult
      change placed.Shaped _ (placed.compare left right >>= fun _ => instr _).code
      rw [code_bind_ok hcompare]
      exact .jump rfl (placed.straight_compare left right) rfl
  | call callee args dst =>
      refine .straight (straight_call hresult fun register hregister => ?_) rfl nofun nofun
      obtain ⟨dest, _, hdest⟩ := Option.bind_eq_some_iff.mp hregister
      exact frees_register hallocatable hdest
  | ret value =>
      cases value with
      | none => exact .ret (List.forall_mem_nil _)
      | some value =>
          have hsplit : placed.inst (.ret (some value)) = (do
              let register ← placed.source .result value
              move register .result) >>= fun _ => placed.epilogue := by
            simp only [inst, Lowering.inst, bind_assoc]
          have hstraight : (do
              let register ← placed.source .result value
              move register .result : Emission Unit).Straight placed.slots :=
            (placed.straight_source value Slots.frees_rax).bind fun _ _ =>
              straight_move _ Slots.frees_rax
          obtain ⟨_, hmove, _⟩ := bind_result_eq_ok.mp (hsplit ▸ hresult)
          rw [hsplit, code_bind_ok hmove]
          exact .ret hstraight

end Placed

end ThreeAddress
