import Mathlib.Data.List.Perm.Subperm
import Mathlib.Logic.Relation
import ThreeAddress.Proofs.Native.Stack

/-!
# Paths through a routine

What a routine does to its caller can be seen from its own code: on every path, with
either outcome of each comparison and with callees that keep their part of the
convention. The words that a routine has on the stack are known at each of its
items, so that each return finds the stack pointer and the registers of the caller
as they were.
-/

namespace ThreeAddress

/-! ## Steps -/

/-- The registers that an instruction may change. -/
def Instr.writes {Target Callee Literal : Type} : Instr Target Callee Literal → List Register
  | .mov _ dst | .movImm _ dst | .leaLiteral _ dst | .load32 _ _ dst | .alu _ _ dst | .neg dst
  | .xorImm _ dst | .signExtend dst | .set _ dst | .zeroExtend dst => [dst]
  | .extendDividend => [.rdx]
  | .divide _ => [.rax, .rdx]
  | .call _ => Machine.callerSaved
  | .pop register => [.rsp, register]
  | .push _ | .subSp _ | .addSp _ | .ret => [.rsp]
  | .store32 _ _ _ | .cmp _ _ | .jmp _ | .jcc _ _ => []

@[simp] theorem Instr.writes_map {Target Callee Literal Target' Callee' Literal' : Type}
    (code : Instr Target Callee Literal) (target : Target → Target') (callee : Callee → Callee')
    (literal : Literal → Literal') : (code.map target callee literal).writes = code.writes := by
  cases code <;> rfl

theorem Cpu.get_of_exec? {Target Callee : Type} {cpu next : Cpu}
    {code : Instr Target Callee Int64} (h : cpu.exec? code = some (.ok next))
    {register : Register} (hnot : register ∉ code.writes) :
    next.get register = cpu.get register := by
  cases code with
  | divide divisor =>
      simp only [Instr.writes, List.mem_cons, List.not_mem_nil, or_false, not_or] at hnot
      simp only [exec?] at h
      split at h
      next => cases h
      next =>
        obtain rfl := Except.ok.inj (Option.some.inj h)
        rw [get_compute_of_ne _ _ hnot.2, get_compute_of_ne _ _ hnot.1]
  | set condition dst =>
      simp only [exec?] at h
      split at h
      next => cases h
      next =>
        obtain rfl := Except.ok.inj (Option.some.inj h)
        exact get_set_of_ne _ _ (List.ne_of_not_mem_cons hnot)
  | cmp left right =>
      obtain rfl := Except.ok.inj (Option.some.inj h)
      rfl
  | mov | movImm | leaLiteral | signExtend | extendDividend | zeroExtend =>
      obtain rfl := Except.ok.inj (Option.some.inj h)
      exact get_set_of_ne _ _ (List.ne_of_not_mem_cons hnot)
  | alu | neg | xorImm =>
      obtain rfl := Except.ok.inj (Option.some.inj h)
      exact get_compute_of_ne _ _ (List.ne_of_not_mem_cons hnot)
  | _ => cases h

/-- Where a jump goes. -/
def Instr.target? {Target Callee Literal : Type} : Instr Target Callee Literal → Option Target
  | .jmp target | .jcc _ target => some target
  | _ => none

/-- Where control is in a routine, and what registers and memory hold. -/
structure Point where
  /-- The item that is next. -/
  index : Nat
  registers : Registers
  memory : Memory

def Point.get (point : Point) (register : Register) : Int64 := point.registers.get register

/-- Carries out an instruction that concerns the stack; `none` for any other one. -/
def Point.onStack? {Target Callee Literal : Type} (point : Point) :
    Instr Target Callee Literal → Option Point
  | .push register => some
      { index := point.index + 1
        registers := point.registers.set .rsp (point.get .rsp - 8)
        memory := point.memory.write (addressOf (point.get .rsp - 8))
          (Bytes.ofNat 8 (addressOf (point.get register))) }
  | .pop register => some
      { point with
        index := point.index + 1
        registers := (point.registers.set .rsp (point.get .rsp + 8)).set register
          (point.memory.word (addressOf (point.get .rsp))) }
  | .subSp bytes => some
      { point with
        index := point.index + 1
        registers := point.registers.set .rsp (point.get .rsp - bytes.toInt64) }
  | .addSp bytes => some
      { point with
        index := point.index + 1
        registers := point.registers.set .rsp (point.get .rsp + bytes.toInt64) }
  | _ => none

/-- An address from a stack pointer up to the one that the routine was entered with. -/
def Owned (pointer entry : Int64) (address : Nat) : Prop :=
  addressOf (Int64.ofNat address - pointer) < addressOf (entry - pointer)

section Paths

variable {Literal : Type}

/-- One item of a routine that was entered with the stack pointer at `entry`. Comparisons may have
come out either way, and a load may yield anything. A store hits none of the routine's own words on
the stack. A call keeps these words and the registers that a callee has to preserve. A division
that traps and a return have no next point. -/
inductive PathStep (address : Literal → Int64) (items : List (Item Literal)) (entry : Int64) :
    Point → Point → Prop
  | label {point : Point} {name : String} (hitem : items[point.index]? = some (.label name)) :
      PathStep address items entry point { point with index := point.index + 1 }
  | compute {point : Point} {code : Instr String String Literal} {compared : Option Ordering}
      {next : Cpu} (hitem : items[point.index]? = some (.instr code))
      (hexec : (Cpu.mk point.registers compared).exec? (code.map id id address) = some (.ok next)) :
      PathStep address items entry point
        { point with index := point.index + 1, registers := next.registers }
  | stack {point next : Point} {code : Instr String String Literal}
      (hitem : items[point.index]? = some (.instr code)) (hnext : point.onStack? code = some next) :
      PathStep address items entry point next
  | load {point : Point} {base dst : Register} {offset : Int32} {value : Int64}
      (hitem : items[point.index]? = some (.instr (.load32 base offset dst))) :
      PathStep address items entry point
        { point with index := point.index + 1, registers := point.registers.set dst value }
  | store {point : Point} {src base : Register} {offset : Int32}
      (hitem : items[point.index]? = some (.instr (.store32 src base offset)))
      (hapart : ∀ byte < 4, ¬ Owned (point.get .rsp) entry
        (addressOf (point.get base + offset.toInt64) + byte)) :
      PathStep address items entry point
        { point with
          index := point.index + 1
          memory := point.memory.write (addressOf (point.get base + offset.toInt64))
            (Bytes.ofNat 4 (addressOf (point.get src))) }
  | jmp {point : Point} {target : String} {index : Nat}
      (hitem : items[point.index]? = some (.instr (.jmp target)))
      (htarget : items[index]? = some (.label target)) :
      PathStep address items entry point { point with index }
  | taken {point : Point} {condition : Condition} {target : String} {index : Nat}
      (hitem : items[point.index]? = some (.instr (.jcc condition target)))
      (htarget : items[index]? = some (.label target)) :
      PathStep address items entry point { point with index }
  | passed {point : Point} {condition : Condition} {target : String}
      (hitem : items[point.index]? = some (.instr (.jcc condition target))) :
      PathStep address items entry point { point with index := point.index + 1 }
  | call {point : Point} {callee : String} {registers : Registers} {memory : Memory}
      (hitem : items[point.index]? = some (.instr (.call callee)))
      (hpointer : registers.get .rsp = point.get .rsp)
      (hregisters : ∀ register, register.isCalleeSaved = true →
        registers.get register = point.get register)
      (hmemory : ∀ address, Owned (point.get .rsp) entry address →
        memory.byte address = point.memory.byte address) :
      PathStep address items entry point ⟨point.index + 1, registers, memory⟩

/-- A path through a routine that is entered at its first item. -/
def Path (address : Literal → Int64) (items : List (Item Literal)) (start point : Point) : Prop :=
  start.index = 0 ∧ Relation.ReflTransGen (PathStep address items (start.get .rsp)) start point

/-- A routine keeps the calling convention where a path has got to. -/
structure KeepsConvention (items : List (Item Literal)) (start point : Point) : Prop where
  inside : point.index < items.length
  /-- A jump goes to the one place of its label. -/
  jumps : ∀ code target, items[point.index]? = some (.instr code) → code.target? = some target →
    ∃! index : Nat, items[index]? = some (Item.label target)
  aligned : ∀ callee, items[point.index]? = some (.instr (.call callee)) →
    addressOf (start.get .rsp) % 16 = 8 → addressOf (point.get .rsp) % 16 = 0
  returns : items[point.index]? = some (.instr .ret) →
    point.get .rsp = start.get .rsp ∧
      ∀ register, register.isCalleeSaved = true → point.get register = start.get register

/-! ## Words of a routine on the stack -/

theorem addressOf_sub (left right : Int64) :
    addressOf (left - right) =
      (18446744073709551616 - addressOf right + addressOf left) % 18446744073709551616 := by
  rw [addressOf, Int64.toUInt64_sub, UInt64.toNat_sub]
  rfl

theorem addressOf_ofNat_mod (value : Nat) :
    addressOf (Int64.ofNat value) = value % 18446744073709551616 := by
  rw [addressOf, Int64.toUInt64_ofNat', UInt64.toNat_ofNat']

/-- The words of a routine on the stack, the latest one first: a register of the caller, or
padding. -/
abbrev Slots := List (Option Register)

/-- The stack pointer below a number of words. -/
def pointerAt (entry : Int64) (depth : Nat) : Int64 := entry - Int64.ofNat (8 * depth)

theorem pointerAt_succ (entry : Int64) (depth : Nat) :
    pointerAt entry (depth + 1) = pointerAt entry depth - 8 := by
  rw [pointerAt, pointerAt, Int64.sub_sub, Nat.mul_succ, Int64.ofNat_add]
  rfl

theorem pointerAt_succ_add (entry : Int64) (depth : Nat) :
    pointerAt entry (depth + 1) + 8 = pointerAt entry depth := by
  rw [pointerAt_succ, Int64.sub_add_cancel]

theorem addressOf_pointerAt (entry : Int64) {depth : Nat} (hdepth : depth ≤ 32) :
    addressOf (pointerAt entry depth) =
      (18446744073709551616 - 8 * depth + addressOf entry) % 18446744073709551616 := by
  rw [pointerAt, addressOf_sub, addressOf_ofNat (by omega)]

/-- The words above a pointer are those between it and the entry, around the end of the address
space too. -/
theorem owned_iff (entry : Int64) {depth other byte : Nat} (hdepth : depth ≤ 32)
    (hother : other ≤ 32) (hbyte : byte < 8) :
    Owned (pointerAt entry depth) entry (addressOf (pointerAt entry other) + byte) ↔
      0 < other ∧ other ≤ depth := by
  have hentry := addressOf_lt entry
  rw [Owned, addressOf_sub, addressOf_sub, addressOf_ofNat_mod, addressOf_pointerAt _ hdepth,
    addressOf_pointerAt _ hother]
  omega

theorem Slots.length_le {slots : Slots} (hnodup : slots.Nodup) : slots.length ≤ 17 := by
  have hsubset : slots ⊆ none :: Register.all.map some := by
    intro slot _
    cases slot with
    | none => exact List.mem_cons_self
    | some register =>
        refine List.mem_cons_of_mem _ (List.mem_map_of_mem ?_)
        cases register <;> decide
  exact (List.subperm_of_subset hnodup hsubset).length_le

/-- The registers of the caller are in memory, one word below the other. -/
def Slots.SavedIn (memory : Memory) (start : Point) : Slots → Prop
  | [] => True
  | none :: below => SavedIn memory start below
  | some register :: below =>
      memory.word (addressOf (pointerAt (start.get .rsp) (below.length + 1))) =
        start.get register ∧ SavedIn memory start below

/-- Memories with the same bytes above a pointer hold the same words there. -/
theorem Slots.SavedIn.congr {memory memory' : Memory} {start : Point} {slots : Slots} {depth : Nat}
    (h : slots.SavedIn memory start) (hdepth : depth ≤ 32) (hlength : slots.length ≤ depth)
    (hsame : ∀ address, Owned (pointerAt (start.get .rsp) depth) (start.get .rsp) address →
      memory'.byte address = memory.byte address) : slots.SavedIn memory' start := by
  induction slots with
  | nil => trivial
  | cons slot below ih =>
      rw [List.length_cons] at hlength
      cases slot with
      | none => exact ih h (by omega)
      | some register =>
          refine ⟨?_, ih h.2 (by omega)⟩
          rw [← h.1]
          refine Memory.word_congr fun address hle hlt => hsame address ?_
          obtain ⟨byte, rfl⟩ := Nat.exists_eq_add_of_le hle
          exact (owned_iff _ hdepth (by omega) (by omega)).mpr (by omega)

/-- What is written outside of a routine's own words leaves them as they are. -/
theorem byte_write_of_apart {pointer entry : Int64} (memory : Memory) {address : Nat}
    {bytes : List UInt8}
    (hapart : ∀ byte < bytes.length, ¬ Owned pointer entry (address + byte)) {other : Nat}
    (howned : Owned pointer entry other) :
    (memory.write address bytes).byte other = memory.byte other := by
  refine Memory.byte_write_of_lt_or_le _ _ ?_
  by_contra hinside
  obtain ⟨byte, rfl⟩ := Nat.exists_eq_add_of_le (show address ≤ other by omega)
  exact hapart byte (by omega) howned

/-- A routine with these words on the stack has changed no register that its caller may want
back. -/
structure Upholds (start : Point) (slots : Slots) (point : Point) : Prop where
  nodup : slots.Nodup
  pointer : point.get .rsp = pointerAt (start.get .rsp) slots.length
  saved : slots.SavedIn point.memory start
  kept : ∀ register, register.isCalleeSaved = true → some register ∉ slots →
    point.get register = start.get register

theorem Upholds.entered (start : Point) : Upholds start [] start where
  nodup := List.nodup_nil
  pointer := (Int64.sub_zero _).symm
  saved := trivial
  kept _ _ _ := rfl

/-! ## Code that keeps to a frame -/

/-- The registers that an item may change. -/
def Item.writes : Item Literal → List Register
  | .label _ => []
  | .instr code => code.writes

/-- A register that a routine with this frame may change. -/
def Slots.Frees (frame : Slots) (register : Register) : Prop :=
  register ≠ .rsp ∧ (register.isCalleeSaved = true → some register ∈ frame)

/-- An item that leaves the stack pointer alone, and the registers of the caller that are not in the
frame. -/
def Item.Tame (frame : Slots) (item : Item Literal) : Prop :=
  ∀ register ∈ item.writes, frame.Frees register

/-- Code that is reached with some words on the stack, and that has those of the frame there at each
label, at each instruction that does not concern the stack, and none at a return. -/
inductive Conforms (frame : Slots) : Slots → List (Item Literal) → Prop
  | tame {item : Item Literal} {rest : List (Item Literal)} (htame : item.Tame frame)
      (hrest : Conforms frame frame rest) : Conforms frame frame (item :: rest)
  | push {slots : Slots} {register : Register} {rest : List (Item Literal)}
      (hsaved : register.isCalleeSaved = true) (hnew : some register ∉ slots)
      (hrest : Conforms frame (some register :: slots) rest) :
      Conforms frame slots (.instr (.push register) :: rest)
  | reserve {slots : Slots} {rest : List (Item Literal)} (hnew : none ∉ slots)
      (hrest : Conforms frame (none :: slots) rest) :
      Conforms frame slots (.instr (.subSp 8) :: rest)
  | release {slots : Slots} {rest : List (Item Literal)} (hrest : Conforms frame slots rest) :
      Conforms frame (none :: slots) (.instr (.addSp 8) :: rest)
  | pop {slots : Slots} {register : Register} {rest : List (Item Literal)}
      (hsaved : register.isCalleeSaved = true) (hrest : Conforms frame slots rest) :
      Conforms frame (some register :: slots) (.instr (.pop register) :: rest)
  | ret {rest : List (Item Literal)} (hrest : Conforms frame frame rest) :
      Conforms frame [] (.instr .ret :: rest)
  | last : Conforms frame [] [.instr .ret]

/-- Wherever a label stands, the words of the frame are on the stack. -/
theorem Conforms.at_label {frame slots : Slots} {items : List (Item Literal)} {index : Nat}
    {name : String} (h : Conforms frame slots items)
    (hlabel : items[index]? = some (.label name)) : Conforms frame frame (items.drop index) := by
  induction h generalizing index with
  | tame htame hrest ih =>
      cases index with
      | zero => exact .tame htame hrest
      | succ index => exact ih hlabel
  | push _ _ _ ih | reserve _ _ ih | release _ ih | pop _ _ ih | ret _ ih =>
      cases index with
      | zero => cases hlabel
      | succ index => exact ih hlabel
  | last =>
      cases index with
      | zero => cases hlabel
      | succ index => cases hlabel

variable {address : Literal → Int64} {items : List (Item Literal)} {start point next last : Point}
  {frame slots : Slots} {item : Item Literal}

/-- An item that leaves the stack pointer alone changes no other registers than it says and none of
the routine's words, and control goes to the next item or to a label. -/
theorem PathStep.same {entry : Int64} (h : PathStep address items entry point next)
    (hitem : items[point.index]? = some item) (hrsp : .rsp ∉ item.writes) :
    (∀ register, register.isCalleeSaved = true ∨ register = .rsp → register ∉ item.writes →
        next.get register = point.get register) ∧
      (∀ address, Owned (point.get .rsp) entry address →
        next.memory.byte address = point.memory.byte address) ∧
      (next.index = point.index + 1 ∨ ∃ name, items[next.index]? = some (.label name)) := by
  cases h with
  | label _ | passed _ => exact ⟨fun _ _ _ => rfl, fun _ _ => rfl, .inl rfl⟩
  | compute hcode hexec =>
      obtain rfl := Option.some.inj (hitem.symm.trans hcode)
      refine ⟨fun register _ hnot => ?_, fun _ _ => rfl, .inl rfl⟩
      exact Cpu.get_of_exec? hexec (by rwa [Instr.writes_map])
  | load hcode =>
      obtain rfl := Option.some.inj (hitem.symm.trans hcode)
      refine ⟨fun register _ hnot => ?_, fun _ _ => rfl, .inl rfl⟩
      exact (Registers.get_set _ _ _ _).trans (if_neg (List.ne_of_not_mem_cons hnot).symm)
  | store _ hapart =>
      refine ⟨fun _ _ _ => rfl, fun other howned => ?_, .inl rfl⟩
      exact byte_write_of_apart _ (by simpa using hapart) howned
  | jmp _ htarget | taken _ htarget => exact ⟨fun _ _ _ => rfl, fun _ _ => rfl, .inr ⟨_, htarget⟩⟩
  | call _ hpointer hregisters hmemory =>
      refine ⟨fun register hregister _ => ?_, hmemory, .inl rfl⟩
      rcases hregister with hsaved | rfl
      · exact hregisters register hsaved
      · exact hpointer
  | @stack _ code hcode hstack =>
      obtain rfl := Option.some.inj (hitem.symm.trans hcode)
      cases code with
      | push | pop | subSp | addSp => exact absurd List.mem_cons_self hrsp
      | _ => cases hstack

theorem Upholds.tame (h : Upholds start frame point) (htame : item.Tame frame)
    (hitem : items[point.index]? = some item)
    (hstep : PathStep address items (start.get .rsp) point next) :
    Upholds start frame next ∧
      (next.index = point.index + 1 ∨ ∃ name, items[next.index]? = some (.label name)) := by
  have hrsp : .rsp ∉ item.writes := fun hmem => (htame _ hmem).1 rfl
  obtain ⟨hregisters, hmemory, hnext⟩ := hstep.same hitem hrsp
  refine ⟨⟨h.nodup, ?_, ?_, fun register hsaved hnot => ?_⟩, hnext⟩
  · rw [hregisters _ (.inr rfl) hrsp, h.pointer]
  · rw [h.pointer] at hmemory
    exact h.saved.congr ((Slots.length_le h.nodup).trans (by omega)) (Nat.le_refl _) hmemory
  · rw [hregisters register (.inl hsaved) fun hmem => hnot ((htame _ hmem).2 hsaved),
      h.kept register hsaved hnot]

/-- After an instruction that concerns the stack there is one next point. -/
theorem PathStep.eq_of_onStack? {entry : Int64} {code : Instr String String Literal}
    (h : PathStep address items entry point next)
    (hitem : items[point.index]? = some (.instr code)) (hlast : point.onStack? code = some last) :
    next = last := by
  cases h with
  | stack hcode hstack =>
      cases hitem.symm.trans hcode
      exact Option.some.inj (hstack.symm.trans hlast)
  | compute hcode hexec =>
      cases hitem.symm.trans hcode
      cases code with
      | push | pop | subSp | addSp => cases hexec
      | _ => cases hlast
  | load hcode | store hcode _ | jmp hcode _ | taken hcode _ | passed hcode | call hcode _ _ _ =>
      cases hitem.symm.trans hcode
      cases hlast
  | label hcode => cases hitem.symm.trans hcode

/-- A return leaves the routine. -/
theorem PathStep.ne_ret {entry : Int64} (h : PathStep address items entry point next) :
    items[point.index]? ≠ some (.instr .ret) := by
  intro hitem
  cases h with
  | stack hcode hstack =>
      cases hitem.symm.trans hcode
      cases hstack
  | compute hcode hexec =>
      cases hitem.symm.trans hcode
      cases hexec
  | label hcode | load hcode | store hcode _ | jmp hcode _ | taken hcode _ | passed hcode
  | call hcode _ _ _ => cases hitem.symm.trans hcode

theorem get_set_rsp {registers : Registers} {register : Register}
    (hsaved : register.isCalleeSaved = true) (value : Int64) :
    (registers.set .rsp value).get register = registers.get register := by
  refine (registers.get_set _ _ _).trans (if_neg ?_)
  rintro rfl
  cases hsaved

theorem Upholds.push {register : Register} (h : Upholds start slots point)
    (hsaved : register.isCalleeSaved = true) (hnew : some register ∉ slots)
    (hitem : items[point.index]? = some (.instr (.push register)))
    (hstep : PathStep address items (start.get .rsp) point next) :
    Upholds start (some register :: slots) next ∧ next.index = point.index + 1 := by
  obtain rfl := hstep.eq_of_onStack? hitem rfl
  have hlength := Slots.length_le h.nodup
  rw [h.pointer, ← pointerAt_succ]
  refine ⟨⟨List.nodup_cons.mpr ⟨hnew, h.nodup⟩, Registers.get_set_self _ _ _, ⟨?_, ?_⟩,
    fun other hother hnot => ?_⟩, rfl⟩
  · rw [Memory.word_write, h.kept register hsaved hnew]
  · refine h.saved.congr (by omega) (Nat.le_refl _) fun other howned => ?_
    refine byte_write_of_apart point.memory (fun byte hbyte => ?_) howned
    rw [Bytes.length_ofNat] at hbyte
    rw [owned_iff _ (by omega) (by omega) hbyte]
    omega
  · exact (get_set_rsp hother _).trans
      (h.kept other hother fun hmem => hnot (List.mem_cons_of_mem _ hmem))

theorem Upholds.pop {register : Register} (h : Upholds start (some register :: slots) point)
    (hsaved : register.isCalleeSaved = true)
    (hitem : items[point.index]? = some (.instr (.pop register)))
    (hstep : PathStep address items (start.get .rsp) point next) :
    Upholds start slots next ∧ next.index = point.index + 1 := by
  obtain rfl := hstep.eq_of_onStack? hitem rfl
  refine ⟨⟨(List.nodup_cons.mp h.nodup).2, ?_, h.saved.2, fun other hother hnot => ?_⟩, rfl⟩
  · have hrsp : register ≠ .rsp := by
      rintro rfl
      cases hsaved
    refine (Registers.get_set _ _ _ _).trans ((if_neg hrsp).trans ?_)
    rw [Registers.get_set_self, h.pointer]
    exact pointerAt_succ_add _ _
  · refine (Registers.get_set _ _ _ _).trans ?_
    split
    next heq =>
      rw [h.pointer, ← heq]
      exact h.saved.1
    next hne =>
      refine (get_set_rsp hother _).trans (h.kept other hother ?_)
      simpa [Ne.symm hne] using hnot

theorem Upholds.reserve (h : Upholds start slots point) (hnew : none ∉ slots)
    (hitem : items[point.index]? = some (.instr (.subSp 8)))
    (hstep : PathStep address items (start.get .rsp) point next) :
    Upholds start (none :: slots) next ∧ next.index = point.index + 1 := by
  obtain rfl := hstep.eq_of_onStack? hitem rfl
  refine ⟨⟨List.nodup_cons.mpr ⟨hnew, h.nodup⟩, ?_, h.saved, fun other hother hnot => ?_⟩, rfl⟩
  · rw [List.length_cons, pointerAt_succ, ← h.pointer]
    exact Registers.get_set_self _ _ _
  · exact (get_set_rsp hother _).trans
      (h.kept other hother fun hmem => hnot (List.mem_cons_of_mem _ hmem))

theorem Upholds.release (h : Upholds start (none :: slots) point)
    (hitem : items[point.index]? = some (.instr (.addSp 8)))
    (hstep : PathStep address items (start.get .rsp) point next) :
    Upholds start slots next ∧ next.index = point.index + 1 := by
  obtain rfl := hstep.eq_of_onStack? hitem rfl
  refine ⟨⟨(List.nodup_cons.mp h.nodup).2, ?_, h.saved, fun other hother hnot => ?_⟩, rfl⟩
  · rw [← pointerAt_succ_add, ← List.length_cons, ← h.pointer]
    exact Registers.get_set_self _ _ _
  · refine (get_set_rsp hother _).trans (h.kept other hother ?_)
    simpa using hnot

/-! ## Paths -/

theorem drop_eq_cons {rest : List (Item Literal)} {index : Nat}
    (h : items.drop index = item :: rest) :
    items[index]? = some item ∧ items.drop (index + 1) = rest := by
  have hfirst := congrArg List.head? h
  have hrest := congrArg List.tail h
  rw [List.head?_drop] at hfirst
  rw [List.tail_drop] at hrest
  exact ⟨hfirst, hrest⟩

/-- A step keeps to the frame. -/
theorem Conforms.step (hstep : PathStep address items (start.get .rsp) point next)
    (hlabels : ∀ index name, items[index]? = some (.label name) →
      Conforms frame frame (items.drop index))
    (h : Conforms frame slots (items.drop point.index)) (hupholds : Upholds start slots point) :
    ∃ slots', Conforms frame slots' (items.drop next.index) ∧ Upholds start slots' next := by
  generalize hsuffix : items.drop point.index = suffix at h
  cases h with
  | tame htame hrest =>
      obtain ⟨hitem, rfl⟩ := drop_eq_cons hsuffix
      obtain ⟨hnext, hindex | ⟨name, hlabel⟩⟩ := hupholds.tame htame hitem hstep
      · exact ⟨_, hindex ▸ hrest, hnext⟩
      · exact ⟨_, hlabels _ _ hlabel, hnext⟩
  | push hsaved hnew hrest =>
      obtain ⟨hitem, rfl⟩ := drop_eq_cons hsuffix
      obtain ⟨hnext, hindex⟩ := hupholds.push hsaved hnew hitem hstep
      exact ⟨_, hindex ▸ hrest, hnext⟩
  | reserve hnew hrest =>
      obtain ⟨hitem, rfl⟩ := drop_eq_cons hsuffix
      obtain ⟨hnext, hindex⟩ := hupholds.reserve hnew hitem hstep
      exact ⟨_, hindex ▸ hrest, hnext⟩
  | release hrest =>
      obtain ⟨hitem, rfl⟩ := drop_eq_cons hsuffix
      obtain ⟨hnext, hindex⟩ := hupholds.release hitem hstep
      exact ⟨_, hindex ▸ hrest, hnext⟩
  | pop hsaved hrest =>
      obtain ⟨hitem, rfl⟩ := drop_eq_cons hsuffix
      obtain ⟨hnext, hindex⟩ := hupholds.pop hsaved hitem hstep
      exact ⟨_, hindex ▸ hrest, hnext⟩
  | ret _ | last => exact absurd (drop_eq_cons hsuffix).1 hstep.ne_ret

theorem Path.tail (h : Path address items start point)
    (hstep : PathStep address items (start.get .rsp) point next) : Path address items start next :=
  ⟨h.1, .tail h.2 hstep⟩

/-- A path through code that keeps to a frame is at code that keeps to it. -/
theorem Conforms.path (h : Conforms frame [] items) (hpath : Path address items start point) :
    ∃ slots, Conforms frame slots (items.drop point.index) ∧ Upholds start slots point := by
  obtain ⟨hstart, hsteps⟩ := hpath
  induction hsteps with
  | refl => exact ⟨[], by rwa [hstart], .entered start⟩
  | tail _ hstep ih =>
      obtain ⟨slots, hconforms, hupholds⟩ := ih
      exact hconforms.step hstep (fun index name hlabel => h.at_label hlabel) hupholds

theorem Conforms.exists_item (h : Conforms frame slots items) :
    ∃ item rest, items = item :: rest := by
  cases h <;> exact ⟨_, _, rfl⟩

/-- At a call the words of the frame are on the stack, and at a return none. -/
theorem Conforms.slots_eq {rest : List (Item Literal)} {code : Instr String String Literal}
    (h : Conforms frame slots (.instr code :: rest)) :
    (∀ callee, code = .call callee → slots = frame) ∧ (code = .ret → slots = []) := by
  cases h with
  | tame htame _ =>
      refine ⟨fun _ _ => rfl, ?_⟩
      rintro rfl
      exact absurd rfl (htame .rsp List.mem_cons_self).1
  | push | reserve | release | pop => exact ⟨fun _ => nofun, nofun⟩
  | ret | last => exact ⟨fun _ => nofun, fun _ => rfl⟩

/-- Code that keeps to a frame with an odd number of words keeps the calling convention. -/
theorem Conforms.keepsConvention (h : Conforms frame [] items) (hodd : frame.length % 2 = 1)
    (hjumps : ∀ code target, .instr code ∈ items → code.target? = some target →
      ∃! index : Nat, items[index]? = some (Item.label target))
    (hpath : Path address items start point) : KeepsConvention items start point := by
  obtain ⟨slots, hconforms, hupholds⟩ := h.path hpath
  obtain ⟨item, rest, hsuffix⟩ := hconforms.exists_item
  obtain ⟨hitem, -⟩ := drop_eq_cons hsuffix
  rw [hsuffix] at hconforms
  refine ⟨(List.getElem?_eq_some_iff.mp hitem).1, ?_, ?_, ?_⟩
  · intro code target hcode htarget
    exact hjumps code target (List.mem_of_getElem? hcode) htarget
  · intro callee hcode haligned
    obtain rfl := Option.some.inj (hitem.symm.trans hcode)
    obtain rfl := hconforms.slots_eq.1 callee rfl
    have hlength := Slots.length_le hupholds.nodup
    rw [hupholds.pointer, addressOf_pointerAt _ (by omega)]
    omega
  · intro hcode
    obtain rfl := Option.some.inj (hitem.symm.trans hcode)
    obtain rfl := hconforms.slots_eq.2 rfl
    exact ⟨hupholds.pointer.trans (Int64.sub_zero _),
      fun register hsaved => hupholds.kept register hsaved List.not_mem_nil⟩

end Paths

end ThreeAddress
