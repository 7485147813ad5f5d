import ThreeAddress.Proofs.Lowering.Passing
import ThreeAddress.Proofs.Native.Stack

/-!
# Entering and leaving routines

The prologue puts the registers that a routine has to preserve on the stack,
below the return address, and brings the parameters to their registers. The
epilogue takes the saved registers back, with the stack pointer at the return
address again.
-/

namespace ThreeAddress

namespace Memory

variable {memory memory' : Memory} {kept : Register → Int64} {address : Nat}
  {registers others : List Register}

/-- The values of registers are in memory, one after the other. -/
def Keeps (memory : Memory) (kept : Register → Int64) : Nat → List Register → Prop
  | _, [] => True
  | address, register :: rest =>
      memory.word address = kept register ∧ memory.Keeps kept (address + 8) rest

theorem keeps_append :
    memory.Keeps kept address (registers ++ others) ↔
      memory.Keeps kept address registers ∧
        memory.Keeps kept (address + 8 * registers.length) others := by
  induction registers generalizing address with
  | nil => simp [Keeps]
  | cons first rest ih =>
      rw [List.cons_append, Keeps, Keeps, ih, and_assoc, List.length_cons,
        show address + 8 + 8 * rest.length = address + 8 * (rest.length + 1) by omega]

theorem Keeps.congr (h : memory.Keeps kept address registers)
    (hsame : memory.SameIn memory' address (address + 8 * registers.length)) :
    memory'.Keeps kept address registers := by
  induction registers generalizing address with
  | nil => trivial
  | cons first rest ih =>
      rw [List.length_cons] at hsame
      refine ⟨?_, ih h.2 (hsame.mono (by omega) (by omega))⟩
      rw [word_congr (hsame.mono (Nat.le_refl _) (by omega)), h.1]

theorem Keeps.congr_kept {kept' : Register → Int64} (h : memory.Keeps kept address registers)
    (hkept : ∀ register ∈ registers, kept' register = kept register) :
    memory.Keeps kept' address registers := by
  induction registers generalizing address with
  | nil => trivial
  | cons first rest ih =>
      refine ⟨?_, ih h.2 fun register hregister => ?_⟩
      · rw [h.1, hkept first List.mem_cons_self]
      · exact hkept register (List.mem_cons_of_mem _ hregister)

end Memory

namespace Machine

/-- Memory outside of a range, the arena and the output are the same in both. -/
structure SameOutside (low high : Nat) (machine next : Machine) : Prop where
  memory : ∀ address, address < low ∨ high ≤ address →
    next.memory.byte address = machine.memory.byte address
  arena : next.arena = machine.arena
  output : next.output = machine.output

variable {host : Host} {executable : Executable} {machine next last : Machine} {low high : Nat}

theorem SameOutside.trans (hfirst : machine.SameOutside low high next)
    (hsecond : next.SameOutside low high last) : machine.SameOutside low high last :=
  ⟨fun address houtside =>
      (hsecond.memory address houtside).trans (hfirst.memory address houtside),
    hsecond.arena.trans hfirst.arena, hsecond.output.trans hfirst.output⟩

theorem SameOutside.mono {low' high' : Nat} (h : machine.SameOutside low high next)
    (hlow : low' ≤ low) (hhigh : high ≤ high') : machine.SameOutside low' high' next :=
  ⟨fun address houtside => h.memory address (by omega), h.arena, h.output⟩

theorem SameRest.sameOutside (h : machine.SameRest next) : machine.SameOutside low high next :=
  ⟨fun _ _ => by rw [h.memory], h.arena, h.output⟩

theorem SameOutside.sameIn (h : machine.SameOutside low high next) {first stop : Nat}
    (hrange : stop ≤ low ∨ high ≤ first) : machine.memory.SameIn next.memory first stop :=
  fun address hle hlt => h.memory address (by omega)

theorem sameOutside_pushed (machine : Machine) (address : Nat) (value : Int64) :
    machine.SameOutside address (address + 8) (machine.pushed address value) :=
  ⟨fun _ houtside => Memory.byte_write_of_lt_or_le _ _ (by rwa [Bytes.length_ofNat]), rfl, rfl⟩

theorem get_pushed_of_ne {register : Register} (hne : register ≠ .rsp) (address : Nat)
    (value : Int64) : (machine.pushed address value).get register = machine.get register :=
  machine.cpu.get_set_of_ne _ hne

theorem get_set_of_ne {register other : Register} (hne : other ≠ register) (value : Int64) :
    (machine.set register value).get other = machine.get other :=
  machine.cpu.get_set_of_ne value hne

variable {position : String → Nat} {address : String → Int64}

/-- What is known after registers were put on the stack, down to a pointer. -/
structure Pushed (machine : Machine) (pointer : Nat) (registers : List Register)
    (next : Machine) : Prop where
  arrived : next.position = machine.position + registers.length
  stack : next.get .rsp = Int64.ofNat pointer
  keeps : next.memory.Keeps machine.get pointer registers.reverse
  others : ∀ register, register ≠ .rsp → next.get register = machine.get register
  same : machine.SameOutside pointer (pointer + 8 * registers.length) next

theorem Leads.pushes (hloaded : executable.LoadedOn host) {registers : List Register}
    (pointer : Nat)
    (hholds : executable.Holds position (Instr.link position address) machine.position
      (registers.map fun register => .instr (.push register)))
    (hstack : machine.get .rsp = Int64.ofNat (pointer + 8 * registers.length))
    (hlow : host.stackTop - host.stackBytes ≤ pointer)
    (hhigh : pointer + 8 * registers.length ≤ host.stackTop) (hrsp : .rsp ∉ registers) :
    machine.Leads host executable (machine.Pushed pointer registers) := by
  induction registers generalizing machine with
  | nil =>
      exact .refl ⟨rfl, hstack, trivial, fun _ _ => rfl, fun _ _ => rfl, rfl, rfl⟩
  | cons first rest ih =>
      obtain ⟨hcode, hrest⟩ := hholds
      rw [List.length_cons] at hstack hhigh
      rw [List.mem_cons, not_or] at hrsp
      -- The first register is pushed highest, and the others below it down to the pointer.
      have hroom : host.InStack (pointer + 8 * rest.length) := ⟨by omega, by omega⟩
      have hpush := push_eq machine.tick hloaded hroom hstack (machine.get first)
      have hnext : machine.tick.exec host executable (.push first) =
          .ok (machine.tick.pushed (pointer + 8 * rest.length) (machine.get first)).advance := by
        change (do return (← machine.tick.push host (machine.get first)).advance) = _
        rw [hpush]
        rfl
      have hpushed := sameOutside_pushed machine.tick (pointer + 8 * rest.length)
        (machine.get first)
      have hmiddle : ∀ register, register ≠ .rsp →
          (machine.tick.pushed (pointer + 8 * rest.length) (machine.get first)).get register =
            machine.get register :=
        fun register hne => get_pushed_of_ne hne _ _
      have hword : (machine.tick.pushed (pointer + 8 * rest.length)
          (machine.get first)).memory.word (pointer + 8 * rest.length) = machine.get first :=
        Memory.word_write _ _ _
      have hpointer : (machine.tick.pushed (pointer + 8 * rest.length) (machine.get first)).get
          .rsp = Int64.ofNat (pointer + 8 * rest.length) :=
        machine.cpu.get_set_self _ _
      refine .exec hcode (by rintro ⟨⟩) hnext (Leads.mono (ih hrest hpointer (by omega) hrsp.2)
        fun next hnext => ?_)
      refine ⟨?_, hnext.stack, ?_, fun register hne => ?_, ?_⟩
      · rw [hnext.arrived, List.length_cons]
        change machine.position + 1 + rest.length = machine.position + (rest.length + 1)
        omega
      · rw [List.reverse_cons, Memory.keeps_append, List.length_reverse]
        refine ⟨?_, ?_, trivial⟩
        · apply hnext.keeps.congr_kept
          intro register hregister
          have hne : register ≠ .rsp := fun heq => hrsp.2 (heq ▸ List.mem_reverse.mp hregister)
          exact (hmiddle register hne).symm
        · rw [Memory.word_congr (hnext.same.sameIn (.inr (Nat.le_refl _)))]
          exact hword
      · rw [hnext.others register hne]
        exact hmiddle register hne
      · rw [List.length_cons]
        have hbefore : machine.SameOutside pointer (pointer + 8 * (rest.length + 1))
            (machine.tick.pushed (pointer + 8 * rest.length) (machine.get first)).advance :=
          ⟨fun other houtside => hpushed.memory other (by omega), rfl, rfl⟩
        exact hbefore.trans (hnext.same.mono (Nat.le_refl _) (by omega))

/-- What is known after registers were taken off the stack, from a pointer on. -/
structure Popped (machine : Machine) (kept : Register → Int64) (pointer : Nat)
    (registers : List Register) (next : Machine) : Prop where
  arrived : next.position = machine.position + registers.length
  stack : next.get .rsp = Int64.ofNat (pointer + 8 * registers.length)
  restored : ∀ register ∈ registers, next.get register = kept register
  others : ∀ register, register ≠ .rsp → register ∉ registers →
    next.get register = machine.get register
  same : machine.SameRest next

theorem Leads.pops (hloaded : executable.LoadedOn host) {registers : List Register} {pointer : Nat}
    {kept : Register → Int64}
    (hholds : executable.Holds position (Instr.link position address) machine.position
      (registers.map fun register => .instr (.pop register)))
    (hstack : machine.get .rsp = Int64.ofNat pointer)
    (hkeeps : machine.memory.Keeps kept pointer registers)
    (hlow : host.stackTop - host.stackBytes ≤ pointer)
    (hhigh : pointer + 8 * registers.length ≤ host.stackTop) (hrsp : .rsp ∉ registers)
    (hnodup : registers.Nodup) :
    machine.Leads host executable (machine.Popped kept pointer registers) := by
  induction registers generalizing machine pointer with
  | nil => exact .refl ⟨rfl, hstack, by simp, fun _ _ _ => rfl, .refl machine⟩
  | cons first rest ih =>
      obtain ⟨hcode, hrest⟩ := hholds
      rw [List.length_cons] at hhigh
      rw [List.mem_cons, not_or] at hrsp
      obtain ⟨hfirst, hnodup⟩ := List.nodup_cons.mp hnodup
      have hroom : host.InStack pointer := ⟨by omega, by omega⟩
      have hpop := pop_eq machine.tick hloaded hroom hstack
      have hnext : machine.tick.exec host executable (.pop first) =
          .ok ((machine.tick.set .rsp (Int64.ofNat (pointer + 8))).set first
            (machine.memory.word pointer)).advance := by
        change (do
          let popped ← machine.tick.pop host executable
          return (popped.2.set first popped.1).advance) = _
        rw [hpop]
        rfl
      have hstack' : ((machine.tick.set .rsp (Int64.ofNat (pointer + 8))).set first
          (machine.memory.word pointer)).get .rsp = Int64.ofNat (pointer + 8) :=
        (get_set_of_ne hrsp.1 _).trans (machine.cpu.get_set_self _ _)
      refine .exec hcode (by rintro ⟨⟩) hnext (Leads.mono (ih hrest hstack' hkeeps.2 (by omega)
        (by omega) hrsp.2 hnodup) fun next hnext => ?_)
      refine ⟨?_, ?_, fun register hregister => ?_, fun register hne hnot => ?_, ?_⟩
      · rw [hnext.arrived, List.length_cons]
        change machine.position + 1 + rest.length = machine.position + (rest.length + 1)
        omega
      · rw [hnext.stack, List.length_cons]
        congr 1
        omega
      · rcases List.mem_cons.mp hregister with rfl | hregister
        -- What was popped first is not popped again, as the registers are different.
        · rw [hnext.others register (fun heq => hrsp.1 heq.symm) hfirst, ← hkeeps.1]
          exact Cpu.get_set_self _ _ _
        · exact hnext.restored register hregister
      · rw [List.mem_cons, not_or] at hnot
        rw [hnext.others register hne hnot.2]
        exact (get_set_of_ne hnot.1 _).trans (get_set_of_ne hne _)
      · exact ⟨hnext.same.memory, hnext.same.arena, hnext.same.output⟩

end Machine

/-! ## Prologue and epilogue -/

namespace Placed

open Emission

variable {placed : Placed}

/-- The bytes that a routine takes of the stack, besides its return address. -/
def frameBytes (placed : Placed) : Nat :=
  8 * placed.saved.length + if placed.saved.length % 2 = 0 then 8 else 0

theorem saved_sublist (placed : Placed) : placed.saved.Sublist Register.calleeSaved :=
  List.filter_sublist

theorem frameBytes_le (placed : Placed) : placed.frameBytes ≤ 40 := by
  have hlength : placed.saved.length ≤ 5 := placed.saved_sublist.length_le
  unfold frameBytes
  split <;> omega

theorem not_mem_saved {register : Register} (h : register ∉ Register.calleeSaved) :
    register ∉ placed.saved :=
  fun hmem => h (placed.saved_sublist.subset hmem)

theorem prologue_eq (h : placed.prologue.result = .ok ()) :
    placed.function.params.length ≤ maxArguments ∧
      (moveAll placed.parameterMoves).result = .ok () ∧
      placed.prologue.code = placed.saved.map (fun register => .instr (.push register)) ++
        (placed.framing .subSp ++ (moveAll placed.parameterMoves).code) := by
  obtain ⟨hpushes, hcode⟩ := forM_instr placed.saved .push
  unfold prologue Lowering.prologue at h ⊢
  by_cases hparams : maxArguments < placed.function.params.length
  · rw [if_pos hparams] at h
    obtain ⟨_, hfail, _⟩ := bind_result_eq_ok.mp h
    exact absurd hfail (by simp)
  · rw [if_neg hparams] at h ⊢
    obtain ⟨_, _, h⟩ := bind_result_eq_ok.mp h
    refine ⟨Nat.not_lt.mp hparams, ?_, ?_⟩
    · split at h
      next => exact (bind_result_eq_ok.mp h).choose_spec.2
      next => exact h
    · rw [code_bind_ok hpushes, hcode]
      unfold framing
      split
      next => rw [code_bind_ok rfl]; rfl
      next => rfl

/-- What is known when the body of a routine starts, with its return address at `entry`. -/
structure Entered (placed : Placed) (machine : Machine) (entry : Nat) (next : Machine) : Prop where
  arrived : next.position = machine.position + Item.count placed.prologue.code
  stack : next.get .rsp = Int64.ofNat (entry - placed.frameBytes)
  keeps : next.memory.Keeps machine.get (entry - 8 * placed.saved.length) placed.saved.reverse
  parameters : ∀ dest argument register,
    (dest, argument) ∈ (placed.function.params.map Dest.var).zip Register.arguments →
    dest ∈ placed.function.liveAtStart?.getD .empty →
    placed.assignment.register? dest = some register → next.get register = machine.get argument
  others : ∀ register, register ≠ .rsp → register ≠ .scratch →
    (∀ dest, placed.assignment.register? dest ≠ some register) →
    next.get register = machine.get register
  same : machine.SameOutside (entry - placed.frameBytes) entry next

/-- What is known when a routine is about to return. -/
structure Restored (placed : Placed) (executable : Executable) (machine : Machine)
    (kept : Register → Int64) (entry : Nat) (next : Machine) : Prop where
  ret : executable.code[next.position]? = some .ret
  stack : next.get .rsp = Int64.ofNat entry
  saved : ∀ register ∈ placed.saved, next.get register = kept register
  others : ∀ register, register ≠ .rsp → register ∉ placed.saved →
    next.get register = machine.get register
  same : machine.SameRest next

variable {host : Host} {executable : Executable} {machine : Machine} {position : String → Nat}
  {address : String → Int64} {entry : Nat}

/-- The padding is what a frame takes besides the saved registers. -/
theorem padding_eq (placed : Placed) :
    placed.padding.toInt64 = Int64.ofNat (placed.frameBytes - 8 * placed.saved.length) := by
  unfold padding frameBytes
  split
  next => rw [Nat.add_sub_cancel_left]; rfl
  next => rw [Nat.add_zero, Nat.sub_self]; rfl

/-- The stack pointer moves by the padding of the frame. -/
theorem leads_framing (code : Int32 → Instr String String String) (delta : Int64)
    (hret : (code placed.padding).link position address ≠ .ret)
    (hexec : ∀ machine : Machine,
      machine.exec host executable ((code placed.padding).link position address) =
        .ok (machine.moveStack delta).advance)
    (hzero : placed.padding = 0 → delta = 0)
    (hholds : executable.Holds position (Instr.link position address) machine.position
      (placed.framing code)) :
    machine.Leads host executable fun next =>
      next.position = machine.position + Item.count (placed.framing code) ∧
        next.get .rsp = machine.get .rsp + delta ∧
        (∀ register, register ≠ .rsp → next.get register = machine.get register) ∧
        machine.SameRest next := by
  unfold framing at hholds ⊢
  by_cases hpadding : placed.padding = 0
  · rw [if_neg (by simpa using hpadding)] at hholds ⊢
    rw [hzero hpadding]
    exact .refl ⟨rfl, (Int64.add_zero _).symm, fun _ _ => rfl, .refl machine⟩
  · rw [if_pos hpadding] at hholds ⊢
    refine .exec hholds.1 hret (hexec _) (.refl ⟨rfl, ?_, fun register hne => ?_, rfl, rfl, rfl⟩)
    · exact machine.cpu.get_compute_self _ _
    · exact machine.cpu.get_compute_of_ne _ hne

theorem count_pushes {registers : List Register}
    (code : Register → Instr String String String) :
    Item.count (registers.map fun register => Item.instr (code register)) = registers.length := by
  induction registers with
  | nil => rfl
  | cons first rest ih => exact congrArg (· + 1) ih

/-- The prologue of a routine that was called with its return address at `entry`. -/
theorem leads_prologue (hloaded : executable.LoadedOn host) (hallocatable : placed.Allocatable)
    (hparams : placed.function.params.Nodup) (hapart : placed.ParametersApart)
    (hwritten : placed.Written)
    (hholds : executable.Holds position (Instr.link position address) machine.position
      placed.prologue.code)
    (hstack : machine.get .rsp = Int64.ofNat entry)
    (hlow : host.stackTop - host.stackBytes + placed.frameBytes ≤ entry)
    (hhigh : entry + 8 ≤ host.stackTop) :
    machine.Leads host executable (placed.Entered machine entry) := by
  obtain ⟨_, hmoves, hcode⟩ := prologue_eq hwritten.prologue
  have hframe : 8 * placed.saved.length ≤ placed.frameBytes := Nat.le_add_right _ _
  rw [hcode, Executable.holds_append, Executable.holds_append, count_pushes] at hholds
  obtain ⟨hpushes, hframing, hbody⟩ := hholds
  have hpointer : entry - 8 * placed.saved.length + 8 * placed.saved.length = entry := by omega
  have hpush := Machine.Leads.pushes hloaded (entry - 8 * placed.saved.length) hpushes
    (by rw [hpointer, hstack]) (by omega) (by omega) (not_mem_saved (by decide))
  apply hpush.bind
  intro first hfirst
  -- The saved registers come first, then the padding, and the parameters last.
  rw [← hfirst.arrived] at hframing
  refine (leads_framing .subSp (-placed.padding.toInt64) (by rintro ⟨⟩)
    (fun _ => rfl) (fun hzero => by rw [hzero]; rfl) hframing).bind ?_
  intro second hsecond
  obtain ⟨hsecondPosition, hsecondStack, hsecondOthers, hsecondSame⟩ := hsecond
  rw [hfirst.stack, placed.padding_eq, ← Int64.sub_eq_add_neg, ← Int64.ofNat_sub _ _ (by omega),
    show entry - 8 * placed.saved.length - (placed.frameBytes - 8 * placed.saved.length) =
      entry - placed.frameBytes by omega] at hsecondStack
  rw [← hfirst.arrived, ← hsecondPosition] at hbody
  refine (Machine.Leads.ensures hbody hmoves
    (parameters_ensures hallocatable hparams hapart)).mono ?_
  intro third hthird
  obtain ⟨⟨hparameters, hothers⟩, hthirdPosition, hthirdSame⟩ := hthird
  have hbefore : ∀ register, register ≠ .rsp → second.get register = machine.get register :=
    fun register hne => (hsecondOthers register hne).trans (hfirst.others register hne)
  refine ⟨?_, ?_, ?_, ?_, ?_, ?_⟩
  · rw [hthirdPosition, hsecondPosition, hfirst.arrived, hcode, Item.count_append,
      Item.count_append, count_pushes]
    omega
  · rw [← hsecondStack]
    apply hothers .rsp (by decide)
    intro dest hdest
    exact (ne_scratch (hallocatable hdest)).2.2.1 rfl
  · rw [hthirdSame.memory, hsecondSame.memory]
    exact hfirst.keeps
  · intro dest argument register hentry hlive hregister
    have hargument : argument ≠ .rsp := by
      have hmem := (List.of_mem_zip hentry).2
      rintro rfl
      exact absurd hmem (by decide)
    exact (hparameters dest argument register hentry hlive hregister).trans
      (hbefore argument hargument)
  · intro register hrsp hscratch hnone
    exact (hothers register hscratch hnone).trans (hbefore register hrsp)
  · have hsame := hfirst.same.trans
      (hsecondSame.trans hthirdSame).sameOutside
    rw [hpointer] at hsame
    exact hsame.mono (by omega) (Nat.le_refl _)

/-- The epilogue of a routine, up to its return. -/
theorem leads_epilogue (hloaded : executable.LoadedOn host) {kept : Register → Int64}
    (hholds : executable.Holds position (Instr.link position address) machine.position
      placed.epilogue.code)
    (hstack : machine.get .rsp = Int64.ofNat (entry - placed.frameBytes))
    (hkeeps : machine.memory.Keeps kept (entry - 8 * placed.saved.length) placed.saved.reverse)
    (hlow : host.stackTop - host.stackBytes + placed.frameBytes ≤ entry)
    (hhigh : entry + 8 ≤ host.stackTop) :
    machine.Leads host executable (placed.Restored executable machine kept entry) := by
  have hframe : 8 * placed.saved.length ≤ placed.frameBytes := Nat.le_add_right _ _
  have hpointer : entry - 8 * placed.saved.length + 8 * placed.saved.reverse.length = entry := by
    rw [List.length_reverse]
    omega
  rw [placed.epilogue_code, Executable.holds_append, Executable.holds_append, count_pushes]
    at hholds
  obtain ⟨hframing, hpops, hret⟩ := hholds
  refine (leads_framing .addSp placed.padding.toInt64 (by rintro ⟨⟩)
    (fun _ => rfl) (fun hzero => by rw [hzero]; rfl) hframing).bind ?_
  intro first hfirst
  obtain ⟨hfirstPosition, hfirstStack, hfirstOthers, hfirstSame⟩ := hfirst
  rw [hstack, placed.padding_eq, ← Int64.ofNat_add,
    show entry - placed.frameBytes + (placed.frameBytes - 8 * placed.saved.length) =
      entry - 8 * placed.saved.length by omega] at hfirstStack
  rw [← hfirstPosition] at hpops hret
  rw [← hfirstSame.memory] at hkeeps
  have hnodup : placed.saved.reverse.Nodup :=
    List.nodup_reverse.mpr
      ((show Register.calleeSaved.Nodup by decide).sublist placed.saved_sublist)
  have hrsp : Register.rsp ∉ placed.saved.reverse :=
    fun hmem => not_mem_saved (by decide) (List.mem_reverse.mp hmem)
  refine (Machine.Leads.pops hloaded hpops hfirstStack hkeeps (by omega) (by omega) hrsp
    hnodup).mono fun second hsecond => ⟨?_, ?_, ?_, ?_, hfirstSame.trans hsecond.same⟩
  · rw [hsecond.arrived]
    exact hret.1
  · rw [hsecond.stack, hpointer]
  · exact fun register hregister => hsecond.restored register (List.mem_reverse.mpr hregister)
  · intro register hne hnot
    rw [hsecond.others register hne fun hmem => hnot (List.mem_reverse.mp hmem),
      hfirstOthers register hne]

end Placed

end ThreeAddress
