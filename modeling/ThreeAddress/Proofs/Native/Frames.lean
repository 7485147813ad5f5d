import ThreeAddress.Proofs.Native.Deployment

/-!
# Activations in registers and on the stack

The routine of an activation holds the values of live destinations in registers,
and keeps on the stack what it has to give back. While it waits for a call, the
registers that the callee preserves hold what is still needed.
-/

namespace ThreeAddress

/-- After an instruction that continues in its function, control is at an instruction or may run
past the end. -/
theorem Function.fallsThrough_of_last {function : Function} {index : Nat} {inst : Inst}
    (hinst : function.code[index]? = some inst) (hend : function.code[index + 1]? = none)
    (hret : ∀ value, inst ≠ .ret value) : function.fallsThrough = true := by
  have hlength : function.code.length = index + 1 := by
    have hlt := (List.getElem?_eq_some_iff.mp hinst).1
    have hle := List.getElem?_eq_none_iff.mp hend
    omega
  unfold fallsThrough
  split
  next value hlast =>
    rw [List.getLast?_eq_getElem?, hlength, Nat.add_sub_cancel, hinst] at hlast
    exact absurd (Option.some.inj hlast) (hret value)
  next => rfl

namespace Placed

variable {placed : Placed} {index : Nat} {inst : Inst} {register : Register}

/-- An instruction may change a register if no destination that lives on needs it, and the routine
need not preserve it or has saved it. -/
structure MayChange (placed : Placed) (index : Nat) (inst : Inst) (register : Register) : Prop where
  pointer : register ≠ .rsp
  saved : register ∈ Register.calleeSaved → register ∈ placed.saved
  dead : ∀ dest, dest ∈ placed.function.liveness.liveAfter index → inst.def? ≠ some dest →
    placed.assignment.register? dest ≠ some register

namespace MayChange

theorem of_scratch (hallocatable : placed.Allocatable)
    (hregister : register ∉ .rsp :: (Register.allocatable ++ Register.calleeSaved)) :
    placed.MayChange index inst register := by
  rw [List.mem_cons, List.mem_append, not_or, not_or] at hregister
  obtain ⟨hpointer, hnone, hsaved⟩ := hregister
  exact ⟨hpointer, fun hmem => absurd hmem hsaved,
    fun _ _ _ hdest => hnone (hallocatable hdest)⟩

theorem of_def (hlegal : placed.assignment.Legal placed.function)
    (hinst : placed.function.code[index]? = some inst) {dst : Dest}
    (hdef : inst.def? = some dst) (hregister : placed.assignment.register? dst = some register) :
    placed.MayChange index inst register := by
  refine ⟨(ne_scratch (hlegal.allocatable hregister)).2.2.1, fun hmem => ?_, ?_⟩
  · exact List.mem_filter.mpr ⟨hmem, decide_eq_true (Assignment.mem_registers hregister)⟩
  · intro dest hlive hne
    exact hlegal.written hinst hdef hregister hlive fun heq => hne (heq ▸ hdef)

theorem mem_liveAcross (hinst : placed.function.code[index]? = some inst) {dest : Dest}
    (hlive : dest ∈ placed.function.liveness.liveAfter index) (hne : inst.def? ≠ some dest) :
    dest ∈ placed.function.liveAcross placed.function.liveness index := by
  rw [Function.liveAcross, hinst]
  exact List.mem_filter.mpr ⟨hlive, decide_eq_true hne⟩

theorem of_call (hlegal : placed.assignment.Legal placed.function)
    (hinst : placed.function.code[index]? = some inst) (hcall : inst.isCall = true)
    (hregister : register ∉ .rsp :: Register.calleeSaved) :
    placed.MayChange index inst register := by
  rw [List.mem_cons, not_or] at hregister
  refine ⟨hregister.1, fun hmem => absurd hmem hregister.2, fun dest hlive hne hdest => ?_⟩
  exact hregister.2 (hlegal.acrossCall hinst hcall (mem_liveAcross hinst hlive hne) hdest)

theorem of_division (hlegal : placed.assignment.Legal placed.function)
    (hinst : placed.function.code[index]? = some inst) (hdivision : inst.isDivision = true)
    (hregister : register = .rax ∨ register = .rdx) : placed.MayChange index inst register := by
  refine ⟨?_, fun hmem => ?_, fun dest hlive hne hdest => ?_⟩
  · rcases hregister with rfl | rfl <;> decide
  · rcases hregister with rfl | rfl <;> exact absurd hmem (by decide)
  · have hkept := hlegal.acrossDivision hinst hdivision (mem_liveAcross hinst hlive hne) hdest
    rcases hregister with rfl | rfl
    · exact hkept.1 rfl
    · exact hkept.2 rfl

end MayChange

end Placed

namespace Deployment

/-- What an activation has in registers, of which the contents are given, and in its part of the
stack, above which is its return address. It has to give back what was kept. -/
structure Active (deployment : Deployment) (frame : Frame) (origins : Origins)
    (pending : Option Dest) (entry : Nat) (kept contents : Register → Int64) (memory : Memory) :
    Prop where
  function : frame.function ∈ deployment.program.functions
  carried : deployment.Carries frame origins pending contents
  keeps : memory.Keeps kept (entry - 8 * (deployment.placed frame.function).saved.length)
    (deployment.placed frame.function).saved.reverse
  unsaved : ∀ register ∈ Register.calleeSaved,
    register ∉ (deployment.placed frame.function).saved → contents register = kept register
  falls : frame.next? = none → frame.function.fallsThrough = true
  low : deployment.host.stackTop - deployment.host.stackBytes +
    (deployment.placed frame.function).frameBytes ≤ entry
  high : entry + 8 ≤ deployment.host.stackTop

variable {deployment : Deployment} {frame : Frame} {origins : Origins} {pending : Option Dest}
  {entry : Nat} {kept contents : Register → Int64} {memory memory' : Memory}

namespace Active

theorem congr_memory (h : deployment.Active frame origins pending entry kept contents memory)
    (hsame : memory.SameIn memory' (entry - (deployment.placed frame.function).frameBytes) entry) :
    deployment.Active frame origins pending entry kept contents memory' := by
  have hlength : 8 * (deployment.placed frame.function).saved.length ≤
      (deployment.placed frame.function).frameBytes := Nat.le_add_right _ _
  have hlow := h.low
  refine ⟨h.function, h.carried, h.keeps.congr (hsame.mono (by omega) ?_), h.unsaved, h.falls,
    h.low, h.high⟩
  rw [List.length_reverse]
  omega

/-- Once the result of an instruction is in the register of its destination, nothing is pending. -/
theorem assign? (h : deployment.Active frame origins pending entry kept contents memory)
    {value : Value} {origin : Option Nat}
    (hvalue : ∀ dst register, pending = some dst →
      (deployment.placed frame.function).assignment.register? dst = some register →
      deployment.Represents origin value (contents register)) :
    deployment.Active (frame.assign? pending value) (origins.set? pending origin) none entry kept
      contents memory := by
  cases pending with
  | none => exact h
  | some dst =>
      refine ⟨h.function, fun dest hlive _ found hfound register hregister => ?_, h.keeps,
        h.unsaved, h.falls, h.low, h.high⟩
      change (frame.bindings.set dst value).get? dest = some found at hfound
      change deployment.Represents (origins.set dst origin dest) found (contents register)
      rw [Bindings.get?_set] at hfound
      rw [Origins.set_apply]
      split at hfound
      next heq =>
        subst heq
        obtain rfl := Option.some.inj hfound
        rw [if_pos rfl]
        exact hvalue _ register rfl hregister
      next hne =>
        rw [if_neg hne]
        exact h.carried dest hlive (fun heq => hne (Option.some.inj heq)) found hfound register
          hregister

variable {limits : Limits} {depth : Nat} {heap : Heap} {inst : Inst} {effect : Effect}
  {contents' : Register → Int64} {next : Nat}

theorem falls_of_next
    (hinst : frame.next? = some inst)
    (hperforms : Performs deployment.program limits depth frame heap inst effect)
    (hnext : effect.next? frame.index = some next) (hend : (frame.goto next).next? = none) :
    frame.function.fallsThrough = true := by
  -- A jump arrives at its label, so the end is only reached from the last instruction.
  have hlabel : ∀ {label : String}, frame.function.labelIndex? label = some next → False := by
    intro label hlabel
    have hget : (frame.goto next).next? = some (.label label) :=
      Function.getElem?_labelIndex hlabel
    exact absurd (hend.symm.trans hget) (by simp)
  cases hperforms with
  | jump htarget | taken _ _ _ htarget =>
      obtain rfl := Option.some.inj hnext
      exact (hlabel htarget).elim
  | leave | leaveWith => cases hnext
  | _ =>
      obtain rfl := Option.some.inj hnext
      exact Function.fallsThrough_of_last hinst hend (by simp)

/-- An instruction that changes only registers that it may change leads to where its effect
continues, with its destination pending. -/
theorem goto (h : deployment.Active frame origins none entry kept contents memory)
    (hsound : deployment.Sound) (hinst : frame.next? = some inst)
    (hperforms : Performs deployment.program limits depth frame heap inst effect)
    (hnext : effect.next? frame.index = some next)
    (hchanged : ∀ register, register ≠ .rsp → contents' register = contents register ∨
      (deployment.placed frame.function).MayChange frame.index inst register) :
    deployment.Active (frame.goto next) origins effect.dst? entry kept contents' memory := by
  have hprint := hsound.regular.prints _ h.function inst (List.mem_of_getElem? hinst)
  refine ⟨h.function, fun dest hlive hpending value hvalue register hregister => ?_, h.keeps,
    fun register hcallee hunsaved => ?_, ?_, h.low, h.high⟩
  -- What is live where the run goes on was live before, unless the instruction writes it.
  · have hafter := hperforms.mem_liveAfter hinst hnext hlive
    rw [hperforms.dst?_eq_def? hprint] at hpending
    have hbefore := (Function.mem_liveBefore_iff hinst).mpr (.inr ⟨hafter, hpending⟩)
    have hpointer := (Placed.ne_scratch (hsound.allocatable h.function hregister)).2.2.1
    rcases hchanged register hpointer with hsame | hmay
    · rw [hsame]
      exact h.carried dest hbefore (by simp) value hvalue register hregister
    · exact absurd hregister (hmay.dead dest hafter hpending)
  · have hpointer : register ≠ .rsp := by
      rintro rfl
      exact absurd hcallee (by decide)
    rcases hchanged register hpointer with hsame | hmay
    · rw [hsame]
      exact h.unsaved register hcallee hunsaved
    · exact absurd (hmay.saved hcallee) hunsaved
  · intro hend
    have hfalls : frame.function.fallsThrough = true := falls_of_next hinst hperforms hnext hend
    exact hfalls

end Active

/-- The routine of an activation is about to carry out the next instruction. -/
structure Running (deployment : Deployment) (frame : Frame) (origins : Origins)
    (pending : Option Dest) (entry : Nat) (kept : Register → Int64) (machine : Machine) :
    Prop where
  active : deployment.Active frame origins pending entry kept machine.get machine.memory
  position : machine.position = deployment.site frame
  pointer : machine.get .rsp =
    Int64.ofNat (entry - (deployment.placed frame.function).frameBytes)

/-- Destinations that are live in an activation are in registers that a callee preserves and that
are not changed when its result arrives. -/
def Preserved (deployment : Deployment) (frame : Frame) (pending : Option Dest) : Prop :=
  ∀ dest, dest ∈ frame.function.liveness.liveBefore frame.index → pending ≠ some dest →
    ∀ register, (deployment.placed frame.function).assignment.register? dest = some register →
      register ∈ Register.calleeSaved ∧ ∀ dst, pending = some dst →
        (deployment.placed frame.function).assignment.register? dst ≠ some register

/-- Activations that wait for calls, the most recent one first. The return address of the one that
they wait for is at `entry`, and it gives back what was kept. -/
inductive Waits (deployment : Deployment) (memory : Memory) :
    List Frame → List Origins → Option Dest → Nat → (Register → Int64) → Prop
  | nil {pending : Option Dest} {entry : Nat} {kept : Register → Int64} :
      memory.word entry = noPosition →
      entry + 8 = deployment.host.stackTop → Waits deployment memory [] [] pending entry kept
  | cons {frame : Frame} {rest : List Frame} {origins : Origins} {others : List Origins}
      {pending : Option Dest} {entry entry' place : Nat} {kept kept' : Register → Int64} :
      memory.word entry = Int64.ofNat place →
      place < 18446744073709551615 →
      deployment.Holds place ((deployment.placed frame.function).resultCode pending).code →
      place + Item.count ((deployment.placed frame.function).resultCode pending).code =
        deployment.site frame →
      deployment.Active frame origins pending entry' kept' kept memory →
      deployment.Preserved frame pending →
      entry + 8 + (deployment.placed frame.function).frameBytes = entry' →
      Waits deployment memory rest others frame.resultDest entry' kept' →
      Waits deployment memory (frame :: rest) (origins :: others) pending entry kept

namespace Waits

variable {frames : List Frame} {waiting : List Origins}

theorem congr_memory (h : deployment.Waits memory frames waiting pending entry kept)
    (hsame : memory.SameIn memory' entry deployment.host.stackTop) :
    deployment.Waits memory' frames waiting pending entry kept := by
  induction h with
  | nil hword htop =>
      exact .nil (by rw [Memory.word_congr (hsame.mono (Nat.le_refl _) (by omega)), hword]) htop
  | @cons frame rest origins others pending entry entry' place kept kept' hword hplace hholds hsite
      hactive hpreserved hentry _ ih =>
      have hhigh := hactive.high
      refine .cons ?_ hplace hholds hsite (hactive.congr_memory (hsame.mono ?_ ?_)) hpreserved
        hentry (ih (hsame.mono ?_ (Nat.le_refl _)))
      · rw [Memory.word_congr (hsame.mono (Nat.le_refl _) (by omega)), hword]
      all_goals omega

/-- The stack is no deeper than the number of activations allows. -/
theorem le_entry (h : deployment.Waits memory frames waiting pending entry kept) :
    deployment.host.stackTop ≤ entry + 8 + 48 * frames.length := by
  induction h with
  | nil _ htop => omega
  | @cons frame _ _ _ _ _ _ _ _ _ _ _ _ _ _ _ hentry _ ih =>
      have hframe := (deployment.placed frame.function).frameBytes_le
      rw [List.length_cons]
      omega

end Waits

end Deployment

end ThreeAddress
