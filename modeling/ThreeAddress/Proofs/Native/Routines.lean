import ThreeAddress.Proofs.Native.Calls

/-!
# Calls of routines

A call puts the return address on the stack, below the frame of the caller, and
the routine starts with its parameters in their registers. The caller waits with
its own frame as it was.
-/

namespace ThreeAddress

theorem Function.liveAtStart_eq (function : Function) :
    function.liveAtStart?.getD .empty = function.liveness.liveBefore 0 := by
  rw [liveAtStart?, Liveness.liveBefore, List.head?_eq_getElem?]

namespace Deployment

variable {deployment : Deployment} {frame : Frame} {origins : Origins} {entry : Nat}
  {pending : Option Dest} {kept : Register → Int64} {machine : Machine}

theorem parametersApart_of_legal {callee : Function}
    (hlegal : (deployment.placed callee).assignment.Legal callee) :
    (deployment.placed callee).ParametersApart := by
  intro left right hleft hright hne hleftLive hrightLive
  rw [show (deployment.placed callee).function = callee from rfl,
    Function.liveAtStart_eq] at hleftLive hrightLive
  exact hlegal.parameters hleft hright hne hleftLive hrightLive

/-- The prologue of a routine stands at its entrance. -/
theorem holds_prologue (hsound : deployment.Sound) {callee : Function}
    (hcallee : callee ∈ deployment.program.functions) :
    deployment.Holds (deployment.entrance callee) (deployment.placed callee).prologue.code := by
  have hwritten : (deployment.placed callee).Written := hsound.installed.written callee hcallee
  have hholds := hsound.installed.holds callee hcallee
  change deployment.Holds _ (deployment.placed callee).code.code at hholds
  rw [hwritten.code, Placed.codeBefore, List.append_assoc, Holds,
    Executable.holds_append] at hholds
  exact hholds.1

/-- The parameters that are live in the end of a prologue are in their registers. -/
theorem carries_of_entered {callee : Function} {values : List Value} {given : List (Option Nat)}
    {next : Machine} (resultDest : Option Dest)
    (hwritten : (deployment.placed callee).Written) (hlength : values.length = given.length)
    (hpassed : ∀ (index : Nat) value origin register, values[index]? = some value →
      given[index]? = some origin → Register.arguments[index]? = some register →
      deployment.Represents origin value (machine.get register))
    (hparameters : ∀ dest source register,
      (dest, source) ∈ (callee.params.map Dest.var).zip Register.arguments →
      dest ∈ callee.liveAtStart?.getD .empty →
      (deployment.placed callee).assignment.register? dest = some register →
      next.get register = machine.get source) :
    deployment.Carries (.enter callee values resultDest) (.ofParams callee.params given) none
      next.get := by
  intro dest hlive _ value hvalue register hregister
  obtain ⟨index, parameter, hname, rfl, hgiven, horigin⟩ :=
    Bindings.of_ofParams hlength hvalue
  have hindex : index < Register.arguments.length :=
    Nat.lt_of_lt_of_le (List.getElem?_eq_some_iff.mp hname).1
      (Placed.prologue_eq hwritten.prologue).1
  have hargument := List.getElem?_eq_getElem hindex
  have hentry : (Dest.var parameter, Register.arguments[index]) ∈
      (callee.params.map Dest.var).zip Register.arguments := by
    apply List.mem_of_getElem? (i := index)
    rw [List.getElem?_zip_eq_some]
    exact ⟨by rw [List.getElem?_map, hname]; rfl, hargument⟩
  have hstart : Dest.var parameter ∈ callee.liveAtStart?.getD .empty := by
    rw [Function.liveAtStart_eq]
    exact hlive
  rw [hparameters _ _ register hentry hstart hregister]
  exact hpassed index value _ _ hgiven horigin hargument

/-- A routine that was called starts with its parameters in their registers, and keeps what it has
to give back. -/
theorem leads_enter (hsound : deployment.Sound) {callee : Function}
    (hcallee : callee ∈ deployment.program.functions) {values : List Value}
    {given : List (Option Nat)} (resultDest : Option Dest)
    (hposition : machine.position = deployment.entrance callee)
    (hpointer : machine.get .rsp = Int64.ofNat entry) (hlength : values.length = given.length)
    (hpassed : ∀ (index : Nat) value origin register, values[index]? = some value →
      given[index]? = some origin → Register.arguments[index]? = some register →
      deployment.Represents origin value (machine.get register))
    (hlow : deployment.host.stackTop - deployment.host.stackBytes +
      (deployment.placed callee).frameBytes ≤ entry)
    (hhigh : entry + 8 ≤ deployment.host.stackTop) :
    deployment.Leads machine fun next =>
      deployment.Running (.enter callee values resultDest) (.ofParams callee.params given) none
        entry machine.get next ∧
      machine.SameOutside (entry - (deployment.placed callee).frameBytes) entry next := by
  have hwritten : (deployment.placed callee).Written := hsound.installed.written callee hcallee
  have hholds : deployment.Holds machine.position (deployment.placed callee).prologue.code :=
    hposition ▸ holds_prologue hsound hcallee
  refine (Placed.leads_prologue hsound.loaded (hsound.allocatable hcallee)
    (hsound.regular.params callee hcallee) (parametersApart_of_legal (hsound.legal hcallee))
    hwritten hholds hpointer hlow hhigh).mono ?_
  intro next hentered
  have hcarries := carries_of_entered resultDest hwritten hlength hpassed hentered.parameters
  refine ⟨⟨⟨hcallee, hcarries, hentered.keeps, ?_, ?_, hlow, hhigh⟩, ?_, hentered.stack⟩,
    hentered.same⟩
  · intro register hcalleeSaved hunsaved
    refine hentered.others register ?_ ?_ fun dest hdest => hunsaved ?_
    · rintro rfl
      exact absurd hcalleeSaved (by decide)
    · rintro rfl
      exact absurd hcalleeSaved (by decide)
    · exact List.mem_filter.mpr
        ⟨hcalleeSaved, decide_eq_true (Assignment.mem_registers hdest)⟩
  · intro hend
    have hempty : callee.code = [] :=
      List.eq_nil_of_length_eq_zero (Nat.le_zero.mp (List.getElem?_eq_none_iff.mp hend))
    change callee.fallsThrough = true
    rw [Function.fallsThrough, hempty]
    rfl
  · rw [hentered.arrived, hposition]
    change _ = deployment.entrance callee + Item.count ((deployment.placed callee).prologue.code ++
      (callee.code.take 0).flatMap _)
    rw [List.take_zero, List.flatMap_nil, List.append_nil]

/-- The part of the stack that a call takes is there. -/
theorem room_of_waits (hsound : deployment.Sound) {memory : Memory} {frames : List Frame}
    {waiting : List Origins} {contents : Register → Int64}
    (hactive : deployment.Active frame origins none entry kept contents memory)
    (hwaits : deployment.Waits memory frames waiting pending entry kept)
    (hroom : 48 * (frames.length + 2) ≤ deployment.host.stackBytes) (callee : Function) :
    ∃ entry', entry' + 8 + (deployment.placed frame.function).frameBytes = entry ∧
      deployment.host.stackTop - deployment.host.stackBytes +
        (deployment.placed callee).frameBytes ≤ entry' := by
  have hlow := hactive.low
  have hhigh := hactive.high
  have hentry := hwaits.le_entry
  have hframe := (deployment.placed frame.function).frameBytes_le
  have hcallee := (deployment.placed callee).frameBytes_le
  have hstack := hsound.loaded.fits.stackBytes
  refine ⟨entry - (deployment.placed frame.function).frameBytes - 8, ?_, ?_⟩ <;> omega

/-- What lives on in the caller is in registers that the callee preserves. -/
theorem preserved_of_call (hsound : deployment.Sound)
    (hfunction : frame.function ∈ deployment.program.functions) {limits : Limits} {depth : Nat}
    {heap : Heap} {name : String} {args : List Source} {dst : Option Dest} {callee : Function}
    {values : List Value} (hinst : frame.next? = some (.call name args dst))
    (hperforms : Performs deployment.program limits depth frame heap (.call name args dst)
      (.enter callee values dst)) : deployment.Preserved frame.advance dst := by
  intro dest hlive hpending register hregister
  have hafter : dest ∈ frame.function.liveness.liveAfter frame.index :=
    hperforms.mem_liveAfter hinst rfl hlive
  have hlegal := hsound.legal hfunction
  have hother : (Inst.call name args dst).def? ≠ some dest := hpending
  have hacross : dest ∈ (deployment.placed frame.function).function.liveAcross
      (deployment.placed frame.function).function.liveness frame.index :=
    Placed.MayChange.mem_liveAcross hinst hafter hother
  refine ⟨?_, fun other hother hsame => ?_⟩
  · exact hlegal.acrossCall hinst rfl hacross hregister
  · exact hlegal.written hinst hother hsame hafter
      (fun heq => hpending (hother.trans (congrArg some heq.symm))) hregister

/-- The machine is at the entrance of a routine that an activation has called, with the return
address at `entry`. -/
structure Called (deployment : Deployment) (frame : Frame) (origins : Origins) (name : String)
    (args : List Source) (dst : Option Dest) (values : List Value) (entry : Nat)
    (machine next : Machine) : Prop where
  position : next.position = deployment.position (routineLabel name)
  pointer : next.get .rsp = Int64.ofNat entry
  passed : ∀ (index : Nat) value origin register, values[index]? = some value →
    (args.map origins.source)[index]? = some origin → Register.arguments[index]? = some register →
    deployment.Represents origin value (next.get register)
  changed : ∀ register, register ≠ .rsp → next.get register = machine.get register ∨
    (deployment.placed frame.function).MayChange frame.index (.call name args dst) register
  same : machine.SameOutside entry (entry + 8) next
  back : ∃ place, next.memory.word entry = Int64.ofNat place ∧ place < 18446744073709551615 ∧
    deployment.Holds place ((deployment.placed frame.function).resultCode dst).code ∧
    place + Item.count ((deployment.placed frame.function).resultCode dst).code =
      deployment.site frame.advance

/-- A return address is no larger than the code. -/
theorem lt_of_code (hsound : deployment.Sound) {place : Nat} {code : Linked}
    (hcode : deployment.executable.code[place]? = some code) :
    place + 1 < 18446744073709551615 := by
  have hlength := (Array.getElem?_eq_some_iff.mp hcode).1
  have hsize := hsound.installed.size
  have hpos := hsound.loaded.fits.imageBase
  have hend := hsound.loaded.fits.imageEnd
  omega

theorem Running.toRoutine (h : deployment.Running frame origins none entry kept machine)
    (hsound : deployment.Sound) {name : String} {args : List Source} {dst : Option Dest}
    {values : List Value} (hinst : frame.next? = some (.call name args dst))
    (hname : Builtin.ofName? name = none) (hargs : frame.evalAll args = .ok values)
    {entry' : Nat} (hentry : entry' + 8 + (deployment.placed frame.function).frameBytes = entry)
    (hstack : deployment.host.InStack entry') :
    deployment.Leads machine
      (deployment.Called frame origins name args dst values entry' machine) := by
  apply (h.toCall hsound hinst).bind
  intro middle hmiddle
  have hcode := hmiddle.code
  rw [CallTarget.ofName, hname] at hcode
  have hpointer : middle.tick.get .rsp = Int64.ofNat (entry' + 8) := by
    change middle.get .rsp = _
    rcases hmiddle.changed .rsp with hsame | hmay
    · rw [hsame, h.pointer, ← hentry, Nat.add_sub_cancel]
    · exact absurd rfl hmay.pointer
  have hpush := Machine.push_eq middle.tick hsound.loaded hstack hpointer
    (Int64.ofNat (middle.position + 1))
  have hexec : middle.tick.exec deployment.host deployment.executable
      (.call (.position (deployment.position (routineLabel name)))) =
        .ok ((middle.tick.pushed entry' (Int64.ofNat (middle.position + 1))).goto
          (deployment.position (routineLabel name))) := by
    change (do return (← middle.tick.push _ (Int64.ofNat (middle.position + 1))).goto _) = _
    rw [hpush]
    rfl
  have hpushed := Machine.sameOutside_pushed middle.tick entry' (Int64.ofNat (middle.position + 1))
  have hregisters : ∀ register, register ≠ .rsp →
      (middle.tick.pushed entry' (Int64.ofNat (middle.position + 1))).get register =
        middle.get register := fun register hne => Machine.get_pushed_of_ne hne _ _
  refine .exec hcode (by rintro ⟨⟩) hexec (.refl ⟨rfl, ?_, ?_, fun register hne => ?_, ?_, ?_⟩)
  · exact Cpu.get_set_self _ _ _
  · intro index value origin register hvalue horigin hregister
    obtain ⟨source, hsource, heval⟩ := (Frame.evalAll_eq_ok hargs).2 index value hvalue
    rw [List.getElem?_map, hsource] at horigin
    obtain rfl := Option.some.inj horigin
    have hne : register ≠ .rsp := by
      rintro rfl
      exact absurd (List.mem_of_getElem? hregister) (by decide)
    have hpair : (source, register) ∈ args.zip Register.arguments :=
      List.mem_of_getElem? (i := index) (List.getElem?_zip_eq_some.mpr ⟨hsource, hregister⟩)
    have hcarried : deployment.Carries frame origins none machine.cpu.get := h.active.carried
    change deployment.Represents _ value
      ((middle.tick.pushed entry' (Int64.ofNat (middle.position + 1))).get register)
    rw [hregisters register hne, hmiddle.passed _ hpair]
    exact hcarried.source hsound h.active.function hinst (List.mem_of_getElem? hsource)
      (fun text htext => Placed.mem_call_code (hsound.result_inst h.active.function hinst)
        (htext ▸ List.mem_of_getElem? hsource)) heval
  · change (middle.tick.pushed entry' (Int64.ofNat (middle.position + 1))).get register = _ ∨ _
    rw [hregisters register hne]
    exact hmiddle.changed register
  · exact hmiddle.same.sameOutside.trans ⟨hpushed.memory, rfl, rfl⟩
  · exact ⟨middle.position + 1, Memory.word_write _ _ _, lt_of_code hsound hcode, hmiddle.after,
      hmiddle.site⟩

/-- A call of a routine leads into it, and its caller waits. -/
theorem Running.enter (h : deployment.Running frame origins none entry kept machine)
    (hsound : deployment.Sound) {limits : Limits} {depth : Nat} {heap : Heap} {name : String}
    {args : List Source} {dst : Option Dest} {callee : Function} {values : List Value}
    (hinst : frame.next? = some (.call name args dst))
    (hperforms : Performs deployment.program limits depth frame heap (.call name args dst)
      (.enter callee values dst)) {frames : List Frame} {waiting : List Origins}
    (hwaits : deployment.Waits machine.memory frames waiting frame.resultDest entry kept)
    (hroom : 48 * (frames.length + 2) ≤ deployment.host.stackBytes) :
    deployment.Leads machine fun next => ∃ entry' kept',
      deployment.Running (.enter callee values dst)
        (.ofParams callee.params (args.map origins.source)) none entry' kept' next ∧
      deployment.Waits next.memory (frame.advance :: frames) (origins :: waiting) dst entry' kept' ∧
      machine.SameOutside (deployment.host.stackTop - deployment.host.stackBytes)
        deployment.host.stackTop next := by
  have hfunction := h.active.function
  have hhigh := h.active.high
  have hall := hperforms
  obtain ⟨entry', hentry, hlow⟩ := room_of_waits hsound h.active hwaits hroom callee
  cases hperforms with
  | enter hname hargs hcallee =>
      have hcalleeName : callee.name = name := by
        simpa using List.find?_some hcallee
      apply (h.toRoutine hsound hinst hname hargs hentry ⟨by omega, by omega⟩).bind
      intro called hcalled
      have hposition : called.position = deployment.entrance callee := by
        rw [hcalled.position, entrance, hcalleeName]
      refine (leads_enter hsound (State.mem_of_callee? hcallee) dst hposition hcalled.pointer
        (by rw [List.length_map, (Frame.evalAll_eq_ok hargs).1]) hcalled.passed hlow
        (by omega)).mono ?_
      intro next hnext
      obtain ⟨hrunning, hentered⟩ := hnext
      -- The call writes at `entry'` and the prologue below it, so the caller's frame stays.
      have hsame : machine.SameOutside (entry' - (deployment.placed callee).frameBytes)
          (entry' + 8) next :=
        (hcalled.same.mono (Nat.sub_le _ _) (Nat.le_refl _)).trans
          (hentered.mono (Nat.le_refl _) (Nat.le_add_right _ _))
      obtain ⟨place, hword, hplace, hholds, hsite⟩ := hcalled.back
      have hactive : deployment.Active frame.advance origins dst entry kept called.get
          machine.memory := h.active.goto hsound hinst hall rfl hcalled.changed
      have hframe : entry' + 8 ≤ entry -
          (deployment.placed frame.advance.function).frameBytes := by
        change entry' + 8 ≤ entry - (deployment.placed frame.function).frameBytes
        omega
      refine ⟨entry', called.get, hrunning, ?_, hsame.mono (by omega) (by omega)⟩
      refine .cons ?_ hplace hholds hsite (hactive.congr_memory (hsame.sameIn (.inr hframe)))
        (preserved_of_call hsound hfunction hinst hall) hentry
        (hwaits.congr_memory (hsame.sameIn (.inr (by omega))))
      rw [Memory.word_congr (hentered.sameIn (.inr (Nat.le_refl _)))]
      exact hword

end Deployment

end ThreeAddress
