import ThreeAddress.Proofs.Lowering.Mentions
import ThreeAddress.Proofs.Native.Instructions
import ThreeAddress.Proofs.Text.Utf8

/-!
# Calls of built-ins

A built-in finds its argument in a register and changes no register that a callee
has to preserve. What printing built-ins print is what their values are printed as.
-/

namespace ThreeAddress

/-! ## Built-ins -/

namespace Registers

theorem get_setAll {values : Register → Int64} {changed : List Register} {registers : Registers}
    {register : Register} (h : register ∉ changed) :
    (setAll values changed registers).get register = registers.get register := by
  induction changed generalizing registers with
  | nil => rfl
  | cons first rest ih =>
      rw [List.mem_cons, not_or] at h
      rw [setAll, ih h.2, get_set, if_neg fun heq => h.1 heq.symm]

end Registers

namespace Machine

variable {host : Host} {executable : Executable} {machine : Machine}

/-- The registers that a callee gives back. -/
theorem get_clobber (host : Host) (machine : Machine) {register : Register}
    (h : register ∈ .rsp :: Register.calleeSaved) :
    (machine.clobber host).get register = machine.get register := by
  apply Registers.get_setAll
  intro hmem
  revert h hmem
  cases register <;> decide

/-- Bytes up to the first zero are found in memory. -/
theorem textBytes?_eq {bytes : List UInt8} {address count : Nat}
    (hbytes : ∀ (index : Nat) byte, (bytes ++ [0])[index]? = some byte →
      machine.byte? host executable (address + index) = some byte)
    (hzero : 0 ∉ bytes) (hcount : bytes.length < count) :
    machine.textBytes? host executable address count = some bytes := by
  induction bytes generalizing address count with
  | nil =>
      obtain ⟨count, rfl⟩ := Nat.exists_eq_succ_of_ne_zero (Nat.ne_of_gt hcount)
      have hend : machine.byte? host executable address = some 0 := hbytes 0 0 rfl
      rw [textBytes?, hend]
      rfl
  | cons first rest ih =>
      obtain ⟨count, rfl⟩ := Nat.exists_eq_succ_of_ne_zero (Nat.ne_zero_of_lt hcount)
      rw [List.mem_cons, not_or] at hzero
      have hrest : machine.textBytes? host executable (address + 1) count = some rest := by
        refine ih (fun index byte hbyte => ?_) hzero.2 (Nat.lt_of_succ_lt_succ hcount)
        rw [Nat.add_assoc, Nat.add_comm 1]
        exact hbytes (index + 1) byte hbyte
      have hfirst : machine.byte? host executable address = some first := hbytes 0 first rfl
      rw [textBytes?, hfirst, hrest]
      dsimp only
      rw [if_neg fun heq => hzero.1 heq.symm]
      rfl

theorem byte?_of_image {offset : Nat} {byte : UInt8}
    (h : executable.image.byte? offset = some byte) :
    machine.byte? host executable (executable.base + offset) = some byte := by
  have hoffset : offset < executable.image.size := by
    by_contra hnot
    rw [CodeMemory.byte?, if_neg hnot] at h
    cases h
  rw [byte?, if_pos ⟨Nat.le_add_right _ _, by omega⟩, Nat.add_sub_cancel_left, h]

/-- A text in the image is found where its address is, and no text is at address zero. -/
theorem textBytes?_of_spells (machine : Machine) (hloaded : executable.LoadedOn host)
    {word : Int64} {text : String}
    (hspells : executable.Spells word text) (hzero : '\x00' ∉ text.toList) :
    word ≠ 0 ∧ machine.textBytes? host executable (addressOf word)
      (machine.memoryBytes host executable) = some (Text.encode text) := by
  obtain ⟨offset, rfl, hsize, hbytes⟩ := hspells
  have hbase := hloaded.base
  have hpos := hloaded.fits.imageBase
  have hend := hloaded.fits.imageEnd
  have haddress : addressOf (Int64.ofNat (executable.base + offset)) =
      executable.base + offset := addressOf_ofNat (by omega)
  refine ⟨fun heq => ?_, ?_⟩
  · have hzero : addressOf (0 : Int64) = 0 := rfl
    rw [heq, hzero] at haddress
    omega
  · rw [haddress]
    refine textBytes?_eq (fun index byte hbyte => ?_) (Text.zero_not_mem_encode hzero) ?_
    · rw [Nat.add_assoc]
      exact byte?_of_image (hbytes index byte hbyte)
    · unfold memoryBytes
      omega

end Machine

namespace Deployment

variable {deployment : Deployment} {frame : Frame} {origins : Origins} {entry : Nat}
  {kept : Register → Int64} {machine : Machine} {limits : Limits} {depth : Nat} {heap : Heap}
  {name : String} {args : List Source} {dst : Option Dest}

/-! ## Around a call instruction -/

/-- The machine is at the call instruction of an activation, with the arguments in their
registers. -/
structure AtCall (deployment : Deployment) (frame : Frame) (name : String) (args : List Source)
    (dst : Option Dest) (machine next : Machine) : Prop where
  code : deployment.executable.code[next.position]? =
    some (.call (CallTarget.ofName deployment.position name))
  after : deployment.Holds (next.position + 1)
    ((deployment.placed frame.function).resultCode dst).code
  site : next.position + 1 + Item.count ((deployment.placed frame.function).resultCode dst).code =
    deployment.site frame.advance
  passed : ∀ entry ∈ args.zip Register.arguments,
    next.get entry.2 =
      (deployment.placed frame.function).word deployment.address machine.cpu entry.1
  nothing : args = [] → Builtin.ofName? name = some .printStr → next.get .rdi = 0
  changed : ∀ register, next.get register = machine.get register ∨
    (deployment.placed frame.function).MayChange frame.index (.call name args dst) register
  same : machine.SameRest next

theorem Running.toCall (h : deployment.Running frame origins none entry kept machine)
    (hsound : deployment.Sound) (hinst : frame.next? = some (.call name args dst)) :
    deployment.Leads machine (deployment.AtCall frame name args dst machine) := by
  have hfunction := h.active.function
  obtain ⟨_, hbefore, _, hcode⟩ := Placed.call_eq (hsound.result_inst hfunction hinst)
  refine (h.leads_part hsound hinst hcode hbefore (Placed.beforeCall_ensures
    (deployment.placed frame.function) deployment.address machine.cpu name args)).mono ?_
  intro next hnext
  obtain ⟨⟨hargs, hnothing, hsame⟩, hholds, hposition, hrest⟩ := hnext
  refine ⟨hholds.1, hholds.2, ?_, hargs, hnothing, ?_, hrest⟩
  · rw [← hposition, Item.count]
    omega
  · apply Running.changed_of_same hsame
    intro register hregister
    rcases List.mem_cons.mp hregister with rfl | hargument
    · exact .of_scratch (hsound.allocatable hfunction) (by decide)
    · refine .of_call (hsound.legal hfunction) hinst rfl ?_
      revert hargument
      cases register <;> decide

theorem resultCode_result (placed : Placed) (pending : Option Dest) :
    (placed.resultCode pending).result = .ok () := by
  unfold Placed.resultCode
  split
  next =>
    unfold Placed.move Lowering.move
    split <;> rfl
  next => rfl

/-- The code after a call instruction moves the result to the register of its destination. -/
theorem leads_result {placed : Placed} {pending : Option Dest}
    (hholds : deployment.Holds machine.position (placed.resultCode pending).code) :
    deployment.Leads machine fun next =>
      next.position = machine.position + Item.count (placed.resultCode pending).code ∧
      (∀ dst register, pending = some dst → placed.assignment.register? dst = some register →
        next.get register = machine.get .result) ∧
      (∀ register, next.get register = machine.get register ∨
        ∃ dst, pending = some dst ∧ placed.assignment.register? dst = some register) ∧
      machine.SameRest next :=
  (Machine.Leads.ensures hholds (resultCode_result placed pending)
    (Placed.resultCode_ensures placed deployment.address machine.cpu pending)).mono
      fun _ hnext => ⟨hnext.2.1, hnext.1.1, hnext.1.2, hnext.2.2⟩

/-! ## Built-ins -/

/-- A built-in that does what it is called for leads to the instruction after its call. -/
theorem Running.builtin (h : deployment.Running frame origins none entry kept machine)
    (hsound : deployment.Sound) (hinst : frame.next? = some (.call name args dst))
    {builtin : Builtin} (hname : Builtin.ofName? name = some builtin) {effect : Effect}
    (hperforms : Performs deployment.program limits depth frame heap (.call name args dst) effect)
    (hnext : effect.next? frame.index = some (frame.index + 1)) (post : Machine → Prop)
    (hcall : ∀ middle, deployment.AtCall frame name args dst machine middle →
      ∃ done, middle.tick.callBuiltin deployment.host deployment.executable builtin = .ok done ∧
        done.position = middle.position ∧ done.memory = middle.memory ∧
        (∀ register ∈ .rsp :: Register.calleeSaved, done.get register = middle.get register) ∧
        post done) :
    deployment.Leads machine fun next =>
      deployment.Running frame.advance origins dst entry kept next ∧
      ∃ done, post done ∧ done.SameRest next ∧
        ∀ dest register, dst = some dest →
          (deployment.placed frame.function).assignment.register? dest = some register →
          next.get register = done.get .result := by
  have hfunction := h.active.function
  have hprint := hsound.regular.prints _ hfunction _ (List.mem_of_getElem? hinst)
  apply (h.toCall hsound hinst).bind
  intro middle hmiddle
  obtain ⟨done, hdone, hposition, hmemory, hkept, hpost⟩ := hcall middle hmiddle
  have hcode := hmiddle.code
  rw [CallTarget.ofName, hname] at hcode
  have hexec : middle.tick.exec deployment.host deployment.executable (.call (.builtin builtin)) =
      .ok done.advance := by
    change (do return (← middle.tick.callBuiltin _ _ builtin).advance) = _
    rw [hdone]
    rfl
  have hafter : deployment.Holds done.advance.position
      ((deployment.placed frame.function).resultCode dst).code := by
    change deployment.Holds (done.position + 1) _
    rw [hposition]
    exact hmiddle.after
  refine .exec hcode (by rintro ⟨⟩) hexec (Machine.Leads.mono (leads_result hafter) ?_)
  intro next hnext
  obtain ⟨hnextPosition, hresult, hothers, hrest⟩ := hnext
  refine ⟨?_, done, hpost, ⟨hrest.memory, hrest.arena, hrest.output⟩, hresult⟩
  have hdst : effect.dst? = dst := hperforms.dst?_eq_def? hprint
  rw [← hdst]
  refine h.goto hsound hinst hperforms hnext ?_ (fun register => ?_) ?_
  · rw [hnextPosition]
    change done.position + 1 + _ = deployment.site frame.advance
    rw [hposition, hmiddle.site]
  · rcases hothers register with hsame | ⟨dest, hdest, hregister⟩
    · by_cases hpreserved : register ∈ .rsp :: Register.calleeSaved
      · rw [hsame]
        change done.get register = _ ∨ _
        rw [hkept register hpreserved]
        exact hmiddle.changed register
      · exact .inr (.of_call (hsound.legal hfunction) hinst rfl hpreserved)
    · exact .inr (.of_def (hsound.legal hfunction) hinst hdest hregister)
  · rw [hrest.memory]
    change machine.memory.SameIn done.memory _ _
    rw [hmemory, hmiddle.same.memory]
    exact Memory.SameIn.refl _ _ _

/-- What a printing built-in leaves behind. -/
structure Printed (machine : Machine) (line : String) (done : Machine) : Prop where
  memory : done.memory = machine.memory
  arena : done.arena = machine.arena
  output : done.output = machine.output.push line

theorem printed_clobber (host : Host) (machine : Machine) (line : String) :
    ((machine.print line).clobber host).position = machine.position ∧
      ((machine.print line).clobber host).memory = machine.memory ∧
      (∀ register ∈ .rsp :: Register.calleeSaved,
        ((machine.print line).clobber host).get register = machine.get register) ∧
      Printed machine line ((machine.print line).clobber host) :=
  ⟨rfl, rfl, fun _ hregister => Machine.get_clobber host (machine.print line) hregister, rfl, rfl,
    rfl⟩

/-- What is printed of the word of a value of the right type is the text of the value. -/
theorem callBuiltin_of_represents (hsound : deployment.Sound) {builtin : Builtin} {value : Value}
    (hbuiltin : builtin ≠ .malloc) (htakes : builtin.takes [value] = true)
    (hvalue : deployment.Represents none value (machine.get .rdi)) :
    machine.callBuiltin deployment.host deployment.executable builtin =
      .ok ((machine.print value.text).clobber deployment.host) := by
  cases builtin with
  | malloc => exact absurd rfl hbuiltin
  | printInt =>
      cases value with
      | int value =>
          have hword : machine.get .rdi = value.toInt64 := hvalue
          have htext : printedInt value.toInt64 = (Value.int value).text := by
            rw [printedInt, Int32.toInt32_toInt64, Value.text]
          rw [Machine.callBuiltin, hword, htext]
      | bool | str | undefined => exact absurd htakes Bool.false_ne_true
  | printBool =>
      cases value with
      | bool value =>
          have hword : machine.get .rdi = boolWord value := hvalue
          have htext : printedBool (boolWord value) = (Value.bool value).text := by
            cases value <;> rfl
          rw [Machine.callBuiltin, hword, htext]
      | int | str | undefined => exact absurd htakes Bool.false_ne_true
  | printStr =>
      cases value with
      | str text =>
          obtain ⟨hspells, hzero⟩ := hvalue
          obtain ⟨hne, hbytes⟩ := machine.textBytes?_of_spells hsound.loaded hspells hzero
          unfold Machine.callBuiltin
          dsimp only
          rw [if_neg hne, hbytes]
          dsimp only
          rw [Text.printedBytes_encode hzero, Value.text]
      | int | bool | undefined => exact absurd htakes Bool.false_ne_true

/-- The built-in that a print calls prints its line. -/
theorem Running.callBuiltin_of_print
    (h : deployment.Running frame origins none entry kept machine) (hsound : deployment.Sound)
    (hinst : frame.next? = some (.call name args dst)) {line : String}
    (hperforms : Performs deployment.program limits depth frame heap (.call name args dst)
      (.print line))
    (htyped : frame.printsTyped = true)
    (hplain : ∀ source ∈ args, origins.source source = none) :
    ∃ builtin, Builtin.ofName? name = some builtin ∧
      ∀ middle, deployment.AtCall frame name args dst machine middle →
        middle.tick.callBuiltin deployment.host deployment.executable builtin =
          .ok ((middle.tick.print line).clobber deployment.host) := by
  have hfunction := h.active.function
  cases hperforms with
  | @print _ _ _ builtin value hname hbuiltin hargs =>
      refine ⟨builtin, hname, fun middle hmiddle => ?_⟩
      have htakes : builtin.takes [value] = true := by
        simpa [Frame.printsTyped, hinst, hname, hargs] using htyped
      obtain ⟨hlength, heval⟩ := Frame.evalAll_eq_ok hargs
      obtain ⟨source, rfl⟩ := List.length_eq_one_iff.mp hlength.symm
      obtain ⟨_, hsource, heval⟩ := heval 0 value rfl
      obtain rfl := Option.some.inj hsource
      have hcarried : deployment.Carries frame origins none machine.cpu.get := h.active.carried
      have hvalue := hcarried.source hsound hfunction hinst (List.mem_singleton.mpr rfl)
        (fun text htext => Placed.mem_call_code (hsound.result_inst hfunction hinst)
          (List.mem_singleton.mpr htext.symm)) heval
      rw [hplain _ (List.mem_singleton.mpr rfl),
        ← hmiddle.passed (_, .rdi) (List.mem_singleton.mpr rfl)] at hvalue
      exact callBuiltin_of_represents hsound hbuiltin htakes hvalue
  | printNothing hname hargs =>
      refine ⟨.printStr, hname, fun middle hmiddle => ?_⟩
      obtain ⟨hlength, _⟩ := Frame.evalAll_eq_ok hargs
      obtain rfl := List.length_eq_zero_iff.mp hlength.symm
      have hzero : middle.tick.get .rdi = 0 := hmiddle.nothing rfl hname
      unfold Machine.callBuiltin
      dsimp only
      rw [if_pos hzero]

theorem Running.print (h : deployment.Running frame origins none entry kept machine)
    (hsound : deployment.Sound) (hinst : frame.next? = some (.call name args dst)) {line : String}
    (hperforms : Performs deployment.program limits depth frame heap (.call name args dst)
      (.print line))
    (htyped : frame.printsTyped = true)
    (hplain : ∀ source ∈ args, origins.source source = none) :
    deployment.Leads machine fun next =>
      deployment.Running frame.advance origins none entry kept next ∧
        Printed machine line next := by
  have hprint := hsound.regular.prints _ h.active.function _ (List.mem_of_getElem? hinst)
  obtain rfl : none = dst := hperforms.dst?_eq_def? hprint
  have hall := hperforms
  obtain ⟨builtin, hname, hcall⟩ := h.callBuiltin_of_print hsound hinst hperforms htyped hplain
  have hbuiltin := h.builtin hsound hinst hname hall rfl (Printed machine line)
    fun middle hmiddle => by
      obtain ⟨hposition, hmemory, hkept, hprinted⟩ :=
        printed_clobber deployment.host middle.tick line
      refine ⟨_, hcall middle hmiddle, hposition, hmemory, hkept, ?_, ?_, ?_⟩
      · rw [hprinted.memory]
        exact hmiddle.same.memory
      · rw [hprinted.arena]
        exact hmiddle.same.arena
      · rw [hprinted.output]
        exact congrArg (·.push line) hmiddle.same.output
  apply hbuiltin.mono
  intro next hnext
  obtain ⟨hrunning, done, hprinted, hrest, _⟩ := hnext
  exact ⟨hrunning, hrest.memory.trans hprinted.memory, hrest.arena.trans hprinted.arena,
    hrest.output.trans hprinted.output⟩

end Deployment

end ThreeAddress
