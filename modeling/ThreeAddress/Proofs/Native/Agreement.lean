import ThreeAddress.Proofs.Native.Simulation
import ThreeAddress.Proofs.Registers.LinearScan

/-!
# Agreement of native runs

The code of a compiled program prints what a run of the program prints, and leaves
its value behind, whichever legal assignment each function was compiled with. The
stack has to have room for the activations of the run. With a heap there is one
more condition: each load has to read the bytes of the value in its slot, none of
which may have been overwritten by a store to another slot, as slots are four bytes
long in memory but only one byte apart. A load of other bytes than these gives
another value, unless they are bytes of pointers.
-/

namespace ThreeAddress

namespace Deployment

variable {deployment : Deployment}

/-- The machine before the first instruction, with the return address that is no position at the
top of the stack. -/
theorem initial_eq (hsound : deployment.Sound) (hroom : 48 ≤ deployment.host.stackBytes) :
    ∃ entry machine, Machine.initial deployment.host deployment.executable = .ok machine ∧
      entry + 8 = deployment.host.stackTop ∧
      machine.position = deployment.executable.start ∧
      machine.get .rsp = Int64.ofNat entry ∧ machine.memory.word entry = noPosition ∧
      machine.arena = .empty ∧ machine.output = #[] := by
  have hfits := hsound.loaded.fits.stackBytes
  obtain ⟨entry, hentry⟩ : ∃ entry, entry + 8 = deployment.host.stackTop :=
    ⟨deployment.host.stackTop - 8, by omega⟩
  let registers := Registers.setAll (deployment.host.leftover 0) Register.all default
  let before : Machine :=
    ⟨⟨registers.set .rsp (Int64.ofNat deployment.host.stackTop), none⟩, .zeroed, .empty,
      deployment.executable.start, 0, #[]⟩
  have hpointer : before.get .rsp = Int64.ofNat (entry + 8) := by
    rw [hentry]
    exact Cpu.get_set_self ⟨registers, none⟩ _ _
  have hpush := Machine.push_eq before hsound.loaded ⟨by omega, by omega⟩ hpointer noPosition
  exact ⟨entry, _, hpush, hentry, rfl, Cpu.get_set_self _ _ _, Memory.word_write _ _ _, rfl, rfl⟩

/-- A run starts with a machine that leads to one which simulates it. -/
theorem simulates_initial (hsound : deployment.Sound) {main : Function}
    (hmain : deployment.program.main? = some main)
    (hroom : 48 ≤ deployment.host.stackBytes) :
    ∃ machine, Machine.initial deployment.host deployment.executable = .ok machine ∧
      deployment.Leads machine (deployment.Simulates (State.initial main) .empty) := by
  obtain ⟨entry, machine, hinitial, hentry, hposition, hpointer, hword, harena, houtput⟩ :=
    initial_eq hsound hroom
  refine ⟨machine, hinitial, ?_⟩
  have hmember : main ∈ deployment.program.functions := List.mem_of_find?_eq_some hmain
  have hname : main.name = "main" := by simpa using List.find?_some hmain
  have hstart : machine.position = deployment.entrance main := by
    rw [hposition, hsound.installed.start, entrance, hname]
  have hframe := (deployment.placed main).frameBytes_le
  have hfits := hsound.loaded.fits.stackBytes
  have hlength : ([] : List Value).length = ([] : List (Option Nat)).length := rfl
  refine (leads_enter hsound hmember none hstart hpointer hlength (by simp) (by omega)
    (by omega)).mono ?_
  intro next hnext
  obtain ⟨hrunning, hsame⟩ := hnext
  have horigins : Origins.ofParams main.params [] = .empty := by
    rw [Origins.ofParams, List.zip_nil_right, List.foldl_nil]
  rw [horigins] at hrunning
  have hnext : next.memory.word entry = noPosition := by
    rw [Memory.word_congr (hsame.sameIn (.inr (Nat.le_refl _))), hword]
  refine ⟨⟨entry, machine.get, hrunning, .nil hnext hentry⟩, ?_, hsame.output.trans houtput⟩
  refine ⟨List.nil_prefix, hsame.arena.trans harena, ?_, ?_, ?_⟩
  · intro block hblock
    cases hblock
  · intro slot block hslot
    cases hslot
  · intro block found hfound
    cases hfound

end Deployment

/-! ## The standard host -/

namespace Host

theorem fits_standard {imageBytes : Nat} (h : imageBytes ≤ 1048576) :
    standard.Fits imageBytes := by
  refine ⟨by decide, ?_, by decide, by decide, .inl ?_⟩
  · change 0x7F0000000000 + imageBytes < _
    omega
  · change 0x7F0000000000 + imageBytes ≤ 0x7FFFFFFF0000 - 8388608
    omega

/-- The stack has room for as many activations as most limits allow. -/
theorem room_standard {program : Program} {limits : Limits} (h : limits.maxDepth ≤ 174762)
    {state : State} (hreachable : State.Reachable program limits state) :
    48 * state.depth ≤ standard.stackBytes := by
  have hdepth := hreachable.depth_le
  change 48 * state.depth ≤ 8388608
  omega

end Host

/-! ## Native runs -/

theorem Allocator.assignment_eq {allocator : Allocator} {function : Function}
    {assignment : Assignment} (h : allocator function = .ok assignment) :
    allocator.assignment function = assignment := by
  rw [Allocator.assignment, h]

namespace Program

variable {program : Program} {allocator : Allocator} {asm : AsmProgram} {image : Image}
  {host : Host} {limits : Limits} {fuel : Nat} {lines : List String} {value : Value}

/-- Whether a program compiles, and its code can be laid out in a mebibyte. -/
def isBuilt (program : Program) (allocator : Allocator) : Bool :=
  match program.compile allocator with
  | .error _ => false
  | .ok asm =>
      match asm.assemble with
      | .error _ => false
      | .ok image => decide (image.code.length ≤ 1048576)

theorem builds_of_isBuilt (h : program.isBuilt allocator = true) :
    ∃ asm image, program.compile allocator = .ok asm ∧ asm.assemble = .ok image ∧
      image.code.length ≤ 1048576 := by
  unfold isBuilt at h
  split at h
  next => cases h
  next asm hcompile =>
    split at h
    next => cases h
    next image hassemble => exact ⟨asm, image, hcompile, hassemble, of_decide_eq_true h⟩

/-- If loads read the bytes of the values in their slots, native code prints what the program
prints, and leaves a word behind that stands for its value. -/
theorem native_run (hregular : program.Regular)
    (hlegal : ∀ function ∈ program.functions, ∀ assignment,
      allocator function = .ok assignment → assignment.Legal function)
    (hcompile : program.compile allocator = .ok asm) (hassemble : asm.assemble = .ok image)
    (hhost : host.Fits image.code.length)
    (hroom : ∀ state, State.Reachable program limits state → 48 * state.depth ≤ host.stackBytes)
    (hrun : program.run? limits fuel = some ⟨lines, .ok value⟩) {ledger : Ledger}
    (hledger : program.ledger? Ledger.loadsWhole limits fuel = some ledger)
    (hfresh : ledger.blocks ≠ [] → host.LendsFresh image.code.length)
    (hanswers : host.Answers ledger.blocks) :
    ∃ count exit origin deployment, asm.run? host count = some (.ok ⟨lines, exit⟩) ∧
      deployment.blocks = ledger.blocks ∧ Deployment.Represents deployment origin value exit := by
  obtain ⟨main, last, hmain, hreturned, rfl⟩ := run?_eq_ok hrun
  rw [ledger?, hmain, Option.bind_some] at hledger
  have hserves := (Host.serves_iff (State.size_lt_of_ledger? hledger)).mpr hanswers
  obtain ⟨executable, position, address, hload, hbase, hsize, hinstalled⟩ :=
    AsmProgram.load_installed hcompile hassemble host
  let deployment : Deployment :=
    ⟨program, allocator, host, executable, position, address, ledger.blocks⟩
  have hsound : deployment.Sound := by
    refine ⟨hregular, hinstalled, ⟨hbase, ?_⟩, fun {function} hfunction => ?_, ?_, hserves⟩
    · rw [hsize]
      exact hhost
    · obtain ⟨_, _, hcompiles⟩ := mem_of_forall₂ (compile_eq_ok hcompile) hfunction
      cases hcompiles with
      | intro hassignment =>
          change (allocator.assignment function).Legal function
          rw [Allocator.assignment_eq hassignment]
          exact hlegal function hfunction _ hassignment
    · rw [hsize]
      exact hfresh
  have hstart : State.Reachable program limits (.initial main) := .of_main hmain
  have hstack : 48 ≤ host.stackBytes := hroom _ hstart
  obtain ⟨machine, hinitial, count, middle, hmiddle, hsimulates⟩ :=
    Deployment.simulates_initial hsound hmain hstack
  obtain ⟨more, final, origin, hexited, houtput, hvalue⟩ :=
    hsimulates.run hsound hledger List.prefix_rfl hstart hroom hreturned
  refine ⟨count + more, final.get .result, origin, deployment, ?_, rfl, hvalue⟩
  have hall : machine.run host executable (count + more) = .exited final :=
    (Machine.run_add hmiddle more).trans hexited
  rw [AsmProgram.run?, hload]
  dsimp only
  rw [Executable.run?, show Machine.initial host executable = .ok machine from hinitial]
  dsimp only
  rw [hall, ← houtput]
  rfl

/-- A program without a heap that prints values of the right types is run natively as it is run
from its instructions, whichever legal assignment each of its functions was compiled with: the
same lines are printed, and a number or truth value that is returned is left behind. An activation
takes up to 48 bytes of the stack. -/
theorem native_run_of_heapFree (hregular : program.Regular) (hheap : program.HeapFree)
    (hlegal : ∀ function ∈ program.functions, ∀ assignment,
      allocator function = .ok assignment → assignment.Legal function)
    (hcompile : program.compile allocator = .ok asm) (hassemble : asm.assemble = .ok image)
    (hhost : host.Fits image.code.length)
    (hroom : ∀ state, State.Reachable program limits state → 48 * state.depth ≤ host.stackBytes)
    (hrun : program.run? limits fuel = some ⟨lines, .ok value⟩)
    (htyped : ∀ state, State.Reachable program limits state → state.top.printsTyped = true) :
    ∃ count exit, asm.run? host count = some (.ok ⟨lines, exit⟩) ∧ value.Fits exit := by
  obtain ⟨main, _, hmain, _⟩ := run?_eq_ok hrun
  obtain ⟨ledger, hledger, hblocks⟩ :=
    State.ledger?_of_heapFree hheap htyped (.of_main hmain) .empty fuel
  have hfinal : program.ledger? Ledger.loadsWhole limits fuel = some ledger := by
    rw [ledger?, hmain, Option.bind_some, hledger]
  have hanswers : host.Answers ledger.blocks := by
    rw [hblocks]
    intro before block hprefix
    exact absurd (List.prefix_nil.mp hprefix) (by simp)
  obtain ⟨count, exit, origin, deployment, hnative, hsame, hvalue⟩ :=
    native_run hregular hlegal hcompile hassemble hhost hroom hrun hfinal
      (fun hne => absurd hblocks hne) hanswers
  refine ⟨count, exit, hnative, ?_⟩
  cases origin with
  | none => exact hvalue.fits
  | some block =>
      obtain ⟨_, _, found, hfound, _⟩ := hvalue
      rw [hsame, hblocks] at hfound
      cases hfound

/-- Adds up numbers by recursion. -/
def totals : Program where
  functions := [
    { name := "main", params := [], locals := [],
      code := [
        .call "printStr" [.str "total"] none,
        .call "total" [.int 3] (some (.temp 0)),
        .call "printInt" [.temp 0] none,
        .ret (some (.temp 0))] },
    { name := "total", params := ["n"], locals := [],
      code := [
        .branch .le (.var "n") (.int 0) "done",
        .binary (.arith .sub) (.temp 0) (.var "n") (.int 1),
        .call "total" [.temp 0] (some (.temp 1)),
        .binary (.arith .add) (.temp 2) (.var "n") (.temp 1),
        .ret (some (.temp 2)),
        .label "done",
        .ret (some (.int 0))] }]

theorem native_run_of_heapFree_totals :
    ∃ asm count exit, totals.compile LinearScan.standard.assign = .ok asm ∧
      asm.run? .standard count = some (.ok ⟨["total", "6"], exit⟩) ∧ exit = 6 := by
  obtain ⟨asm, image, hcompile, hassemble, hsize⟩ := builds_of_isBuilt
    (show totals.isBuilt LinearScan.standard.assign = true by decide +kernel)
  have hrun : totals.run? .standard 32 = some ⟨["total", "6"], .ok (.int 6)⟩ := rfl
  have hpasses : ∀ count < 32, ((State.initial totals.functions[0]).advance totals .standard
      count).passes (fun state => state.top.printsTyped) = true := by decide +kernel
  obtain ⟨count, exit, hnative, hexit⟩ :=
    native_run_of_heapFree (by decide) (by decide)
      (fun _ _ _ hassign => LinearScan.assign_legal LinearScan.standard_pool_perm hassign)
      hcompile hassemble (Host.fits_standard hsize)
      (fun _ hreachable => Host.room_standard (by decide) hreachable) hrun
      (fun _ hreachable => hreachable.of_passes rfl rfl hpasses)
  exact ⟨asm, count, exit, hcompile, hnative, hexit 6 rfl⟩

/-- A program with a heap is run natively as it is run from its instructions if it does with
pointers only what may be done with them, and each load reads the bytes of the value in its
slot, none of which has been overwritten by a store to another slot. Fresh memory has to be
found whenever the arena asks for it. -/
theorem native_run_of_loadsWhole (hregular : program.Regular)
    (hlegal : ∀ function ∈ program.functions, ∀ assignment,
      allocator function = .ok assignment → assignment.Legal function)
    (hcompile : program.compile allocator = .ok asm) (hassemble : asm.assemble = .ok image)
    (hhost : host.Fits image.code.length)
    (hroom : ∀ state, State.Reachable program limits state → 48 * state.depth ≤ host.stackBytes)
    (hrun : program.run? limits fuel = some ⟨lines, .ok value⟩) {ledger : Ledger}
    (hledger : program.ledger? Ledger.loadsWhole limits fuel = some ledger)
    (hfresh : host.LendsFresh image.code.length) (hanswers : host.Answers ledger.blocks) :
    ∃ count exit, asm.run? host count = some (.ok ⟨lines, exit⟩) := by
  obtain ⟨count, exit, _, _, hnative, _⟩ :=
    native_run hregular hlegal hcompile hassemble hhost hroom hrun hledger (fun _ => hfresh)
      hanswers
  exact ⟨count, exit, hnative⟩

/-- Stores the address of a block in that block and follows it. -/
def linked : Program where
  functions := [
    { name := "main", params := [], locals := [],
      code := [
        .call "malloc" [.int 5] (some (.temp 0)),
        .store ⟨.temp 0, 0⟩ (.int 7),
        .store ⟨.temp 0, 4⟩ (.temp 0),
        .load (.temp 1) ⟨.temp 0, 4⟩,
        .load (.temp 2) ⟨.temp 1, 0⟩,
        .call "printInt" [.temp 2] none,
        .ret none] }]

theorem native_run_of_loadsWhole_linked :
    ∃ asm count exit, linked.compile LinearScan.standard.assign = .ok asm ∧
      asm.run? .standard count = some (.ok ⟨["7"], exit⟩) := by
  obtain ⟨asm, image, hcompile, hassemble, hsize⟩ := builds_of_isBuilt
    (show linked.isBuilt LinearScan.standard.assign = true by decide +kernel)
  have hrun : linked.run? .standard 10 = some ⟨["7"], .ok .undefined⟩ := rfl
  have hblocks : (linked.ledger? Ledger.loadsWhole .standard 10).map (·.blocks) =
      some [⟨0, 5⟩] := by decide +kernel
  obtain ⟨ledger, hledger, hfinal⟩ := Option.map_eq_some_iff.mp hblocks
  have hanswers : Host.standard.Answers ledger.blocks := by
    rw [hfinal]
    exact Host.answers_of_ample Host.ample_ascending (by decide) (by decide)
  obtain ⟨count, exit, hnative⟩ :=
    native_run_of_loadsWhole (by decide)
      (fun _ _ _ hassign => LinearScan.assign_legal LinearScan.standard_pool_perm hassign)
      hcompile hassemble (Host.fits_standard hsize)
      (fun _ hreachable => Host.room_standard (by decide) hreachable) hrun hledger
      (Host.lendsFresh_standard _) hanswers
  exact ⟨asm, count, exit, hcompile, hnative⟩

/-- Stores to two slots of a block that have three bytes in common in memory. -/
def overlapping : Program where
  functions := [
    { name := "main", params := [], locals := [],
      code := [
        .call "malloc" [.int 2] (some (.temp 0)),
        .store ⟨.temp 0, 0⟩ (.int 1),
        .store ⟨.temp 0, 1⟩ (.int 2),
        .load (.temp 1) ⟨.temp 0, 0⟩,
        .call "printInt" [.temp 1] none,
        .ret (some (.int 0))] }]

/-- Nothing is wrong with what `overlapping` does with its pointer, but the load reads a byte of
the second store. -/
theorem native_run_overlapping :
    overlapping.Regular ∧
      (overlapping.ledger? (fun _ _ => true) .standard 10).isSome = true ∧
      overlapping.run? .standard 10 = some ⟨["1"], .ok (.int 0)⟩ ∧
      ∃ asm, overlapping.compile LinearScan.standard.assign = .ok asm ∧
        asm.run? .standard 40 = some (.ok ⟨["513"], 0⟩) := by
  refine ⟨by decide, by decide +kernel, rfl, ?_⟩
  have hnative : (match overlapping.compile LinearScan.standard.assign with
      | .ok asm => decide (asm.run? .standard 40 = some (.ok ⟨["513"], 0⟩))
      | .error _ => false) = true := by decide +kernel
  split at hnative
  next asm hcompile => exact ⟨asm, hcompile, of_decide_eq_true hnative⟩
  next => cases hnative

end Program

end ThreeAddress
