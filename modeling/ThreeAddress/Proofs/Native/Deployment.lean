import ThreeAddress.Proofs.Heap.Placement
import ThreeAddress.Proofs.Native.Activation
import ThreeAddress.Proofs.Registers.Legality

/-!
# Deployed programs

A deployed program is in memory, ready to be run. Words stand for values there:
numbers and truth values for themselves, the address of its bytes for a text, and
the address of its block for what `malloc` returned.
-/

namespace ThreeAddress

/-- Whether a source is a text with a zero character, at which native code would end it. -/
def Source.hasZero : Source → Bool
  | .str text => text.toList.contains '\x00'
  | _ => false

/-- Parameters have different names, calls that print have no destination, and texts have no zero
characters. -/
structure Program.Regular (program : Program) : Prop where
  params : ∀ function ∈ program.functions, function.params.Nodup
  prints : program.DiscardsPrints
  texts : ∀ function ∈ program.functions, ∀ inst ∈ function.code, ∀ source ∈ inst.sources,
    source.hasZero = false

instance (program : Program) : Decidable program.Regular :=
  decidable_of_iff
    ((∀ function ∈ program.functions, function.params.Nodup) ∧ program.DiscardsPrints ∧
      ∀ function ∈ program.functions, ∀ inst ∈ function.code, ∀ source ∈ inst.sources,
        source.hasZero = false)
    ⟨fun ⟨hparams, hprints, htexts⟩ => ⟨hparams, hprints, htexts⟩,
      fun ⟨hparams, hprints, htexts⟩ => ⟨hparams, hprints, htexts⟩⟩

/-- A program in memory, and the blocks that a run of it allocates. -/
structure Deployment where
  program : Program
  allocator : Allocator
  host : Host
  executable : Executable
  /-- Where labels are. -/
  position : String → Nat
  /-- Where texts are. -/
  address : String → Int64
  blocks : List Block

namespace Deployment

def placed (deployment : Deployment) (function : Function) : Placed :=
  deployment.allocator.placed function

/-- Where a block is. -/
def place (deployment : Deployment) (block : Nat) : Nat :=
  deployment.host.place deployment.blocks block

def Holds (deployment : Deployment) (start : Nat) (items : List (Item String)) : Prop :=
  deployment.executable.Holds deployment.position
    (Instr.link deployment.position deployment.address) start items

def Leads (deployment : Deployment) (machine : Machine) (post : Machine → Prop) : Prop :=
  machine.Leads deployment.host deployment.executable post

/-- Where a routine starts. -/
def entrance (deployment : Deployment) (function : Function) : Nat :=
  deployment.position (routineLabel function.name)

/-- Where the code of the next instruction of an activation is. -/
def site (deployment : Deployment) (frame : Frame) : Nat :=
  deployment.entrance frame.function + (deployment.placed frame.function).site frame.index

/-- All is in place: the code with a legal assignment for each function, and memory for the
blocks. -/
structure Sound (deployment : Deployment) : Prop where
  regular : deployment.program.Regular
  installed : Installed deployment.program deployment.allocator deployment.executable
    deployment.position deployment.address
  loaded : deployment.executable.LoadedOn deployment.host
  legal : ∀ {function}, function ∈ deployment.program.functions →
    (deployment.allocator.assignment function).Legal function
  fresh : deployment.blocks ≠ [] →
    deployment.host.LendsFresh deployment.executable.image.size
  serves : deployment.host.Serves deployment.blocks

variable {deployment : Deployment} {frame : Frame} {inst : Inst}

/-! ## Code -/

namespace Sound

theorem written (h : deployment.Sound)
    (hfunction : frame.function ∈ deployment.program.functions) :
    (deployment.placed frame.function).Written :=
  h.installed.written frame.function hfunction

theorem allocatable (h : deployment.Sound) {function : Function}
    (hfunction : function ∈ deployment.program.functions) :
    (deployment.placed function).Allocatable :=
  (h.legal hfunction).allocatable

theorem result_inst (h : deployment.Sound)
    (hfunction : frame.function ∈ deployment.program.functions)
    (hinst : frame.next? = some inst) :
    ((deployment.placed frame.function).inst inst).result = .ok () :=
  (h.written hfunction).inst_of_getElem? hinst

/-- The code of the next instruction is in place. -/
theorem holds_inst (h : deployment.Sound)
    (hfunction : frame.function ∈ deployment.program.functions)
    (hinst : frame.next? = some inst) :
    deployment.Holds (deployment.site frame)
      ((deployment.placed frame.function).inst inst).code := by
  obtain ⟨rest, hcode⟩ := (h.written hfunction).code_eq hinst
  have hholds := h.installed.holds frame.function hfunction
  change deployment.Holds (deployment.entrance frame.function)
    (deployment.placed frame.function).code.code at hholds
  rw [hcode, Holds, Executable.holds_append, Executable.holds_append] at hholds
  exact hholds.2.1

theorem site_advance (deployment : Deployment) (hinst : frame.next? = some inst) :
    deployment.site frame.advance = deployment.site frame +
      Item.count ((deployment.placed frame.function).inst inst).code := by
  have hsite := (deployment.placed frame.function).site_succ hinst
  change deployment.entrance frame.function +
    (deployment.placed frame.function).site (frame.index + 1) = _
  rw [hsite, site, Nat.add_assoc]

/-- Past the last instruction there is an epilogue if control can get there. -/
theorem holds_epilogue (h : deployment.Sound)
    (hfunction : frame.function ∈ deployment.program.functions) (hend : frame.next? = none)
    (hfalls : frame.function.fallsThrough = true) :
    deployment.Holds (deployment.site frame)
      (deployment.placed frame.function).epilogue.code := by
  have hcode := (h.written hfunction).code
  have hholds := h.installed.holds frame.function hfunction
  change deployment.Holds (deployment.entrance frame.function)
    (deployment.placed frame.function).code.code at hholds
  have hindex : frame.function.code.length ≤ frame.index := List.getElem?_eq_none_iff.mp hend
  have hbefore : (deployment.placed frame.function).codeBefore frame.function.code.length =
      (deployment.placed frame.function).codeBefore frame.index := by
    have htake : frame.function.code.take frame.index = frame.function.code :=
      List.take_of_length_le hindex
    change _ ++ (frame.function.code.take _).flatMap _ =
      _ ++ (frame.function.code.take _).flatMap _
    rw [List.take_length, htake]
  change (deployment.placed frame.function).code.code =
    (deployment.placed frame.function).codeBefore frame.function.code.length ++
      (if frame.function.fallsThrough then _ else []) at hcode
  rw [hcode, hfalls, if_pos rfl, hbefore, Holds, Executable.holds_append] at hholds
  exact hholds.2

/-- A label is where its instruction is. -/
theorem position_label (h : deployment.Sound)
    (hfunction : frame.function ∈ deployment.program.functions) {label : String} {index : Nat}
    (hlabel : frame.function.labelIndex? label = some index) :
    deployment.position (localLabel frame.function.name label) =
      deployment.site (frame.goto index) := by
  have hinst : (frame.goto index).next? = some (.label label) :=
    Function.getElem?_labelIndex hlabel
  have htarget : (frame.goto index).function ∈ deployment.program.functions := hfunction
  exact (h.holds_inst htarget hinst).1

/-- A text that the code of an instruction refers to is in memory. -/
theorem spells (h : deployment.Sound)
    (hfunction : frame.function ∈ deployment.program.functions) (hinst : frame.next? = some inst)
    {text : String} {register : Register}
    (hitem : .instr (.leaLiteral text register) ∈
      ((deployment.placed frame.function).inst inst).code) :
    deployment.executable.Spells (deployment.address text) text := by
  obtain ⟨rest, hcode⟩ := (h.written hfunction).code_eq hinst
  refine h.installed.spells frame.function hfunction (.instr (.leaLiteral text register)) ?_ text
    rfl
  change _ ∈ (deployment.placed frame.function).code.code
  rw [hcode]
  exact List.mem_append_right _ (List.mem_append_left _ hitem)

end Sound

/-! ## Values -/

/-- What a word is that stands for a value. Any word stands for the undefined value. -/
def Represents (deployment : Deployment) (origin : Option Nat) (value : Value) (word : Int64) :
    Prop :=
  match origin with
  | some block => word = Int64.ofNat (deployment.place block) ∧
      deployment.place block < 2147483648 ∧
      ∃ found, deployment.blocks[block]? = some found ∧ value = .int (Int32.ofNat found.base)
  | none =>
      match value with
      | .int value => word = value.toInt64
      | .bool value => word = boolWord value
      | .str text => deployment.executable.Spells word text ∧ '\x00' ∉ text.toList
      | .undefined => True

theorem Represents.fits {value : Value} {word : Int64} (h : deployment.Represents none value word) :
    value.Fits word := by
  intro expected hexpected
  cases value with
  | int | bool =>
      obtain rfl := Option.some.inj hexpected
      exact h
  | str | undefined => cases hexpected

theorem represents_of_word? {value : Value} {word : Int64} (h : value.word? = some word) :
    deployment.Represents none value word := by
  cases value with
  | int | bool =>
      obtain rfl := Option.some.inj h
      exact rfl
  | str | undefined => cases h

/-- The registers of destinations that are live in an activation hold their values, other than that
of a result that is still to come. -/
def Carries (deployment : Deployment) (frame : Frame) (origins : Origins) (pending : Option Dest)
    (contents : Register → Int64) : Prop :=
  ∀ dest, dest ∈ frame.function.liveness.liveBefore frame.index → pending ≠ some dest →
    ∀ value, frame.bindings.get? dest = some value →
      ∀ register, (deployment.placed frame.function).assignment.register? dest = some register →
        deployment.Represents (origins dest) value (contents register)

namespace Carries

variable {origins : Origins} {cpu : Cpu}

/-- What an instruction reads from a destination is in a register. -/
theorem dest (h : deployment.Carries frame origins none cpu.get) (hsound : deployment.Sound)
    (hfunction : frame.function ∈ deployment.program.functions) (hinst : frame.next? = some inst)
    {source : Source} (hsource : source ∈ inst.sources) {dest : Dest}
    (hdest : source.dest? = some dest) {value : Value} (heval : frame.eval source = .ok value) :
    deployment.Represents (origins.source source) value
      ((deployment.placed frame.function).word deployment.address cpu source) := by
  have huse : dest ∈ inst.uses := List.mem_filterMap.mpr ⟨source, hsource, hdest⟩
  have hlive := (Function.mem_liveBefore_iff hinst).mpr (.inl huse)
  obtain ⟨register, hregister⟩ := (hsound.legal hfunction).assigned
    (Function.mem_used.mpr ⟨inst, List.mem_of_getElem? hinst, huse⟩)
  have hbound : frame.bindings.get? dest = some value := by
    obtain rfl := Source.dest?_eq_some_iff.mp hdest
    cases dest <;>
    · simp only [Dest.toSource, Frame.eval] at heval
      split at heval
      next found hfound => rw [hfound, Except.ok.inj heval]
      next => cases heval
  rw [Placed.word_of_dest hdest hregister, Origins.source_of_dest hdest]
  exact h dest hlive (by simp) value hbound register hregister

/-- The word of an operand that is no pointer is the one that its operation expects. -/
theorem fits (h : deployment.Carries frame origins none cpu.get) (hsound : deployment.Sound)
    (hfunction : frame.function ∈ deployment.program.functions) (hinst : frame.next? = some inst)
    {source : Source} (hsource : source ∈ inst.sources) (hplain : origins.source source = none)
    {value : Value} (heval : frame.eval source = .ok value) :
    value.Fits ((deployment.placed frame.function).word deployment.address cpu source) := by
  cases hdest : source.dest? with
  | some dest =>
      have hrepresents := h.dest hsound hfunction hinst hsource hdest heval
      rw [hplain] at hrepresents
      exact hrepresents.fits
  | none =>
      cases source with
      | temp | var => cases hdest
      | int | bool =>
          obtain rfl := Except.ok.inj heval
          exact fun _ hexpected => Option.some.inj hexpected
      | str =>
          obtain rfl := Except.ok.inj heval
          exact fun _ hexpected => nomatch hexpected

/-- A pointer that an instruction reads is in a register. -/
theorem pointer (h : deployment.Carries frame origins none cpu.get) (hsound : deployment.Sound)
    (hfunction : frame.function ∈ deployment.program.functions) (hinst : frame.next? = some inst)
    {source : Source} (hsource : source ∈ inst.sources) {block : Nat}
    (hpointer : origins.source source = some block) {value : Value}
    (heval : frame.eval source = .ok value) :
    deployment.Represents (some block) value
      ((deployment.placed frame.function).word deployment.address cpu source) := by
  cases hdest : source.dest? with
  | some dest =>
      rw [← hpointer]
      exact h.dest hsound hfunction hinst hsource hdest heval
  | none =>
      rw [Origins.source_of_literal hdest] at hpointer
      cases hpointer

/-- The word of an operand stands for its value, if the code of the instruction refers to each text
among its operands. -/
theorem source (h : deployment.Carries frame origins none cpu.get) (hsound : deployment.Sound)
    (hfunction : frame.function ∈ deployment.program.functions) (hinst : frame.next? = some inst)
    {source : Source} (hsource : source ∈ inst.sources)
    (htext : ∀ text, source = .str text → ∃ register, .instr (.leaLiteral text register) ∈
      ((deployment.placed frame.function).inst inst).code)
    {value : Value} (heval : frame.eval source = .ok value) :
    deployment.Represents (origins.source source) value
      ((deployment.placed frame.function).word deployment.address cpu source) := by
  cases hdest : source.dest? with
  | some dest => exact h.dest hsound hfunction hinst hsource hdest heval
  | none =>
      rw [Origins.source_of_literal hdest]
      cases source with
      | temp | var => cases hdest
      | int | bool =>
          obtain rfl := Except.ok.inj heval
          exact rfl
      | str text =>
          obtain rfl := Except.ok.inj heval
          obtain ⟨register, hitem⟩ := htext text rfl
          have hzero := hsound.regular.texts _ hfunction inst (List.mem_of_getElem? hinst) _ hsource
          exact ⟨hsound.spells hfunction hinst hitem, by simpa [Source.hasZero] using hzero⟩

end Carries

end Deployment

end ThreeAddress
