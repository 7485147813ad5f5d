import ThreeAddress.Proofs.Asm.Decoding
import ThreeAddress.Proofs.Asm.Relocation
import ThreeAddress.Proofs.Native.Agreement

/-!
# Running bytes

A run takes nothing from a program but the bytes of its image. Its instructions are read
from the bytes, one after the other. A jump or a call goes to the instruction that starts
where its displacement leads, and a literal is at the address where its displacement
leads. The executable that is found in this way is the one that the program was linked to.
-/

namespace ThreeAddress

/-- The built-in at an address. -/
def Builtin.ofAddress? (address : UInt64) : Option Builtin :=
  Builtin.all.find? (·.address = address)

@[simp] theorem Builtin.ofAddress?_address (builtin : Builtin) :
    ofAddress? builtin.address = some builtin := by
  cases builtin <;> rfl

/-- An instruction that was read, and the offsets where it starts and ends. -/
structure Line where
  start : Nat
  code : LaidOut
  stop : Nat
deriving DecidableEq, Repr

namespace Line

/-- Reads a number of instructions, the first of which starts at an offset. -/
def read? : Nat → Nat → List UInt8 → Option (List Line)
  | 0, _, _ => some []
  | count + 1, start, bytes => do
      let (code, rest) ← Encoding.Decoder.instruction bytes
      let stop := start + (bytes.length - rest.length)
      return ⟨start, code, stop⟩ :: (← read? count stop rest)

/-- The position of the instruction that starts at an offset. If none does, no instruction is at
that position. -/
def positionAt (lines : List Line) (offset : Int) : Nat :=
  lines.findIdx fun line => (line.start : Int) = offset

/-- Where the instruction's displacement leads. -/
def target (line : Line) (displacement : Int32) : Int := line.stop + displacement.toInt

def callTarget (lines : List Line) (line : Line) : CallField → CallTarget
  | .routine displacement => .position (positionAt lines (line.target displacement))
  | .builtin address =>
      match Builtin.ofAddress? address with
      | some builtin => .builtin builtin
      | none => .position lines.length

/-- The instruction with the positions and addresses that its displacements lead to. -/
def link (lines : List Line) (base : Nat) (line : Line) : Linked :=
  line.code.map (fun displacement => positionAt lines (line.target displacement))
    (line.callTarget lines) fun displacement => Int64.ofInt (base + line.target displacement)

end Line

/-- The executable that code in memory is, given how many instructions it begins with and the offset
of the one where a run starts. -/
def CodeMemory.executable? (memory : CodeMemory) (count entry base : Nat) : Option Executable :=
  (Line.read? count 0 memory.loaded.toList).map fun lines =>
    { code := (lines.map (Line.link lines base)).toArray
      start := Line.positionAt lines entry
      base
      image := memory }

/-- Loads the bytes of an image and runs them, unless they do not begin with that many
instructions, or it takes more than `fuel` of them. -/
def Image.run? (image : Image) (count : Nat) (host : Host) (fuel : Nat) :
    Option (Except NativeError NativeExecution) := do
  let memory ← ((CodeMemory.ofSize image.code.length).load image.code).toOption
  let executable ← memory.executable? count image.entry host.imageBase
  executable.run? host fuel

/-! ## Reading instructions -/

namespace Line

open AsmProgram (offsetAt)

/-- Instructions as they stand one after the other. -/
def ofCodes : Nat → List LaidOut → List Line
  | _, [] => []
  | start, code :: rest =>
      ⟨start, code, start + code.encode.length⟩ :: ofCodes (start + code.encode.length) rest

variable {codes : List LaidOut} {index : Nat} {code : LaidOut}

/-- Instructions are read back, with other bytes after them that do not end a call. -/
theorem read?_encodings (start : Nat) {data : List UInt8} (hdata : data.head? ≠ some 0xFF) :
    read? codes.length start (codes.flatMap LaidOut.encode ++ data) =
      some (ofCodes start codes) := by
  induction codes generalizing start with
  | nil => rfl
  | cons code rest ih =>
      have hrest : (rest.flatMap LaidOut.encode ++ data).head? ≠ some 0xFF := by
        cases rest with
        | nil => exact hdata
        | cons next rest =>
            obtain ⟨first, more, hbytes, hne⟩ := Encoding.Decoder.exists_encode_eq_cons next
            simp [hbytes, hne]
      rw [List.length_cons, List.flatMap_cons, List.append_assoc, read?,
        Encoding.Decoder.instruction_encode code hrest]
      simp [ih, ofCodes]

@[simp] theorem length_ofCodes (start : Nat) : (ofCodes start codes).length = codes.length := by
  induction codes generalizing start with
  | nil => rfl
  | cons code rest ih => simp [ofCodes, ih]

theorem offsetAt_succ (code : LaidOut) (rest : List LaidOut) (count : Nat) :
    offsetAt (code :: rest) (count + 1) = code.encode.length + offsetAt rest count := by
  simp [offsetAt]

theorem getElem?_ofCodes (start : Nat) (h : codes[index]? = some code) :
    (ofCodes start codes)[index]? =
      some ⟨start + offsetAt codes index, code, start + offsetAt codes (index + 1)⟩ := by
  induction codes generalizing start index with
  | nil => cases h
  | cons first rest ih =>
      cases index with
      | zero =>
          obtain rfl := Option.some.inj h
          simp [ofCodes, offsetAt]
      | succ index =>
          rw [ofCodes, List.getElem?_cons_succ, ih _ h, offsetAt_succ, offsetAt_succ,
            Nat.add_assoc, Nat.add_assoc]

/-- An instruction is found where it starts, and none is found at the end. -/
theorem positionAt_offsetAt (start : Nat) (hindex : index ≤ codes.length) :
    positionAt (ofCodes start codes) (start + offsetAt codes index : Nat) = index := by
  induction codes generalizing start index with
  | nil => exact (Nat.le_zero.mp hindex).symm
  | cons code rest ih =>
      cases index with
      | zero => simp [positionAt, ofCodes, offsetAt, List.findIdx_cons]
      | succ index =>
          obtain ⟨first, more, hbytes, -⟩ := Encoding.Decoder.exists_encode_eq_cons code
          have hpos : 0 < code.encode.length := by simp [hbytes]
          have hne : ¬ (start : Int) = (start + offsetAt (code :: rest) (index + 1) : Nat) := by
            rw [offsetAt_succ]
            omega
          have hrest := ih (start + code.encode.length) (Nat.le_of_succ_le_succ hindex)
          rw [positionAt, ofCodes, List.findIdx_cons, decide_eq_false hne, offsetAt_succ,
            ← Nat.add_assoc]
          exact congrArg (· + 1) hrest

/-- No instruction is found from the end on. -/
theorem positionAt_of_le {start offset : Nat} (h : start + offsetAt codes codes.length ≤ offset) :
    positionAt (ofCodes start codes) offset = codes.length := by
  induction codes generalizing start with
  | nil => rfl
  | cons code rest ih =>
      obtain ⟨first, more, hbytes, -⟩ := Encoding.Decoder.exists_encode_eq_cons code
      have hpos : 0 < code.encode.length := by simp [hbytes]
      rw [List.length_cons, offsetAt_succ] at h
      have hne : ¬ (start : Int) = offset := by omega
      have hrest : positionAt (ofCodes (start + code.encode.length) rest) offset = rest.length :=
        ih (by omega)
      rw [positionAt, ofCodes, List.findIdx_cons, decide_eq_false hne]
      exact congrArg (· + 1) hrest

end Line

/-! ## What displacements lead to -/

namespace AsmProgram

open Line (ofCodes positionAt)

variable {program : AsmProgram} {image : Image} {laid : List LaidOut} {codes : List Labelled}

/-- The instruction where a label is bound is at the position of the label. No instruction is where
a literal is. -/
theorem Relocated.positionAt_eq (h : program.Relocated image laid) {label : String} {offset : Nat}
    (hbound : program.BoundAt laid label offset) :
    positionAt (ofCodes 0 laid) offset = program.position label := by
  have hcount := h.count
  unfold position
  split
  next found position hfind =>
    obtain rfl : found = label := by simpa using List.find?_some hfind
    have hmem := List.mem_of_find?_eq_some hfind
    -- Nothing is bound twice, so the label is bound in front of the instruction at this position.
    have hthere : program.BoundAt laid found (offsetAt laid position) :=
      boundAt_iff_position.mpr (.inl ⟨position, hmem, rfl⟩)
    have hfound := Line.positionAt_offsetAt 0 (hcount ▸ position_le_of_mem hmem)
    rw [h.unique _ _ _ hbound hthere]
    rwa [Nat.zero_add] at hfound
  next hfind =>
    rcases boundAt_iff_position.mp hbound with ⟨position, hmem, _⟩ | ⟨index, _, hliteral⟩
    · exact absurd (List.find?_eq_none.mp hfind _ hmem) (by simp)
    · obtain ⟨before, text, after, _, _, rfl⟩ := hliteral
      rw [← hcount]
      exact Line.positionAt_of_le (by omega)

/-- The address of what a number of a literal stands for, in an image at a base. -/
def addressIn (image : Image) (base number : Nat) : Int64 :=
  Int64.ofNat (base + (image.place? (literalLabel number)).getD 0)

variable {label : String} {stop offset : Nat} {displacement : Int32} {line : Line}

theorem Relocated.positionAt_target (h : program.Relocated image laid)
    (hbound : program.BoundAt laid label offset) (hreach : image.Reaches stop displacement offset)
    (hstop : line.stop = stop) :
    positionAt (ofCodes 0 laid) (line.target displacement) = program.position label := by
  rw [Line.target, hstop, hreach.distance, h.positionAt_eq hbound]

theorem address_target {number : Nat} (hplace : image.place? (literalLabel number) = some offset)
    (hreach : image.Reaches stop displacement offset) (hstop : line.stop = stop) (base : Nat) :
    Int64.ofInt (base + line.target displacement) = addressIn image base number := by
  rw [Line.target, hstop, hreach.distance, addressIn, hplace, Option.getD_some, ← Int.natCast_add]
  exact Int64.ofInt_eq_ofNat

/-- What is read of an instruction is how it is linked. -/
theorem Relocated.link_eq (h : program.Relocated image laid)
    (hplace : ∀ {label offset}, program.BoundAt laid label offset →
      image.place? label = some offset)
    {index : Nat} {code : Instr String String Nat}
    (hcode : program.instructions[index]? = some code) (base : Nat) :
    ∃ line, (ofCodes 0 laid)[index]? = some line ∧
      line.link (ofCodes 0 laid) base =
        code.map program.position program.callTarget (addressIn image base) := by
  have hstop : 0 + offsetAt laid (index + 1) = offsetAt laid (index + 1) := Nat.zero_add _
  by_cases hliteral : ∀ number ∈ (Item.instr code).literal?, number < program.literals.size
  · obtain ⟨line, hline, hresolves⟩ := h.resolves index code hcode hliteral
    refine ⟨_, Line.getElem?_ofCodes 0 hline, ?_⟩
    cases hresolves with
    | jmp hbound hreach => exact congrArg Instr.jmp (h.positionAt_target hbound hreach hstop)
    | jcc hbound hreach => exact congrArg (Instr.jcc _) (h.positionAt_target hbound hreach hstop)
    | builtin hname =>
        refine congrArg Instr.call ?_
        rw [Line.callTarget, Builtin.ofAddress?_address, AsmProgram.callTarget, hname]
    | routine hname hstart hreach =>
        refine congrArg Instr.call ?_
        rw [Line.callTarget, h.positionAt_target (.routine hstart) hreach hstop,
          AsmProgram.callTarget, hname]
    | literal hthere hreach =>
        exact congrArg (Instr.leaLiteral · _)
          (address_target (hplace (.literal hthere)) hreach hstop base)
    | plain hplain => cases code <;> first | rfl | cases hplain
  · -- Only a number that no literal has is left, which leads to a label of the same text.
    cases code with
    | leaLiteral number dst =>
        have hnumber : program.literals.size ≤ number := by simpa [Item.literal?] using hliteral
        obtain ⟨displacement, offset, hline, hlabel, hreach⟩ :=
          h.strays index number dst hcode hnumber
        exact ⟨_, Line.getElem?_ofCodes 0 hline, congrArg (Instr.leaLiteral · dst)
          (address_target (hplace (.label hlabel)) hreach hstop base)⟩
    | _ => exact absurd hliteral (by simp [Item.literal?])

theorem Relocated.map_link_eq (h : program.Relocated image laid)
    (hplace : ∀ {label offset}, program.BoundAt laid label offset →
      image.place? label = some offset) (base : Nat) :
    (ofCodes 0 laid).map (Line.link (ofCodes 0 laid) base) =
      program.instructions.map
        (Instr.map program.position program.callTarget (addressIn image base)) := by
  refine List.ext_getElem? fun index => ?_
  rw [List.getElem?_map, List.getElem?_map]
  cases hcode : program.instructions[index]? with
  | none =>
      have hend : (ofCodes 0 laid)[index]? = none := by
        rw [List.getElem?_eq_none_iff, Line.length_ofCodes, h.count]
        exact List.getElem?_eq_none_iff.mp hcode
      rw [hend]
      rfl
  | some code =>
      obtain ⟨line, hline, hlink⟩ := h.link_eq hplace hcode base
      rw [hline, Option.map_some, hlink, Option.map_some]

/-- No byte of a literal ends a call. -/
theorem head?_literals_ne (texts : List String) :
    (texts.flatMap fun text => Text.encode text ++ [0]).head? ≠ some 0xFF := by
  cases texts with
  | nil => simp
  | cons text rest =>
      intro hhead
      have hmem : (0xFF : UInt8) ∈ Text.encode text ++ [0] := by
        rw [List.flatMap_cons, List.head?_append_of_ne_nil _ (by simp)] at hhead
        exact List.mem_of_head? hhead
      rcases List.mem_append.mp hmem with hmem | hzero
      · exact Text.ne_last_of_mem_encode hmem rfl
      · exact absurd (List.mem_singleton.mp hzero) (by decide)

/-- The bytes of an image are the executable that its program is linked to. -/
theorem executable?_eq_link (hassemble : program.assemble = .ok image)
    (hsize : image.code.length < 2147483648) {memory : CodeMemory}
    (hmemory : memory.loaded = image.code.toArray) (base : Nat) :
    memory.executable? program.instructions.length image.entry base =
      some (program.link image memory base) := by
  obtain ⟨codes, hlaid⟩ := laidOutAs_of_assemble hassemble
  have hrelocated := hlaid.relocated hsize
  generalize hcodes : layOutFrom (fun label => (image.place? label).getD 0) 0 codes = laid
    at hrelocated
  have hplace : ∀ {label offset}, program.BoundAt laid label offset →
      image.place? label = some offset := fun hbound =>
    hlaid.place?_of_mem (hlaid.boundAt_iff.mp (hcodes ▸ hbound))
  -- Reading stops in front of the literals, so it matters how these begin.
  have hread : Line.read? program.instructions.length 0 memory.loaded.toList =
      some (ofCodes 0 laid) := by
    rw [hmemory, hrelocated.code, ← hrelocated.count]
    exact Line.read?_encodings 0 (head?_literals_ne _)
  have hentry : positionAt (ofCodes 0 laid) image.entry = program.position (routineLabel "main") :=
    hrelocated.positionAt_eq (.routine hrelocated.entry)
  rw [CodeMemory.executable?, hread, Option.map_some, hrelocated.map_link_eq hplace, hentry]
  rfl

/-- A program that can be loaded runs as the bytes of its image do. Apart from these the run is only
told how many of them are instructions. -/
theorem run?_image {host : Host} {executable : Executable}
    (hload : program.load host = .ok executable) (hsize : executable.image.size < 2147483648) :
    ∃ image, program.assemble = .ok image ∧
      ∀ fuel, image.run? program.instructions.length host fuel = program.run? host fuel := by
  have hloaded := hload
  unfold load at hload
  split at hload
  next => cases hload
  next image hassemble =>
    rw [CodeMemory.load_ofSize] at hload
    dsimp only at hload
    split at hload
    next =>
      obtain rfl := Except.ok.inj hload
      refine ⟨image, hassemble, fun fuel => ?_⟩
      have hlength : image.code.length < 2147483648 :=
        Nat.lt_of_le_of_lt (Nat.le_max_left _ _) hsize
      rw [Image.run?, CodeMemory.load_ofSize, AsmProgram.run?, hloaded]
      change (CodeMemory.executable? _ _ _ _ >>= fun executable => executable.run? host fuel) = _
      rw [executable?_eq_link hassemble hlength rfl]
      rfl
    next => cases hload

end AsmProgram

/-- The bytes of a compiled program print what the program prints, if loads read the bytes of the
values in their slots. -/
theorem Program.image_run {program : Program} {allocator : Allocator} {asm : AsmProgram}
    {image : Image} {host : Host} {limits : Limits} {fuel : Nat} {lines : List String}
    {value : Value} (hregular : program.Regular)
    (hlegal : ∀ function ∈ program.functions, ∀ assignment,
      allocator function = .ok assignment → assignment.Legal function)
    (hcompile : program.compile allocator = .ok asm) (hassemble : asm.assemble = .ok image)
    (hsize : image.code.length < 2147483648) (hhost : host.Fits image.code.length)
    (hroom : ∀ state, State.Reachable program limits state → 48 * state.depth ≤ host.stackBytes)
    (hrun : program.run? limits fuel = some ⟨lines, .ok value⟩) {ledger : Ledger}
    (hledger : program.ledger? Ledger.loadsWhole limits fuel = some ledger)
    (hfresh : ledger.blocks ≠ [] → host.LendsFresh image.code.length)
    (hanswers : host.Answers ledger.blocks) :
    ∃ count exit, image.run? asm.instructions.length host count = some (.ok ⟨lines, exit⟩) := by
  obtain ⟨count, exit, _, _, hnative, _⟩ :=
    native_run hregular hlegal hcompile hassemble hhost hroom hrun hledger hfresh hanswers
  obtain ⟨executable, _, _, hload, _, hloaded, _⟩ :=
    AsmProgram.load_installed hcompile hassemble host
  obtain ⟨found, hfound, hsame⟩ := AsmProgram.run?_image hload (hloaded ▸ hsize)
  obtain rfl := Except.ok.inj (hassemble.symm.trans hfound)
  exact ⟨count, exit, (hsame count).trans hnative⟩

end ThreeAddress
