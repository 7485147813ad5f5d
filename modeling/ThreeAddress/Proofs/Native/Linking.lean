import Mathlib.Data.List.Forall2
import ThreeAddress.Native.Machine
import ThreeAddress.Proofs.Lowering.Literals
import ThreeAddress.Proofs.Lowering.Sites

/-!
# Linked code

The executable of a compiled program holds the code of each function at its
label, with jumps and calls that go to the labels they name, and literals that
point to their bytes.
-/

namespace ThreeAddress

/-- Code stands in an executable from a position on: each instruction as it is linked, and each
label at its position. -/
def Executable.Holds {Literal : Type} (executable : Executable) (position : String → Nat)
    (link : Instr String String Literal → Linked) : Nat → List (Item Literal) → Prop
  | _, [] => True
  | here, .label name :: rest => position name = here ∧ executable.Holds position link here rest
  | here, .instr code :: rest =>
      executable.code[here]? = some (link code) ∧ executable.Holds position link (here + 1) rest

namespace Executable

variable {Literal Literal' : Type} {executable : Executable} {position : String → Nat}
  {link : Instr String String Literal → Linked}

theorem holds_append {start : Nat} {first second : List (Item Literal)} :
    executable.Holds position link start (first ++ second) ↔
      executable.Holds position link start first ∧
        executable.Holds position link (start + Item.count first) second := by
  induction first generalizing start with
  | nil => simp [Holds, Item.count]
  | cons item rest ih =>
      cases item with
      | label name => simp only [List.cons_append, Holds, ih, Item.count, and_assoc]
      | instr code =>
          simp only [List.cons_append, Holds, ih, Item.count, and_assoc]
          rw [show start + 1 + Item.count rest = start + (Item.count rest + 1) by omega]

theorem holds_map {literal : Literal' → Literal} {start : Nat} {items : List (Item Literal')} :
    executable.Holds position link start (items.map (·.mapLiteral literal)) ↔
      executable.Holds position (fun code => link (code.map id id literal)) start items := by
  induction items generalizing start with
  | nil => rfl
  | cons item rest ih =>
      rw [List.map_cons]
      cases item with
      | label name => exact and_congr_right' ih
      | instr code => exact and_congr_right' ih

theorem holds_congr {link' : Instr String String Literal → Linked} {start : Nat}
    {items : List (Item Literal)} (h : ∀ code, link code = link' code) :
    executable.Holds position link start items ↔ executable.Holds position link' start items := by
  rw [funext h]

end Executable

namespace AsmProgram

variable {executable : Executable} {position : String → Nat}
  {link : Instr String String Nat → Linked}

/-- Items stand where their instructions are and where their labels are bound. -/
theorem holds_items {items : List (Item Nat)} {before after : List Linked}
    (hcode : executable.code.toList = before ++ ((instructionsOf items).map link ++ after))
    (hlabels : ∀ entry ∈ (positionsOf before.length items).1, position entry.1 = entry.2) :
    executable.Holds position link before.length items := by
  induction items generalizing before with
  | nil => trivial
  | cons item rest ih =>
      cases item with
      | label name => exact ⟨hlabels _ List.mem_cons_self,
          ih hcode fun entry hentry => hlabels entry (List.mem_cons_of_mem _ hentry)⟩
      | instr code =>
          refine ⟨?_, ?_⟩
          · rw [← Array.getElem?_toList, hcode, List.getElem?_append_right (Nat.le_refl _),
              Nat.sub_self]
            rfl
          · have hlength : (before ++ [link code]).length = before.length + 1 := by simp
            have hcode' : executable.code.toList =
                (before ++ [link code]) ++ ((instructionsOf rest).map link ++ after) := by
              rw [hcode, List.append_assoc]
              rfl
            rw [← hlength]
            exact ih hcode' (by rw [hlength]; exact hlabels)

theorem holds_routines (executable : Executable) {routines : List Routine} (before : List Linked)
    (hcode : executable.code.toList =
      before ++ (routines.flatMap fun routine => instructionsOf routine.items).map link)
    (hlabels : ∀ entry ∈ positionsFrom before.length routines, position entry.1 = entry.2) :
    ∀ routine ∈ routines,
      executable.Holds position link (position (routineLabel routine.name)) routine.items := by
  induction routines generalizing before with
  | nil => simp
  | cons routine rest ih =>
      rw [List.flatMap_cons, List.map_append] at hcode
      intro other hother
      rcases List.mem_cons.mp hother with rfl | hother
      · rw [hlabels _ List.mem_cons_self]
        apply holds_items hcode
        intro entry hentry
        exact hlabels entry (List.mem_cons_of_mem _ (List.mem_append_left _ hentry))
      · have hlength : (before ++ (instructionsOf routine.items).map link).length =
            (positionsOf before.length routine.items).2 := by
          rw [List.length_append, List.length_map, length_instructionsOf, positionsOf_snd]
        rw [← List.append_assoc] at hcode
        refine ih _ hcode (fun entry hentry => ?_) other hother
        rw [hlength] at hentry
        exact hlabels entry (List.mem_cons_of_mem _ (List.mem_append_right _ hentry))

theorem position_of_mem {program : AsmProgram}
    (hnames : ((positionsFrom 0 program.routines).map (·.1)).Nodup) {entry : String × Nat}
    (hentry : entry ∈ positionsFrom 0 program.routines) :
    program.position entry.1 = entry.2 := by
  rw [position, find?_of_nodup hnames hentry]

end AsmProgram

/-! ## Executables of programs -/

/-- The assignment of a function, if there is one. -/
def Allocator.assignment (allocator : Allocator) (function : Function) : Assignment :=
  match allocator function with
  | .ok assignment => assignment
  | .error _ => .empty

/-- A function as it was placed. -/
def Allocator.placed (allocator : Allocator) (function : Function) : Placed :=
  ⟨function, allocator.assignment function⟩

/-- The bytes of a text, with a zero after them, are in the image at an address. -/
def Executable.Spells (executable : Executable) (address : Int64) (text : String) : Prop :=
  ∃ offset, address = Int64.ofNat (executable.base + offset) ∧
    offset + (Text.encode text).length < executable.image.size ∧
    ∀ (index : Nat) byte, (Text.encode text ++ [0])[index]? = some byte →
      executable.image.byte? (offset + index) = some byte

/-- What a call of a name goes to, with labels at the given positions. -/
def CallTarget.ofName (position : String → Nat) (callee : String) : CallTarget :=
  match Builtin.ofName? callee with
  | some found => .builtin found
  | none => .position (position (routineLabel callee))

/-- An instruction as it is linked, with labels and literals at the given places. -/
def Instr.link (position : String → Nat) (address : String → Int64) :
    Instr String String String → Linked :=
  Instr.map position (CallTarget.ofName position) address

/-- Where labels are and what literals point to in an executable of a program. -/
structure Installed (program : Program) (allocator : Allocator) (executable : Executable)
    (position : String → Nat) (address : String → Int64) : Prop where
  written : ∀ function ∈ program.functions, (allocator.placed function).Written
  holds : ∀ function ∈ program.functions,
    executable.Holds position (Instr.link position address)
      (position (routineLabel function.name)) (allocator.placed function).code.code
  start : executable.start = position (routineLabel "main")
  spells : ∀ function ∈ program.functions, ∀ item ∈ (allocator.placed function).code.code,
    ∀ text, item.literal? = some text → executable.Spells (address text) text
  size : executable.code.size ≤ executable.image.size

theorem Program.Compiles.eq {allocator : Allocator} {literals : LiteralPool} {function : Function}
    {routine : Routine} (h : Compiles allocator literals function routine) :
    (allocator.placed function).code.result = .ok () ∧
      (∀ item ∈ (allocator.placed function).code.code, ∀ text, item.literal? = some text →
        text ∈ literals.texts) ∧
      routine = ⟨function.name,
        (allocator.placed function).code.code.map (·.mapLiteral literals.indexOf)⟩ := by
  cases h with
  | @intro assignment hassignment hresult hmem =>
      have hplaced : allocator.placed function = ⟨function, assignment⟩ := by
        rw [Allocator.placed, Allocator.assignment, hassignment]
      rw [hplaced]
      exact ⟨hresult, hmem, rfl⟩

namespace CodeMemory

theorem load_ofSize (code : List UInt8) :
    (ofSize code.length).load code = .ok ⟨max code.length 1, code.toArray⟩ := by
  have hfits : ¬ (ofSize code.length).size < code.length := Nat.not_lt.mpr (Nat.le_max_left _ _)
  rw [load, if_neg hfits]
  simp [ofSize]

theorem byte?_of_getElem? {code : List UInt8} {size offset : Nat} {byte : UInt8}
    (hsize : code.length ≤ size) (h : code[offset]? = some byte) :
    byte? ⟨size, code.toArray⟩ offset = some byte := by
  obtain ⟨hlt, rfl⟩ := List.getElem?_eq_some_iff.mp h
  rw [byte?, if_pos (Nat.lt_of_lt_of_le hlt hsize)]
  simp [hlt]

end CodeMemory

namespace Placed

open Emission

variable {placed : Placed}

theorem count_epilogue_pos (placed : Placed) : 0 < Item.count placed.epilogue.code := by
  rw [placed.epilogue_code]
  simp only [Item.count_append, Item.count]
  omega

theorem ret_code {value : Option Source} (h : (placed.inst (.ret value)).result = .ok ()) :
    ∃ before, (placed.inst (.ret value)).code = before ++ placed.epilogue.code := by
  cases value with
  | none => exact ⟨[], rfl⟩
  | some source =>
      obtain ⟨register, hsource, h⟩ := bind_result_eq_ok.mp h
      obtain ⟨_, hmove, _⟩ := bind_result_eq_ok.mp h
      refine ⟨(placed.source .result source).code ++ (move register .result).code, ?_⟩
      change (placed.source .result source >>= fun register =>
        move register .result >>= fun _ => placed.epilogue).code = _
      rw [code_bind_ok hsource, code_bind_ok hmove, List.append_assoc]

/-- A function returns at its end, so its code is not empty. -/
theorem Written.count_pos (h : placed.Written) : 0 < Item.count placed.code.code := by
  have hepilogue := placed.count_epilogue_pos
  cases hfalls : placed.function.fallsThrough with
  | true =>
      rw [h.code, hfalls, if_pos rfl, Item.count_append]
      omega
  | false =>
      obtain ⟨value, hlast⟩ : ∃ value, placed.function.code.getLast? = some (.ret value) := by
        unfold Function.fallsThrough at hfalls
        split at hfalls
        next value hlast => exact ⟨value, hlast⟩
        next => exact absurd hfalls (by simp)
      rw [List.getLast?_eq_getElem?] at hlast
      obtain ⟨before, hbefore⟩ := ret_code (h.inst_of_getElem? hlast)
      obtain ⟨rest, hcode⟩ := h.code_eq hlast
      rw [hcode, hbefore]
      simp only [Item.count_append]
      omega

end Placed

namespace AsmProgram

variable {program : Program} {allocator : Allocator} {asm : AsmProgram} {image : Image}

/-- A compiled program that could be laid out can be loaded, and its code is then in place. -/
theorem load_installed (hcompile : program.compile allocator = .ok asm)
    (hassemble : asm.assemble = .ok image) (host : Host) :
    ∃ executable position address, asm.load host = .ok executable ∧
      executable.base = host.imageBase ∧ executable.image.size = image.code.length ∧
      Installed program allocator executable position address := by
  have hassembled := assembled_of_assemble hassemble
  have hcompiled := Program.compile_eq_ok hcompile
  have hroutine : ∀ function ∈ program.functions, ∃ routine ∈ asm.routines,
      Program.Compiles allocator asm.literals function routine :=
    fun function hfunction => mem_of_forall₂ hcompiled hfunction
  -- Each routine ends in a return at least, so that a run does not start past the end.
  have hentry : image.entry < image.code.length := by
    obtain ⟨routine, hmem, hle⟩ := hassembled.entry
    obtain ⟨function, _, hcompiles⟩ := mem_of_forall₂ (List.Forall₂.flip hcompiled) hmem
    obtain ⟨hresult, _, rfl⟩ := Program.Compiles.eq hcompiles
    have hpos := (Placed.written_of_result hresult).count_pos
    rw [Item.count_map_mapLiteral] at hle
    omega
  have hsize : max image.code.length 1 = image.code.length := by omega
  refine ⟨asm.link image ⟨image.code.length, image.code.toArray⟩ host.imageBase, asm.position,
    fun text => Int64.ofNat (host.imageBase +
      (image.place? (literalLabel (asm.literals.indexOf text))).getD 0), ?_, rfl, rfl, ?_⟩
  · unfold load
    rw [hassemble]
    dsimp only
    rw [CodeMemory.load_ofSize, hsize]
    dsimp only
    rw [if_pos]
    exact decide_eq_true hentry
  · refine ⟨?_, ?_, rfl, ?_, ?_⟩
    · intro function hfunction
      obtain ⟨_, _, hcompiles⟩ := hroutine function hfunction
      exact Placed.written_of_result (Program.Compiles.eq hcompiles).1
    · intro function hfunction
      obtain ⟨routine, hmem, hcompiles⟩ := hroutine function hfunction
      obtain ⟨_, _, rfl⟩ := Program.Compiles.eq hcompiles
      have hholds := holds_routines
        (asm.link image ⟨image.code.length, image.code.toArray⟩ host.imageBase) []
        (by rw [link]; rfl) (fun entry hentry => position_of_mem hassembled.names hentry) _ hmem
      rw [Executable.holds_map] at hholds
      refine (Executable.holds_congr fun code => ?_).mp hholds
      exact Instr.map_map_literal code _ _ _ _
    · intro function hfunction item hitem text htext
      obtain ⟨routine, _, hcompiles⟩ := hroutine function hfunction
      have hmem := (Program.Compiles.eq hcompiles).2.1 item hitem text htext
      obtain ⟨before, after, hplace, hcode⟩ :=
        hassembled.literals _ _ (LiteralPool.getElem?_indexOf hmem)
      refine ⟨before.length, ?_, ?_, fun index byte hbyte => ?_⟩
      · rw [hplace]
        rfl
      · change _ < image.code.length
        rw [hcode]
        simp only [List.length_append, List.length_cons]
        omega
      · refine CodeMemory.byte?_of_getElem? (Nat.le_refl _) ?_
        rw [hcode, List.append_assoc, List.getElem?_append_right (Nat.le_add_right _ _),
          Nat.add_sub_cancel_left, List.getElem?_append_left, hbyte]
        exact (List.getElem?_eq_some_iff.mp hbyte).1
    · change (List.toArray _).size ≤ image.code.length
      rw [List.size_toArray, List.length_map]
      exact (Nat.le_of_eq (length_instructions asm)).trans hassembled.count

end AsmProgram

end ThreeAddress
