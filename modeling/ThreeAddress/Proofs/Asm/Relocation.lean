import ThreeAddress.Proofs.Asm.Layout
import ThreeAddress.Proofs.Text.Numerals

/-!
# Relocation

The bytes of an image are those of the instructions of its program in order, and
then of its literals. Each reference has become four bytes at the end of its instruction,
with the distance from there to the place it names: a label to where it was bound, a
routine to its first instruction, and a literal to its first byte.
-/

namespace ThreeAddress

/-- Whether an instruction refers to no other place. -/
def Instr.isPlain {Target Callee Literal : Type} : Instr Target Callee Literal → Bool
  | .jmp _ | .jcc _ _ | .call _ | .leaLiteral _ _ => false
  | _ => true

/-- The four bytes before an offset are a displacement, its low byte first, and from that offset it
leads to another one. -/
structure Image.Reaches (image : Image) (stop : Nat) (displacement : Int32) (offset : Nat) :
    Prop where
  field : ∃ before after,
    image.code = before ++ Bytes.ofNat 4 displacement.toUInt32.toNat ++ after ∧
      before.length + 4 = stop
  distance : stop + displacement.toInt = offset

namespace AsmProgram

open Layout (codeSize countRoutines literalBytes literalPlaces)

/-- The number of bytes of the first instructions. -/
def offsetAt (laid : List LaidOut) (count : Nat) : Nat :=
  ((laid.take count).flatMap LaidOut.encode).length

/-- The routine of a name starts at an offset, after the instructions of the routines before
it. -/
def StartsAt (program : AsmProgram) (laid : List LaidOut) (name : String) (offset : Nat) : Prop :=
  ∃ before routine after, program.routines = before ++ routine :: after ∧ routine.name = name ∧
    offset = offsetAt laid (countRoutines before)

/-- A label is bound among the items of a routine at an offset. -/
def LabelAt (program : AsmProgram) (laid : List LaidOut) (label : String) (offset : Nat) : Prop :=
  ∃ before routine after first rest, program.routines = before ++ routine :: after ∧
    routine.items = first ++ .label label :: rest ∧
    offset = offsetAt laid (countRoutines before + Item.count first)

/-- The bytes of the literal of a number start at an offset, after all instructions and the
literals before it. -/
def LiteralAt (program : AsmProgram) (laid : List LaidOut) (index offset : Nat) : Prop :=
  ∃ before text after, program.literals.texts = before ++ text :: after ∧ before.length = index ∧
    offset = offsetAt laid laid.length + (before.flatMap literalBytes).length

/-- A label is bound at an offset, by itself or for a routine or a literal. -/
inductive BoundAt (program : AsmProgram) (laid : List LaidOut) : String → Nat → Prop
  | routine {name : String} {offset : Nat} (hstart : program.StartsAt laid name offset) :
      BoundAt program laid (routineLabel name) offset
  | label {label : String} {offset : Nat} (hlabel : program.LabelAt laid label offset) :
      BoundAt program laid label offset
  | literal {index offset : Nat} (hliteral : program.LiteralAt laid index offset) :
      BoundAt program laid (literalLabel index) offset

/-- A laid out instruction that ends at `stop` is the instruction of the program, with
displacements in the bytes of the image that lead to what it refers to. -/
inductive Resolves (program : AsmProgram) (image : Image) (laid : List LaidOut) (stop : Nat) :
    Instr String String Nat → LaidOut → Prop
  | jmp {label : String} {displacement : Int32} {offset : Nat}
      (hbound : program.BoundAt laid label offset)
      (hreach : image.Reaches stop displacement offset) :
      Resolves program image laid stop (.jmp label) (.jmp displacement)
  | jcc {condition : Condition} {label : String} {displacement : Int32} {offset : Nat}
      (hbound : program.BoundAt laid label offset)
      (hreach : image.Reaches stop displacement offset) :
      Resolves program image laid stop (.jcc condition label) (.jcc condition displacement)
  | builtin {callee : String} {builtin : Builtin} (hname : Builtin.ofName? callee = some builtin) :
      Resolves program image laid stop (.call callee) (.call (.builtin builtin.address))
  | routine {callee : String} {displacement : Int32} {offset : Nat}
      (hname : Builtin.ofName? callee = none) (hstart : program.StartsAt laid callee offset)
      (hreach : image.Reaches stop displacement offset) :
      Resolves program image laid stop (.call callee) (.call (.routine displacement))
  | literal {index : Nat} {displacement : Int32} {dst : Register} {offset : Nat}
      (hliteral : program.LiteralAt laid index offset)
      (hreach : image.Reaches stop displacement offset) :
      Resolves program image laid stop (.leaLiteral index dst) (.leaLiteral displacement dst)
  /-- Without references there is nothing to replace. -/
  | plain {code : Instr String String Nat} (hplain : code.isPlain = true) :
      Resolves program image laid stop code
        (code.map (fun _ => 0) (fun _ => .builtin 0) fun _ => 0)

/-- An image is made of laid out instructions, one for each of the program. -/
structure Relocated (program : AsmProgram) (image : Image) (laid : List LaidOut) : Prop where
  code : image.code = laid.flatMap LaidOut.encode ++
    program.literals.texts.flatMap fun text => Text.encode text ++ [0]
  entry : program.StartsAt laid "main" image.entry
  count : laid.length = program.instructions.length
  resolves : ∀ index code, program.instructions[index]? = some code →
    (∀ number ∈ (Item.instr code).literal?, number < program.literals.size) →
    ∃ line, laid[index]? = some line ∧
      program.Resolves image laid (offsetAt laid (index + 1)) code line
  /-- A number that no literal has can only be referred to where a routine has a label of the same
  text, and leads there. -/
  strays : ∀ index number dst, program.instructions[index]? = some (.leaLiteral number dst) →
    program.literals.size ≤ number →
    ∃ displacement offset, laid[index]? = some (.leaLiteral displacement dst) ∧
      program.LabelAt laid (literalLabel number) offset ∧
      image.Reaches (offsetAt laid (index + 1)) displacement offset
  /-- Nothing is bound twice. -/
  unique : ∀ label first second, program.BoundAt laid label first →
    program.BoundAt laid label second → first = second

/-! ## Laying out instructions -/

/-- Instructions that start at `offset`, laid out one after the other. -/
def layOutFrom (place : String → Nat) : Nat → List Labelled → List LaidOut
  | _, [] => []
  | offset, code :: rest =>
      Labelled.layOut place (offset + (Fragment.instr code).size) code ::
        layOutFrom place (offset + (Fragment.instr code).size) rest

variable {place : String → Nat} {offset : Nat} {codes : List Labelled}

theorem encodeFrom_instr :
    Layout.encodeFrom place offset (codes.map .instr) =
      (layOutFrom place offset codes).flatMap LaidOut.encode := by
  induction codes generalizing offset with
  | nil => rfl
  | cons code rest ih =>
      rw [List.map_cons, Layout.encodeFrom, ih, layOutFrom, List.flatMap_cons]
      rfl

@[simp] theorem length_layOutFrom : (layOutFrom place offset codes).length = codes.length := by
  induction codes generalizing offset with
  | nil => rfl
  | cons code rest ih => simp [layOutFrom, ih]

theorem take_layOutFrom (count : Nat) :
    (layOutFrom place offset codes).take count = layOutFrom place offset (codes.take count) := by
  induction codes generalizing offset count with
  | nil => simp [layOutFrom]
  | cons code rest ih =>
      cases count with
      | zero => rfl
      | succ count => simp [layOutFrom, ih]

theorem offsetAt_layOutFrom (count : Nat) :
    offsetAt (layOutFrom place offset codes) count = codeSize (codes.take count) := by
  rw [offsetAt, take_layOutFrom, ← encodeFrom_instr, Layout.length_encodeFrom]
  rfl

theorem getElem?_layOutFrom {index : Nat} {code : Labelled} (h : codes[index]? = some code) :
    (layOutFrom place offset codes)[index]? =
      some (code.layOut place (offset + codeSize (codes.take (index + 1)))) := by
  induction codes generalizing offset index with
  | nil => simp at h
  | cons first rest ih =>
      cases index with
      | zero =>
          obtain rfl : first = code := by simpa using h
          simp [layOutFrom]
      | succ index =>
          rw [layOutFrom, List.getElem?_cons_succ, ih (by simpa using h)]
          simp [Nat.add_assoc]

/-! ## What is bound -/

theorem mem_positionsOf {start position : Nat} {items : List (Item Nat)} {label : String} :
    (label, position) ∈ (positionsOf start items).1 ↔
      ∃ first item rest, items = first ++ item :: rest ∧ item = .label label ∧
        position = start + Item.count first := by
  induction items generalizing start with
  | nil => simp [positionsOf]
  | cons item rest ih =>
      rw [exists_split_cons]
      cases item with
      | label name => simp [positionsOf, ih, Item.count, eq_comm]
      | instr code => simp [positionsOf, ih, Item.count, Nat.add_assoc, Nat.add_comm 1]

theorem mem_positionsFrom {start position : Nat} {routines : List Routine} {label : String} :
    (label, position) ∈ positionsFrom start routines ↔
      ∃ before routine after, routines = before ++ routine :: after ∧
        (label = routineLabel routine.name ∧ position = start + countRoutines before ∨
          (label, position) ∈ (positionsOf (start + countRoutines before) routine.items).1) := by
  induction routines generalizing start with
  | nil => simp [positionsFrom]
  | cons routine rest ih =>
      rw [exists_split_cons]
      simp [positionsFrom, ih, countRoutines, positionsOf_snd, Nat.add_assoc, or_assoc]

/-- What is bound is bound at a position of the code, or for a literal. -/
theorem boundAt_iff_position {program : AsmProgram} {laid : List LaidOut} {label : String}
    {offset : Nat} :
    program.BoundAt laid label offset ↔
      (∃ position, (label, position) ∈ positionsFrom 0 program.routines ∧
        offset = offsetAt laid position) ∨
      ∃ index, label = literalLabel index ∧ program.LiteralAt laid index offset := by
  constructor
  · intro hbound
    cases hbound with
    | routine hstart =>
        obtain ⟨before, routine, after, hroutines, rfl, rfl⟩ := hstart
        exact .inl ⟨countRoutines before, mem_positionsFrom.mpr
          ⟨before, routine, after, hroutines, .inl ⟨rfl, (Nat.zero_add _).symm⟩⟩, rfl⟩
    | label hlabel =>
        obtain ⟨before, routine, after, first, rest, hroutines, hitems, rfl⟩ := hlabel
        refine .inl ⟨countRoutines before + Item.count first, mem_positionsFrom.mpr
          ⟨before, routine, after, hroutines, .inr ?_⟩, rfl⟩
        rw [Nat.zero_add]
        exact mem_positionsOf.mpr ⟨first, _, rest, hitems, rfl, rfl⟩
    | literal hliteral => exact .inr ⟨_, rfl, hliteral⟩
  · rintro (⟨position, hentry, rfl⟩ | ⟨index, rfl, hliteral⟩)
    · obtain ⟨before, routine, after, hroutines, ⟨rfl, rfl⟩ | hitem⟩ :=
        mem_positionsFrom.mp hentry
      · exact .routine ⟨before, routine, after, hroutines, rfl, by rw [Nat.zero_add]⟩
      · obtain ⟨first, _, rest, hitems, rfl, rfl⟩ := mem_positionsOf.mp hitem
        exact .label ⟨before, routine, after, first, rest, hroutines, hitems,
          by rw [Nat.zero_add]⟩
    · exact .literal hliteral

/-- Labels are in front of instructions, or after the last one. -/
theorem position_le_of_mem {program : AsmProgram} {label : String} {position : Nat}
    (h : (label, position) ∈ positionsFrom 0 program.routines) :
    position ≤ program.instructions.length := by
  obtain ⟨before, routine, after, hroutines, hplace⟩ := mem_positionsFrom.mp h
  have hcount : countRoutines program.routines =
      countRoutines before + (Item.count routine.items + countRoutines after) := by
    rw [hroutines, countRoutines_append]
    rfl
  rw [length_instructions, hcount]
  rcases hplace with ⟨_, rfl⟩ | hitem
  · omega
  · obtain ⟨first, _, rest, hitems, _, rfl⟩ := mem_positionsOf.mp hitem
    rw [hitems, Item.count_append]
    omega

namespace LaidOutAs

variable {program : AsmProgram} {image : Image} {place : String → Nat}

/-- What is bound is the table of labels. -/
theorem boundAt_iff (h : program.LaidOutAs image codes) {label : String} {offset : Nat} :
    program.BoundAt (layOutFrom place 0 codes) label offset ↔ (label, offset) ∈ image.labels := by
  rw [boundAt_iff_position, h.labels, List.mem_append, Layout.mem_literalPlaces, List.mem_map]
  simp only [offsetAt_layOutFrom]
  refine or_congr ⟨?_, ?_⟩ ⟨?_, ?_⟩
  · rintro ⟨position, hentry, rfl⟩
    exact ⟨(label, position), hentry, rfl⟩
  · rintro ⟨⟨_, position⟩, hentry, heq⟩
    obtain ⟨rfl, rfl⟩ := Prod.mk.inj heq
    exact ⟨position, hentry, rfl⟩
  · rintro ⟨_, rfl, before, text, after, htexts, rfl, rfl⟩
    refine ⟨before, text, after, htexts, by rw [Nat.zero_add], ?_⟩
    rw [offsetAt_layOutFrom, length_layOutFrom, List.take_length]
  · rintro ⟨before, text, after, htexts, rfl, rfl⟩
    refine ⟨before.length, by rw [Nat.zero_add], before, text, after, htexts, rfl, ?_⟩
    rw [offsetAt_layOutFrom, length_layOutFrom, List.take_length]

theorem codeSize_take_le (h : program.LaidOutAs image codes) (count : Nat) :
    codeSize (codes.take count) ≤ image.code.length := by
  have hsplit := congrArg codeSize (List.take_append_drop count codes)
  rw [Layout.codeSize_append] at hsplit
  rw [h.length_code]
  omega

/-- Every label is bound inside the image. -/
theorem le_of_mem_labels (h : program.LaidOutAs image codes) {label : String} {offset : Nat}
    (hmem : (label, offset) ∈ image.labels) : offset ≤ image.code.length := by
  rw [h.labels, List.mem_append, Layout.mem_literalPlaces, List.mem_map] at hmem
  rcases hmem with ⟨entry, _, heq⟩ | ⟨before, text, after, htexts, _, rfl⟩
  · rw [← (Prod.mk.inj heq).2]
    exact h.codeSize_take_le _
  · rw [h.length_code, htexts, List.flatMap_append, List.length_append]
    omega

theorem codeSize_take_succ {index : Nat} {code : Labelled} (hcode : codes[index]? = some code) :
    codeSize (codes.take (index + 1)) =
      codeSize (codes.take index) + (Fragment.instr code).size := by
  obtain ⟨hindex, rfl⟩ := List.getElem?_eq_some_iff.mp hcode
  rw [List.take_succ_eq_append_getElem hindex, Layout.codeSize_append]
  rfl

/-- The bytes of an instruction stand where it has been laid out. -/
theorem exists_encoded (h : program.LaidOutAs image codes) {index : Nat} {code : Labelled}
    (hcode : codes[index]? = some code) :
    ∃ before after, image.code = before ++ (Fragment.instr code).encode
        (fun label => (image.place? label).getD 0) (codeSize (codes.take (index + 1))) ++ after ∧
      before.length = codeSize (codes.take index) := by
  have hstop := codeSize_take_succ hcode
  obtain ⟨hindex, rfl⟩ := List.getElem?_eq_some_iff.mp hcode
  have hsplit : codes = codes.take index ++ codes[index] :: codes.drop (index + 1) := by
    rw [List.getElem_cons_drop, List.take_append_drop]
  refine ⟨Layout.encodeFrom (fun label => (image.place? label).getD 0) 0
      ((codes.take index).map .instr),
    Layout.encodeFrom (fun label => (image.place? label).getD 0) (codeSize (codes.take (index + 1)))
      ((codes.drop (index + 1)).map .instr) ++ program.literals.texts.flatMap literalBytes,
    ?_, Layout.length_encodeFrom _ _ _⟩
  have hbytes := h.code
  rw [congrArg (List.map Fragment.instr) hsplit, List.map_append, List.map_cons,
    Layout.encodeFrom_append, Layout.encodeFrom, Nat.zero_add] at hbytes
  rw [hbytes, hstop]
  simp only [List.append_assoc, codeSize]

/-- A reference stands in the last four bytes of its instruction. -/
theorem exists_field (h : program.LaidOutAs image codes) {index : Nat} {code : Labelled}
    (hcode : codes[index]? = some code) {label : String}
    (hlabel : label ∈ (Fragment.instr code).references) :
    ∃ before after, image.code = before ++ Encoding.bytes32 (Int32.ofInt
        (((image.place? label).getD 0 : Nat) - codeSize (codes.take (index + 1)))) ++ after ∧
      before.length + 4 = codeSize (codes.take (index + 1)) := by
  obtain ⟨before, after, hbytes, hbefore⟩ := h.exists_encoded hcode
  have hstop := codeSize_take_succ hcode
  cases (Fragment.instr code).refers with
  | nothing hreferences => simp [hreferences] at hlabel
  | last found opcode hreferences hsize _ hencode =>
      obtain rfl : label = found := by simpa [hreferences] using hlabel
      refine ⟨before ++ opcode, after, ?_, ?_⟩
      · rw [hbytes, hencode]
        simp only [List.append_assoc]
      · rw [List.length_append, hbefore, hstop, hsize, Nat.add_assoc]

/-- A label that is referred to is bound, and the displacement leads there. -/
theorem exists_reach (h : program.LaidOutAs image codes) (hsize : image.code.length < 2147483648)
    {index : Nat} {code : Labelled} (hcode : codes[index]? = some code) {label : String}
    (hlabel : label ∈ (Fragment.instr code).references) :
    ∃ offset, program.BoundAt (layOutFrom place 0 codes) label offset ∧
      image.Reaches (codeSize (codes.take (index + 1))) (Int32.ofInt
        (((image.place? label).getD 0 : Nat) - codeSize (codes.take (index + 1)))) offset := by
  have hbound := h.bound label (List.mem_flatMap.mpr
    ⟨_, List.mem_map_of_mem (List.mem_of_getElem? hcode), hlabel⟩)
  obtain ⟨⟨key, offset⟩, hmem, heq⟩ := List.mem_map.mp hbound
  obtain rfl : label = key := heq.symm
  refine ⟨offset, h.boundAt_iff.mpr hmem, h.exists_field hcode hlabel, ?_⟩
  have hoffset := h.le_of_mem_labels hmem
  have hstop := h.codeSize_take_le (index + 1)
  rw [h.place?_of_mem hmem, Option.getD_some, Int32.toInt_ofInt_of_le] <;> omega

/-- Nothing is bound twice. -/
theorem boundAt_unique (h : program.LaidOutAs image codes) {label : String} {first second : Nat}
    (hfirst : program.BoundAt (layOutFrom place 0 codes) label first)
    (hsecond : program.BoundAt (layOutFrom place 0 codes) label second) : first = second := by
  have hfind := find?_of_nodup h.nodup (h.boundAt_iff.mp hfirst)
  rw [find?_of_nodup h.nodup (h.boundAt_iff.mp hsecond)] at hfind
  exact (Prod.mk.inj (Option.some.inj hfind)).2.symm

/-- What is bound under the label of a routine that is there is its start. -/
theorem startsAt_of_boundAt (h : program.LaidOutAs image codes) {name : String} {offset : Nat}
    (hname : name ∈ program.routines.map (·.name))
    (hbound : program.BoundAt (layOutFrom place 0 codes) (routineLabel name) offset) :
    program.StartsAt (layOutFrom place 0 codes) name offset := by
  obtain ⟨routine, hroutine, rfl⟩ := List.mem_map.mp hname
  obtain ⟨before, after, hroutines⟩ := List.append_of_mem hroutine
  have hstart : program.StartsAt (layOutFrom place 0 codes) routine.name _ :=
    ⟨before, routine, after, hroutines, rfl, rfl⟩
  rw [h.boundAt_unique hbound (.routine hstart)]
  exact hstart

/-- What is bound under the label of a literal is its first byte. -/
theorem literalAt_of_boundAt (h : program.LaidOutAs image codes) {index offset : Nat}
    (hindex : index < program.literals.size)
    (hbound : program.BoundAt (layOutFrom place 0 codes) (literalLabel index) offset) :
    program.LiteralAt (layOutFrom place 0 codes) index offset := by
  have hlt : index < program.literals.texts.length := hindex
  have hliteral : program.LiteralAt (layOutFrom place 0 codes) index _ :=
    ⟨program.literals.texts.take index, program.literals.texts[index],
      program.literals.texts.drop (index + 1), by simp, by simp; omega, rfl⟩
  rw [h.boundAt_unique hbound (.literal hliteral)]
  exact hliteral

/-- What is bound under the label of a literal that is not there is a label of a routine. -/
theorem labelAt_of_boundAt {laid : List LaidOut} {index offset : Nat}
    (hindex : program.literals.size ≤ index)
    (hbound : program.BoundAt laid (literalLabel index) offset) :
    program.LabelAt laid (literalLabel index) offset := by
  generalize hlabel : literalLabel index = label at hbound ⊢
  cases hbound with
  | routine hstart =>
      have hhead := congrArg (fun label => label.toList.head?) hlabel
      simp [literalLabel, routineLabel] at hhead
  | label hlabelAt => exact hlabelAt
  | literal hliteral =>
      obtain rfl := toString_inj.mp ((String.append_right_inj "lit:").mp hlabel)
      obtain ⟨before, text, after, htexts, rfl, _⟩ := hliteral
      rw [LiteralPool.size, htexts, List.length_append, List.length_cons] at hindex
      omega

theorem resolves (h : program.LaidOutAs image codes) (hsize : image.code.length < 2147483648)
    {index : Nat} {code : Instr String String Nat} {labelled : Labelled}
    (hcode : codes[index]? = some labelled)
    (hlabelled : (Layout.mk [] [] 0 (program.routines.map (·.name))).labelled code =
      .ok labelled)
    (hliteral : ∀ number ∈ (Item.instr code).literal?, number < program.literals.size) :
    program.Resolves image (layOutFrom place 0 codes) (codeSize (codes.take (index + 1))) code
      (labelled.layOut (fun label => (image.place? label).getD 0)
        (codeSize (codes.take (index + 1)))) := by
  cases code with
  | jmp label =>
      obtain rfl := Except.ok.inj hlabelled
      obtain ⟨offset, hbound, hreach⟩ := h.exists_reach hsize hcode (List.mem_singleton_self _)
      exact .jmp hbound hreach
  | jcc condition label =>
      obtain rfl := Except.ok.inj hlabelled
      obtain ⟨offset, hbound, hreach⟩ := h.exists_reach hsize hcode (List.mem_singleton_self _)
      exact .jcc hbound hreach
  | leaLiteral number dst =>
      obtain rfl := Except.ok.inj hlabelled
      obtain ⟨offset, hbound, hreach⟩ := h.exists_reach hsize hcode (List.mem_singleton_self _)
      exact .literal (h.literalAt_of_boundAt (hliteral number rfl) hbound) hreach
  | call callee =>
      simp only [Layout.labelled, Layout.callLabel] at hlabelled
      cases hname : Builtin.ofName? callee with
      | some builtin =>
          rw [hname] at hlabelled
          obtain rfl := Except.ok.inj hlabelled
          exact .builtin hname
      | none =>
          rw [hname] at hlabelled
          dsimp only at hlabelled
          split at hlabelled
          next hroutine =>
            obtain rfl := Except.ok.inj hlabelled
            obtain ⟨offset, hbound, hreach⟩ :=
              h.exists_reach hsize hcode (List.mem_singleton_self _)
            exact .routine hname (h.startsAt_of_boundAt hroutine hbound) hreach
          next => cases hlabelled
  | _ =>
      obtain rfl := Except.ok.inj hlabelled
      exact .plain rfl

/-- Each instruction has got labels for its references. -/
theorem exists_labelled (h : program.LaidOutAs image codes) {index : Nat}
    {code : Instr String String Nat} (hcode : program.instructions[index]? = some code) :
    ∃ labelled, codes[index]? = some labelled ∧
      (Layout.mk [] [] 0 (program.routines.map (·.name))).labelled code = .ok labelled := by
  obtain ⟨hindex, rfl⟩ := List.getElem?_eq_some_iff.mp hcode
  have hindex' : index < codes.length := h.instructions.length_eq ▸ hindex
  exact ⟨codes[index], List.getElem?_eq_getElem hindex',
    (List.forall₂_iff_get.mp h.instructions).2 index hindex hindex'⟩

theorem relocated (h : program.LaidOutAs image codes) (hsize : image.code.length < 2147483648) :
    program.Relocated image
      (layOutFrom (fun label => (image.place? label).getD 0) 0 codes) := by
  refine ⟨?_, ?_, ?_, ?_, ?_, ?_⟩
  · rw [h.code, encodeFrom_instr]
    rfl
  · obtain ⟨before, routine, after, hroutines, hname, hentry⟩ := h.entry
    exact ⟨before, routine, after, hroutines, hname, by rw [hentry, offsetAt_layOutFrom]⟩
  · rw [length_layOutFrom, h.instructions.length_eq]
  · intro index code hcode hliteral
    obtain ⟨labelled, hget, hlabelled⟩ := h.exists_labelled hcode
    refine ⟨_, getElem?_layOutFrom hget, ?_⟩
    rw [offsetAt_layOutFrom, Nat.zero_add]
    exact h.resolves hsize hget hlabelled hliteral
  · intro index number dst hcode hnumber
    obtain ⟨labelled, hget, hlabelled⟩ := h.exists_labelled hcode
    obtain rfl := Except.ok.inj hlabelled
    obtain ⟨offset, hbound, hreach⟩ := h.exists_reach hsize hget (List.mem_singleton_self _)
    refine ⟨_, offset, getElem?_layOutFrom hget, labelAt_of_boundAt hnumber hbound, ?_⟩
    rw [offsetAt_layOutFrom, Nat.zero_add]
    exact hreach
  · intro label first second hfirst hsecond
    exact h.boundAt_unique hfirst hsecond

end LaidOutAs

/-- An image is its program, relocated. -/
theorem relocated_of_assemble {program : AsmProgram} {image : Image}
    (h : program.assemble = .ok image) (hsize : image.code.length < 2147483648) :
    ∃ laid, program.Relocated image laid := by
  obtain ⟨codes, hlaid⟩ := laidOutAs_of_assemble h
  exact ⟨_, hlaid.relocated hsize⟩

/-- Refers forward and backward, to the routine itself and to data after all code. -/
def crossing : AsmProgram where
  routines := [
    ⟨"next", [.instr (.leaLiteral 1 .rdi), .instr (.call "printStr"), .instr (.call "next"),
      .instr .ret]⟩,
    ⟨"main", [.label "again", .instr (.call "next"), .instr (.jcc .e "done"),
      .instr (.jmp "again"), .label "done", .instr .ret]⟩]
  literals := LiteralPool.empty.internAll ["one", "two"]

theorem relocated_of_assemble_crossing :
    ∃ image laid, crossing.assemble = .ok image ∧ image.entry = 25 ∧
      crossing.Relocated image laid := by
  have hbuilt : (match crossing.assemble with
      | .ok image => decide (image.code.length < 2147483648 ∧ image.entry = 25)
      | .error _ => false) = true := by decide +kernel
  split at hbuilt
  next image hassemble =>
    obtain ⟨hsize, hentry⟩ := of_decide_eq_true hbuilt
    obtain ⟨laid, hlaid⟩ := relocated_of_assemble hassemble hsize
    exact ⟨image, laid, hassemble, hentry, hlaid⟩
  next => cases hbuilt

/-- Its code loads the literal 0, but it has no literals, and a label of the same text. -/
def straying : AsmProgram where
  routines := [⟨"main", [.label "lit:0", .instr (.leaLiteral 0 .rdi), .instr .ret]⟩]
  literals := .empty

/-- A program may be laid out though its code refers to a literal that it has not. -/
theorem straying_assembles :
    ∃ image, straying.assemble = .ok image ∧ image.code.length < 2147483648 ∧
      straying.instructions[0]? = some (.leaLiteral 0 .rdi) ∧
      ∀ laid offset, ¬ straying.LiteralAt laid 0 offset := by
  have hbuilt : (match straying.assemble with
      | .ok image => decide (image.code.length < 2147483648)
      | .error _ => false) = true := by decide +kernel
  split at hbuilt
  next image hassemble =>
    refine ⟨image, hassemble, of_decide_eq_true hbuilt, rfl, ?_⟩
    rintro laid offset ⟨before, text, after, htexts, _⟩
    exact List.append_ne_nil_of_right_ne_nil before (List.cons_ne_nil text after) htexts.symm
  next => cases hbuilt

end AsmProgram

end ThreeAddress
