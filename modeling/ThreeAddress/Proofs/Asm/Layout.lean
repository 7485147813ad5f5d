import Mathlib.Data.List.Forall2
import ThreeAddress.Proofs.Asm.Patching

/-!
# Places in an image

What a layout is given ends up in the image in order, each fragment with its own
number of bytes whatever its references turn out to be. No label is bound twice,
so each label is at the place where it was bound.
-/

namespace ThreeAddress

/-- The size of an encoded instruction does not depend on what it refers to. -/
theorem LaidOut.length_encode_map {Target Callee Literal : Type}
    (code : Instr Target Callee Literal) {target target' : Target → Int32}
    {callee callee' : Callee → CallField} {literal literal' : Literal → Int32}
    (hcallee : ∀ name, (LaidOut.encode (.call (callee name))).length =
      (LaidOut.encode (.call (callee' name))).length) :
    (LaidOut.encode (code.map target callee literal)).length =
      (LaidOut.encode (code.map target' callee' literal')).length := by
  cases code with
  | call name => exact hcallee name
  | alu op src dst => cases op <;> rfl
  | _ => rfl

namespace Fragment

theorem length_encode (place : String → Nat) (stop : Nat) (fragment : Fragment) :
    (fragment.encode place stop).length = fragment.size := by
  cases fragment with
  | data bytes => rfl
  | instr code =>
      apply LaidOut.length_encode_map code
      intro label
      cases label <;> rfl

theorem size_pos (code : Labelled) : 0 < (instr code).size := by
  cases code with
  | call label => cases label <;> exact Nat.succ_pos _
  | alu op src dst => cases op <;> exact Nat.succ_pos _
  | _ => exact Nat.succ_pos _

/-- The number of bytes of fragments. -/
def totalSize (fragments : List Fragment) : Nat :=
  fragments.foldr (fun fragment total => fragment.size + total) 0

@[simp] theorem totalSize_nil : totalSize [] = 0 := rfl

@[simp] theorem totalSize_cons (fragment : Fragment) (rest : List Fragment) :
    totalSize (fragment :: rest) = fragment.size + totalSize rest := rfl

@[simp] theorem totalSize_append (first second : List Fragment) :
    totalSize (first ++ second) = totalSize first + totalSize second := by
  induction first with
  | nil => simp
  | cons fragment rest ih => simp [ih, Nat.add_assoc]

end Fragment

open Fragment (totalSize)

/-- A place in a list is its beginning or a place in the rest. -/
theorem exists_split_cons {α : Type} {first : α} {rest : List α}
    {P : List α → α → List α → Prop} :
    (∃ before item after, first :: rest = before ++ item :: after ∧ P before item after) ↔
      P [] first rest ∨
        ∃ before item after, rest = before ++ item :: after ∧ P (first :: before) item after := by
  constructor
  · rintro ⟨before, item, after, hsplit, h⟩
    cases before with
    | nil =>
        obtain ⟨rfl, rfl⟩ := List.cons.inj hsplit
        exact .inl h
    | cons other before =>
        obtain ⟨rfl, rfl⟩ := List.cons.inj hsplit
        exact .inr ⟨before, item, after, rfl, h⟩
  · rintro (h | ⟨before, item, after, rfl, h⟩)
    · exact ⟨[], first, rest, rfl, h⟩
    · exact ⟨first :: before, item, after, rfl, h⟩

/-- The number of instructions among items. -/
def Item.count {Literal : Type} : List (Item Literal) → Nat
  | [] => 0
  | .label _ :: rest => count rest
  | .instr _ :: rest => count rest + 1

namespace Item

variable {Literal Literal' : Type}

@[simp] theorem count_append (first second : List (Item Literal)) :
    count (first ++ second) = count first + count second := by
  induction first with
  | nil => simp [count]
  | cons item rest ih => cases item <;> simp [count, ih, Nat.add_right_comm]

@[simp] theorem count_map_mapLiteral (literal : Literal → Literal') (items : List (Item Literal)) :
    count (items.map (·.mapLiteral literal)) = count items := by
  induction items with
  | nil => rfl
  | cons item rest ih =>
      rw [List.map_cons]
      cases item with
      | label => exact ih
      | instr => exact congrArg (· + 1) ih

end Item

namespace AsmProgram

/-- The instructions of items, without labels. -/
def instructionsOf (items : List (Item Nat)) : List (Instr String String Nat) :=
  items.filterMap fun
    | .label _ => none
    | .instr code => some code

theorem length_instructionsOf (items : List (Item Nat)) :
    (instructionsOf items).length = Item.count items := by
  induction items with
  | nil => rfl
  | cons item rest ih =>
      cases item with
      | label => exact ih
      | instr => exact congrArg (· + 1) ih

theorem positionsOf_snd (start : Nat) (items : List (Item Nat)) :
    (positionsOf start items).2 = start + Item.count items := by
  induction items generalizing start with
  | nil => rfl
  | cons item rest ih =>
      cases item with
      | label => exact ih start
      | instr =>
          apply (ih (start + 1)).trans
          rw [Item.count]
          omega

end AsmProgram

/-- An instruction that ends at `stop`, with its references as displacements. -/
def Labelled.layOut (place : String → Nat) (stop : Nat) (code : Labelled) : LaidOut :=
  let displacement (label : String) := Int32.ofInt ((place label : Int) - stop)
  code.map displacement
    (fun
      | .builtin builtin => .builtin builtin.address
      | .routine label => .routine (displacement label))
    displacement

namespace Layout

/-- The number of instructions of routines. -/
def countRoutines (routines : List Routine) : Nat :=
  routines.foldr (fun routine total => Item.count routine.items + total) 0

/-- The number of bytes of instructions. -/
def codeSize (codes : List Labelled) : Nat :=
  totalSize (codes.map .instr)

@[simp] theorem codeSize_nil : codeSize [] = 0 := rfl

@[simp] theorem codeSize_cons (code : Labelled) (rest : List Labelled) :
    codeSize (code :: rest) = (Fragment.instr code).size + codeSize rest := rfl

@[simp] theorem codeSize_append (first second : List Labelled) :
    codeSize (first ++ second) = codeSize first + codeSize second := by
  simp [codeSize]

/-- Each instruction has one byte at least. -/
theorem length_le_codeSize (codes : List Labelled) : codes.length ≤ codeSize codes := by
  induction codes with
  | nil => exact Nat.le_refl 0
  | cons code rest ih =>
      have hpos := Fragment.size_pos code
      rw [List.length_cons, codeSize_cons]
      omega

theorem encodeFrom_append (place : String → Nat) (offset : Nat) (first second : List Fragment) :
    encodeFrom place offset (first ++ second) =
      encodeFrom place offset first ++ encodeFrom place (offset + totalSize first) second := by
  induction first generalizing offset with
  | nil => simp [encodeFrom]
  | cons fragment rest ih => simp [encodeFrom, ih, Nat.add_assoc]

theorem length_encodeFrom (place : String → Nat) (offset : Nat) (fragments : List Fragment) :
    (encodeFrom place offset fragments).length = totalSize fragments := by
  induction fragments generalizing offset with
  | nil => rfl
  | cons fragment rest ih => simp [encodeFrom, ih, Fragment.length_encode]

theorem encodeFrom_data (place : String → Nat) (offset : Nat) (texts : List (List UInt8)) :
    encodeFrom place offset (texts.map .data) = texts.flatten := by
  induction texts generalizing offset with
  | nil => rfl
  | cons bytes rest ih => rw [List.map_cons, encodeFrom, ih, List.flatten_cons]; rfl

theorem finish_eq_ok {layout : Layout} {code : List UInt8} (h : layout.finish = .ok code) :
    layout.WellLabelled ∧
      code = encodeFrom (fun label => (layout.place? label).getD 0) 0 layout.fragments := by
  unfold finish at h
  split at h
  next hwell => exact ⟨hwell, (Except.ok.inj h).symm⟩
  next => cases h

/-- The labels of references only depend on which routines may be called. -/
theorem labelled_congr {layout next : Layout} (h : layout.routines = next.routines) :
    layout.labelled = next.labelled := by
  funext code
  cases code with
  | call callee => simp only [labelled, callLabel, h]
  | _ => rfl

/-- A layout has been given instructions, and labels in front of those at some positions. -/
structure Wrote (layout : Layout) (codes : List Labelled) (positions : List (String × Nat)) :
    Prop where
  fragments : layout.fragments = codes.map .instr
  labels : layout.labels = positions.map fun entry => (entry.1, codeSize (codes.take entry.2))
  within : ∀ entry ∈ positions, entry.2 ≤ codes.length
  offset : layout.offset = codeSize codes

namespace Wrote

variable {layout next : Layout} {codes : List Labelled} {positions : List (String × Nat)}

theorem bind (h : layout.Wrote codes positions) (label : String) :
    (layout.bind label).Wrote codes (positions ++ [(label, codes.length)]) where
  fragments := h.fragments
  labels := by simp [Layout.bind, h.labels, h.offset]
  within := by
    intro entry hentry
    rcases List.mem_append.mp hentry with hentry | hentry
    · exact h.within entry hentry
    · obtain rfl := List.mem_singleton.mp hentry
      exact Nat.le_refl _
  offset := h.offset

theorem add (h : layout.Wrote codes positions) (code : Labelled) :
    (layout.add (.instr code)).Wrote (codes ++ [code]) positions where
  fragments := by simp [Layout.add, h.fragments]
  labels := by
    refine h.labels.trans (List.map_congr_left fun entry hentry => ?_)
    rw [List.take_append_of_le_length (h.within entry hentry)]
  within := by
    intro entry hentry
    exact Nat.le_trans (h.within entry hentry) (by simp)
  offset := by simp [Layout.add, h.offset]

/-- Items add their instructions in order, each with labels for its references. -/
theorem emitAll {items : List (Item Nat)} (h : layout.Wrote codes positions)
    (hemit : layout.emitAll items = .ok next) :
    ∃ more, next.Wrote (codes ++ more)
        (positions ++ (AsmProgram.positionsOf codes.length items).1) ∧
      List.Forall₂ (fun code labelled => layout.labelled code = .ok labelled)
        (AsmProgram.instructionsOf items) more ∧
      next.routines = layout.routines := by
  induction items generalizing layout codes positions with
  | nil =>
      obtain rfl := Except.ok.inj hemit
      exact ⟨[], by simpa [AsmProgram.positionsOf] using h, .nil, rfl⟩
  | cons item rest ih =>
      unfold Layout.emitAll at hemit
      split at hemit
      next => cases hemit
      next middle hmiddle =>
        cases item with
        | label name =>
            obtain rfl := Except.ok.inj hmiddle
            obtain ⟨more, hwrote, hcodes, hroutines⟩ := ih (h.bind name) hemit
            refine ⟨more, ?_, hcodes, hroutines⟩
            simpa [AsmProgram.positionsOf] using hwrote
        | instr code =>
            simp only [emit] at hmiddle
            cases hlabelled : layout.labelled code with
            | error => simp [hlabelled, Except.map] at hmiddle
            | ok labelled =>
                rw [hlabelled] at hmiddle
                obtain rfl := Except.ok.inj hmiddle
                obtain ⟨more, hwrote, hcodes, hroutines⟩ := ih (h.add labelled) hemit
                refine ⟨labelled :: more, ?_, .cons hlabelled hcodes, hroutines⟩
                simpa [AsmProgram.positionsOf] using hwrote

/-- Routines are written one after the other. The run starts in front of one of the name
`main`. -/
theorem addRoutines {routines : List Routine} {entry final : Option Nat}
    (h : layout.Wrote codes positions)
    (hadd : layout.addRoutines entry routines = .ok (next, final)) :
    ∃ more, next.Wrote (codes ++ more)
        (positions ++ AsmProgram.positionsFrom codes.length routines) ∧
      List.Forall₂ (fun code labelled => layout.labelled code = .ok labelled)
        (routines.flatMap fun routine => AsmProgram.instructionsOf routine.items) more ∧
      (final = entry ∨ ∃ before routine after, routines = before ++ routine :: after ∧
        routine.name = "main" ∧
        final = some (codeSize ((codes ++ more).take
          (codes.length + countRoutines before)))) := by
  induction routines generalizing layout codes positions entry with
  | nil =>
      obtain ⟨rfl, rfl⟩ := Prod.mk.inj (Except.ok.inj hadd)
      exact ⟨[], by simpa [AsmProgram.positionsFrom] using h, .nil, .inl rfl⟩
  | cons routine rest ih =>
      unfold Layout.addRoutines at hadd
      split at hadd
      next => cases hadd
      next middle hmiddle =>
        obtain ⟨first, hfirst, hfirstCodes, hroutines⟩ :=
          (h.bind (routineLabel routine.name)).emitAll hmiddle
        obtain ⟨second, hsecond, hsecondCodes, hentry⟩ := ih hfirst hadd
        have hlength : first.length = Item.count routine.items := by
          rw [← hfirstCodes.length_eq, AsmProgram.length_instructionsOf]
        rw [labelled_congr hroutines] at hsecondCodes
        refine ⟨first ++ second, ?_, ?_, ?_⟩
        · simpa [AsmProgram.positionsFrom, AsmProgram.positionsOf_snd, hlength] using hsecond
        · rw [List.flatMap_cons]
          exact List.rel_append hfirstCodes hsecondCodes
        · rcases hentry with heq | ⟨before, found, after, rfl, hname, hfinal⟩
          · split at heq
            next hmain =>
              refine .inr ⟨[], routine, rest, rfl, hmain, ?_⟩
              rw [heq, h.offset]
              simp [countRoutines]
            next => exact .inl heq
          · refine .inr ⟨routine :: before, found, after, rfl, hname, ?_⟩
            rw [hfinal]
            simp [countRoutines, hlength, Nat.add_assoc]

end Wrote

/-- The bytes of a literal. -/
def literalBytes (text : String) : List UInt8 :=
  Text.encode text ++ [0]

/-- The labels of literals, numbered from `index`, whose bytes start at `offset`. -/
def literalPlaces : Nat → Nat → List String → List (String × Nat)
  | _, _, [] => []
  | offset, index, text :: rest =>
      (literalLabel index, offset) ::
        literalPlaces (offset + (literalBytes text).length) (index + 1) rest

theorem mem_literalPlaces {offset index : Nat} {texts : List String} {label : String}
    {place : Nat} :
    (label, place) ∈ literalPlaces offset index texts ↔
      ∃ before text after, texts = before ++ text :: after ∧
        label = literalLabel (index + before.length) ∧
        place = offset + (before.flatMap literalBytes).length := by
  induction texts generalizing offset index with
  | nil => simp [literalPlaces]
  | cons first rest ih =>
      rw [literalPlaces, List.mem_cons, ih, Prod.mk.injEq, exists_split_cons]
      simp only [List.length_cons, List.flatMap_cons, List.length_append, List.length_nil,
        List.flatMap_nil, Nat.add_zero, Nat.add_assoc, Nat.add_comm 1]

/-- Literals add their bytes in order, each under its label. -/
theorem addLiterals_eq (layout : Layout) (index : Nat) (texts : List String) :
    (layout.addLiterals index texts).fragments =
        layout.fragments ++ (texts.map literalBytes).map .data ∧
      (layout.addLiterals index texts).labels =
        layout.labels ++ literalPlaces layout.offset index texts := by
  induction texts generalizing layout index with
  | nil => simp [addLiterals, literalPlaces]
  | cons text rest ih =>
      obtain ⟨hfragments, hlabels⟩ :=
        ih (layout.data (literalLabel index) (Text.encode text)) (index + 1)
      rw [addLiterals, hfragments, hlabels]
      constructor
      · simp [data, add, bind, literalBytes]
      · simp [data, add, bind, literalPlaces, literalBytes, Fragment.size]

end Layout

/-- In a list without repeated keys the entry of a key is the one that is found. -/
theorem find?_of_nodup {entries : List (String × Nat)} {key : String} {value : Nat}
    (hnodup : (entries.map (·.1)).Nodup) (hmem : (key, value) ∈ entries) :
    entries.find? (·.1 = key) = some (key, value) := by
  induction entries with
  | nil => simp at hmem
  | cons entry rest ih =>
      obtain ⟨hentry, hrest⟩ := List.nodup_cons.mp hnodup
      rcases List.mem_cons.mp hmem with rfl | hmem
      · simp
      · have hne : entry.1 ≠ key := fun heq =>
          hentry (List.mem_map.mpr ⟨_, hmem, heq.symm⟩)
        rw [List.find?_cons_of_neg (by simpa using hne), ih hrest hmem]

namespace AsmProgram

open Layout (codeSize countRoutines literalBytes literalPlaces)

variable {program : AsmProgram} {image : Image}

theorem length_flatMap_instructionsOf (routines : List Routine) :
    (routines.flatMap fun routine => instructionsOf routine.items).length =
      countRoutines routines := by
  induction routines with
  | nil => rfl
  | cons routine rest ih =>
      rw [List.flatMap_cons, List.length_append, length_instructionsOf, ih]
      rfl

theorem length_instructions (program : AsmProgram) :
    program.instructions.length = countRoutines program.routines :=
  length_flatMap_instructionsOf program.routines

/-- How a program became an image: its instructions have got labels for their references, and the
labels have got places. -/
structure LaidOutAs (program : AsmProgram) (image : Image) (codes : List Labelled) : Prop where
  instructions : List.Forall₂ (fun code labelled =>
      (Layout.mk [] [] 0 (program.routines.map (·.name))).labelled code = .ok labelled)
    program.instructions codes
  labels : image.labels =
    ((positionsFrom 0 program.routines).map fun entry =>
      (entry.1, codeSize (codes.take entry.2))) ++
      literalPlaces (codeSize codes) 0 program.literals.texts
  /-- No routine, label or literal has the name of another one. -/
  nodup : (image.labels.map (·.1)).Nodup
  bound : ∀ label ∈ (codes.map Fragment.instr).flatMap Fragment.references,
    label ∈ image.labels.map (·.1)
  code : image.code =
    Layout.encodeFrom (fun label => (image.place? label).getD 0) 0 (codes.map .instr) ++
      program.literals.texts.flatMap literalBytes
  entry : ∃ before routine after, program.routines = before ++ routine :: after ∧
    routine.name = "main" ∧ image.entry = codeSize (codes.take (countRoutines before))

/-- Routines are known before any of them is written. -/
theorem foldl_declare (routines : List Routine) (layout : Layout) :
    routines.foldl (fun layout routine => layout.declare routine.name) layout =
      { layout with routines := layout.routines ++ routines.map (·.name) } := by
  induction routines generalizing layout with
  | nil => simp
  | cons routine rest ih =>
      rw [List.foldl_cons, ih]
      simp [Layout.declare]

theorem laidOutAs_of_assemble (h : program.assemble = .ok image) :
    ∃ codes, program.LaidOutAs image codes := by
  rw [assemble_eq] at h
  unfold layOut at h
  simp only [foldl_declare] at h
  split at h
  next => cases h
  next => cases h
  next layout entry hroutines =>
    split at h
    next => cases h
    next code hfinish =>
      obtain rfl := Except.ok.inj h
      have hempty : (Layout.mk [] [] 0 (program.routines.map (·.name))).Wrote [] [] :=
        ⟨rfl, rfl, by simp, rfl⟩
      obtain ⟨codes, hwrote, hcodes, hentry⟩ := hempty.addRoutines hroutines
      obtain ⟨hfragments, hlabels⟩ := layout.addLiterals_eq 0 program.literals.texts
      obtain ⟨⟨hnodup, hbound⟩, rfl⟩ := Layout.finish_eq_ok hfinish
      rw [List.nil_append] at hwrote
      rw [hwrote.fragments] at hfragments
      refine ⟨codes, hcodes, ?_, hnodup, ?_, ?_, ?_⟩
      · rw [hlabels, hwrote.labels, hwrote.offset]
        rfl
      · intro label hlabel
        apply hbound
        rw [hfragments, List.flatMap_append]
        exact List.mem_append_left _ hlabel
      · rw [hfragments, Layout.encodeFrom_append, Layout.encodeFrom_data, List.flatMap_def]
        rfl
      · rcases hentry with heq | ⟨before, routine, after, hsplit, hname, hfinal⟩
        · cases heq
        · refine ⟨before, routine, after, hsplit, hname, ?_⟩
          simpa using hfinal

/-- What is known of an image that could be laid out. -/
structure Assembled (program : AsmProgram) (image : Image) : Prop where
  /-- No routine and no label has the name of another one. -/
  names : ((positionsFrom 0 program.routines).map (·.1)).Nodup
  count : countRoutines program.routines ≤ image.code.length
  entry : ∃ routine ∈ program.routines,
    image.entry + Item.count routine.items ≤ image.code.length
  literals : ∀ index text, program.literals.texts[index]? = some text →
    ∃ before after, image.place? (literalLabel index) = some before.length ∧
      image.code = before ++ (Text.encode text ++ [0]) ++ after

theorem countRoutines_append (first second : List Routine) :
    countRoutines (first ++ second) = countRoutines first + countRoutines second := by
  simp only [← length_flatMap_instructionsOf, List.flatMap_append, List.length_append]

namespace LaidOutAs

variable {codes : List Labelled}

theorem length_codes (h : program.LaidOutAs image codes) :
    codes.length = countRoutines program.routines := by
  rw [← h.instructions.length_eq, length_instructions]

theorem length_code (h : program.LaidOutAs image codes) :
    image.code.length =
      codeSize codes + (program.literals.texts.flatMap literalBytes).length := by
  rw [h.code, List.length_append, Layout.length_encodeFrom]
  rfl

/-- A label is found where it was bound. -/
theorem place?_of_mem (h : program.LaidOutAs image codes) {label : String} {offset : Nat}
    (hmem : (label, offset) ∈ image.labels) : image.place? label = some offset := by
  rw [Image.place?, find?_of_nodup h.nodup hmem]
  rfl

/-- A literal is found at its bytes. -/
theorem place?_literal (h : program.LaidOutAs image codes) {before after : List String}
    {text : String} (htexts : program.literals.texts = before ++ text :: after) :
    image.place? (literalLabel before.length) =
      some (codeSize codes + (before.flatMap literalBytes).length) := by
  apply h.place?_of_mem
  rw [h.labels]
  exact List.mem_append_right _ (Layout.mem_literalPlaces.mpr
    ⟨before, text, after, htexts, by rw [Nat.zero_add], rfl⟩)

end LaidOutAs

theorem assembled_of_assemble (h : program.assemble = .ok image) : program.Assembled image := by
  obtain ⟨codes, hlaid⟩ := laidOutAs_of_assemble h
  have hcount := hlaid.length_codes
  have hcodes := Layout.length_le_codeSize codes
  have hlength := hlaid.length_code
  refine ⟨?_, by omega, ?_, ?_⟩
  · have hnodup := hlaid.nodup
    rw [hlaid.labels, List.map_append, List.nodup_append, List.map_map] at hnodup
    exact hnodup.1
  · obtain ⟨before, routine, after, hroutines, _, hentry⟩ := hlaid.entry
    refine ⟨routine, by simp [hroutines], ?_⟩
    have hsplit := congrArg codeSize (List.take_append_drop (countRoutines before) codes)
    have hrest := Layout.length_le_codeSize (codes.drop (countRoutines before))
    have hroutine : countRoutines (routine :: after) =
        Item.count routine.items + countRoutines after := rfl
    rw [hroutines, countRoutines_append, hroutine] at hcount
    rw [Layout.codeSize_append] at hsplit
    rw [List.length_drop] at hrest
    omega
  · intro index text htext
    obtain ⟨before, after, htexts, rfl⟩ : ∃ before after,
        program.literals.texts = before ++ text :: after ∧ before.length = index := by
      obtain ⟨hlt, rfl⟩ := List.getElem?_eq_some_iff.mp htext
      refine ⟨program.literals.texts.take index, program.literals.texts.drop (index + 1), ?_,
        List.length_take_of_le (Nat.le_of_lt hlt)⟩
      rw [List.getElem_cons_drop, List.take_append_drop]
    have hcode := hlaid.code
    rw [htexts, List.flatMap_append, List.flatMap_cons, ← List.append_assoc] at hcode
    refine ⟨_, after.flatMap literalBytes, ?_, hcode.trans (List.append_assoc ..).symm⟩
    rw [hlaid.place?_literal htexts, List.length_append, Layout.length_encodeFrom]
    rfl

end AsmProgram

end ThreeAddress
