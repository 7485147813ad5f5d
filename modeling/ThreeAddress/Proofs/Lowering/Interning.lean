import ThreeAddress.Proofs.Lowering.Literals
import ThreeAddress.Proofs.Lowering.Mentions
import ThreeAddress.Proofs.Lowering.Sites

/-!
# Texts by number

The code of a program refers to texts by their numbers in one pool. Read back from
the pool, the numbers in the code of each instruction are the texts among its
operands, and along the whole code new numbers come in order.
-/

namespace ThreeAddress

/-- What is met again is left out. -/
theorem eraseDups_append_cons {α : Type} [BEq α] [LawfulBEq α] {before after : List α} {item : α}
    (h : item ∈ before) : (before ++ item :: after).eraseDups = (before ++ after).eraseDups := by
  rw [List.eraseDups_append, List.eraseDups_append, List.cons_removeAll, if_neg (by simpa using h)]

theorem eraseDups_eq_self {α : Type} [BEq α] [LawfulBEq α] {items : List α} (h : items.Nodup) :
    items.eraseDups = items := by
  induction items with
  | nil => rfl
  | cons item rest ih =>
      obtain ⟨hitem, hrest⟩ := List.nodup_cons.mp h
      have hothers : rest.filter (fun other => !other == item) = rest :=
        List.filter_eq_self.mpr fun other hother => by
          simpa using fun heq : other = item => hitem (heq ▸ hother)
      rw [List.eraseDups_cons, hothers, ih hrest]

namespace Item

variable {Literal Literal' Literal'' : Type}

theorem mapLiteral_mapLiteral (item : Item Literal) (first : Literal → Literal')
    (second : Literal' → Literal'') :
    (item.mapLiteral first).mapLiteral second =
      item.mapLiteral fun literal => second (first literal) := by
  cases item with
  | label => rfl
  | instr code => exact congrArg instr (code.map_map_literal id id first second)

@[simp] theorem literal?_mapLiteral (item : Item Literal) (literal : Literal → Literal') :
    (item.mapLiteral literal).literal? = item.literal?.map literal := by
  cases item with
  | label => rfl
  | instr code => cases code <;> rfl

theorem filterMap_literal?_map (items : List (Item Literal)) (literal : Literal → Literal') :
    (items.map (·.mapLiteral literal)).filterMap literal? =
      (items.filterMap literal?).map literal := by
  rw [List.filterMap_map, List.map_filterMap]
  exact List.filterMap_congr fun item _ => item.literal?_mapLiteral literal

end Item

namespace LiteralPool

/-- A text has a number, or is given the next one. -/
theorem intern_cases (pool : LiteralPool) (text : String) :
    ((pool.intern text).1 < pool.size ∧ (pool.intern text).2 = pool) ∨
      ∃ hnone, pool.intern text = (pool.size, pool.push text hnone) := by
  by_cases hnone : pool.indexOf? text = none
  · exact .inr ⟨hnone, intern_of_none hnone⟩
  · obtain ⟨index, hindex⟩ := Option.ne_none_iff_exists'.mp hnone
    obtain ⟨hlt, _⟩ := List.getElem?_eq_some_iff.mp (indexOf?_eq_some_iff.mp hindex)
    rw [intern_of_some hindex]
    exact .inl ⟨hlt, rfl⟩

/-- A pool that has all texts of some code stays as it is. -/
theorem number_of_mem {pool : LiteralPool} {items : List (Item String)}
    (h : ∀ item ∈ items, ∀ text, item.literal? = some text → text ∈ pool.texts) :
    pool.number items = (items.map (·.mapLiteral pool.indexOf), pool) := by
  induction items with
  | nil => rfl
  | cons item rest ih =>
      obtain ⟨hitem, hrest⟩ := List.forall_mem_cons.mp h
      have hintern (text : String) (hliteral : item.literal? = some text) :
          pool.intern text = (pool.indexOf text, pool) := by
        obtain ⟨index, hindex, _⟩ := indexOf?_of_mem (hitem text hliteral)
        rw [intern_of_some hindex, indexOf, hindex]
        rfl
      have hnumber := Item.mapLiteral_congr fun text hliteral =>
        congrArg Prod.fst (hintern text hliteral)
      cases hliteral : item.literal? with
      | none => simp only [number, hliteral, hnumber, ih hrest, List.map_cons]
      | some text =>
          simp only [number, hliteral, hnumber, hintern text hliteral, ih hrest, List.map_cons]

/-- After the numbers that are in the pool already, new numbers come in order. -/
theorem eraseDups_number (pool : LiteralPool) (items : List (Item String)) :
    (List.range pool.size ++ (pool.number items).1.filterMap Item.literal?).eraseDups =
      List.range (pool.number items).2.size := by
  induction items generalizing pool with
  | nil => exact (congrArg _ (List.append_nil _)).trans (eraseDups_eq_self List.nodup_range)
  | cons item rest ih =>
      simp only [number, List.filterMap_cons, Item.literal?_mapLiteral]
      cases hliteral : item.literal? with
      | none => exact ih pool
      | some text =>
          simp only [Option.map_some]
          rcases intern_cases pool text with ⟨hlt, hsame⟩ | ⟨hnone, hintern⟩
          · rw [eraseDups_append_cons (List.mem_range.mpr hlt), hsame]
            exact ih pool
          · have hsize : (pool.push text hnone).size = pool.size + 1 := List.length_append
            have hrest := ih (pool.push text hnone)
            rw [hsize, List.range_succ, List.append_assoc] at hrest
            rw [hintern]
            exact hrest

end LiteralPool

/-! ## Texts of instructions -/

def Source.text? : Source → Option String
  | .str text => some text
  | _ => none

theorem Item.filterMap_literal? {Literal : Type} (items : List (Item Literal)) :
    items.filterMap literal? = (items.filterMap mention?).filterMap Mention.literal? := by
  rw [List.filterMap_filterMap]
  exact List.filterMap_congr fun item _ => item.literal?_eq

namespace Placed

variable {placed : Placed}

/-- The texts that the code of an instruction loads: those among its operands, in the order in
which operands are loaded, unless it has no code. -/
def texts (placed : Placed) (inst : Inst) : List String :=
  if placed.elides inst then [] else inst.loaded.filterMap Source.text?

theorem filterMap_mentions (placed : Placed) (inst : Inst) :
    (placed.mentions inst).filterMap Mention.literal? = placed.texts inst := by
  have hsources : (inst.loaded.flatMap Source.mentions).filterMap Mention.literal? =
      inst.loaded.filterMap Source.text? := by
    rw [List.filterMap_flatMap, List.filterMap_eq_flatMap_toList]
    refine congrFun (congrArg List.flatMap (funext fun source => ?_)) _
    cases source <;> rfl
  have hnamed : (placed.named inst).filterMap Mention.literal? = [] := by cases inst <;> rfl
  rw [mentions, List.filterMap_append, hnamed, List.append_nil, texts, ← hsources]
  cases placed.elides inst <;> rfl

theorem literals_inst {inst : Inst} (h : (placed.inst inst).result = .ok ()) :
    (placed.inst inst).code.filterMap Item.literal? = placed.texts inst := by
  rw [Item.filterMap_literal?, (placed.writes_inst inst).mentions () h, filterMap_mentions]

/-- The code of an instruction in a program whose texts are those of a pool. -/
structure BlockOf (placed : Placed) (pool : LiteralPool) (inst : Inst) (block : List (Item Nat)) :
    Prop where
  /-- It is what the generator writes, which has no new texts for the pool. -/
  written : ∀ items, (Lowering.inst placed inst : Generator Unit).run.run ⟨pool, items⟩ =
    (.ok (), ⟨pool, items ++ block.toArray⟩)
  /-- With texts for the numbers, it is what is written without a pool. -/
  reads : block.map (·.mapLiteral pool.get?) = (placed.inst inst).code.map (·.mapLiteral some)
  /-- Its numbers are the texts of the instruction. -/
  texts : (block.filterMap Item.literal?).map pool.get? = (placed.texts inst).map some

/-- A routine is the code of a function with numbers for its texts: a block for each instruction, in
order. What stands around the blocks has no texts. -/
def NumberedAs (placed : Placed) (pool : LiteralPool) (routine : Routine) : Prop :=
  ∃ before blocks after,
    routine = ⟨placed.function.name, before ++ blocks.flatten ++ after⟩ ∧
    (∀ item ∈ before ++ after, item.literal? = none) ∧
    List.Forall₂ (placed.BlockOf pool) placed.function.code blocks

/-- Code with numbers is read back. -/
theorem map_mapLiteral_indexOf {pool : LiteralPool} {items : List (Item String)}
    (hmem : ∀ item ∈ items, ∀ text, item.literal? = some text → text ∈ pool.texts) :
    (items.map (·.mapLiteral pool.indexOf)).map (·.mapLiteral pool.get?) =
      items.map (·.mapLiteral some) := by
  rw [List.map_map]
  refine List.map_congr_left fun item hitem => ?_
  rw [Function.comp_apply, Item.mapLiteral_mapLiteral]
  exact Item.mapLiteral_congr fun text htext =>
    LiteralPool.getElem?_indexOf (hmem item hitem text htext)

theorem literals_of_mentions_nil {emission : Emission Unit} (h : emission.Mentions [])
    (hresult : emission.result = .ok ()) : ∀ item ∈ emission.code, item.literal? = none := by
  have hnone := Item.filterMap_literal? emission.code
  rw [h () hresult] at hnone
  exact List.filterMap_eq_nil_iff.mp hnone

theorem blockOf_inst {pool : LiteralPool} {inst : Inst} (h : (placed.inst inst).result = .ok ())
    (hmem : ∀ item ∈ (placed.inst inst).code, ∀ text, item.literal? = some text →
      text ∈ pool.texts) :
    placed.BlockOf pool inst ((placed.inst inst).code.map (·.mapLiteral pool.indexOf)) where
  written := fun items => by
    rw [Generator.numbers_inst placed inst ⟨pool, items⟩, h,
      LiteralPool.number_of_mem hmem]
  reads := map_mapLiteral_indexOf hmem
  texts := by
    rw [← Item.filterMap_literal?_map, map_mapLiteral_indexOf hmem, Item.filterMap_literal?_map,
      literals_inst h]

theorem Written.numberedAs (h : placed.Written) {pool : LiteralPool}
    (hmem : ∀ item ∈ placed.code.code, ∀ text, item.literal? = some text → text ∈ pool.texts) :
    placed.NumberedAs pool
      ⟨placed.function.name, placed.code.code.map (·.mapLiteral pool.indexOf)⟩ := by
  have hcode := h.code
  rw [codeBefore, List.take_length] at hcode
  generalize htail : (if placed.function.fallsThrough then placed.epilogue.code else []) = tail
    at hcode
  have haround : ∀ item ∈ placed.prologue.code ++ tail, item.literal? = none := by
    intro item hitem
    rcases List.mem_append.mp hitem with hitem | hitem
    · exact literals_of_mentions_nil placed.writes_prologue.mentions h.prologue item hitem
    · rw [← htail] at hitem
      split at hitem
      next =>
        have hnothing := placed.writes_epilogue.mentions
        exact literals_of_mentions_nil hnothing placed.result_epilogue item hitem
      next => cases hitem
  refine ⟨placed.prologue.code.map (·.mapLiteral pool.indexOf),
    placed.function.code.map fun inst => (placed.inst inst).code.map (·.mapLiteral pool.indexOf),
    tail.map (·.mapLiteral pool.indexOf), ?_, ?_, ?_⟩
  · rw [hcode, List.map_append, List.map_append, List.map_flatMap, List.flatMap_def]
  · rw [← List.map_append]
    intro item hitem
    obtain ⟨written, hwritten, rfl⟩ := List.mem_map.mp hitem
    rw [Item.literal?_mapLiteral, haround written hwritten]
    rfl
  · rw [List.forall₂_map_right_iff, List.forall₂_same]
    intro inst hinst
    have hblock : (placed.inst inst).code ⊆ placed.code.code := by
      rw [hcode]
      intro item hitem
      exact List.mem_append_left _ (List.mem_append_right _
        (List.mem_flatMap.mpr ⟨inst, hinst, hitem⟩))
    exact blockOf_inst (h.inst inst hinst) fun item hitem => hmem item (hblock hitem)

end Placed

/-! ## Texts of programs -/

/-- The numbers of texts in the code of a program, in order. -/
def AsmProgram.literalNumbers (program : AsmProgram) : List Nat :=
  program.routines.flatMap fun routine => routine.items.filterMap Item.literal?

namespace Program

variable {program : Program} {allocator : Allocator} {asm : AsmProgram}

/-- The code of a program is numbered as if it were that of one routine. -/
theorem exists_number_of_compileFrom {functions : List Function} {pool literals : LiteralPool}
    {routines : List Routine}
    (h : compileFrom allocator functions pool = .ok (routines, literals)) :
    ∃ code, pool.number code = (routines.flatMap Routine.items, literals) := by
  induction functions generalizing pool routines with
  | nil =>
      obtain ⟨rfl, rfl⟩ := Prod.mk.inj (Except.ok.inj h)
      exact ⟨[], rfl⟩
  | cons function rest ih =>
      obtain ⟨assignment, others, _, _, hrest, rfl⟩ := compileFrom_cons_eq_ok h
      obtain ⟨code, hcode⟩ := ih hrest
      exact ⟨(Placed.mk function assignment).code.code ++ code, by
        rw [LiteralPool.number_append, hcode, List.flatMap_cons]⟩

theorem exists_number_of_compile (h : program.compile allocator = .ok asm) :
    ∃ code, LiteralPool.empty.number code = (asm.routines.flatMap Routine.items, asm.literals) := by
  unfold compile at h
  split at h
  next => cases h
  next routines literals hfrom =>
    obtain rfl := Except.ok.inj h
    exact exists_number_of_compileFrom hfrom

theorem eraseDups_literalNumbers (h : program.compile allocator = .ok asm) :
    asm.literalNumbers.eraseDups = List.range asm.literals.size := by
  obtain ⟨code, hcode⟩ := exists_number_of_compile h
  have hdups := LiteralPool.empty.eraseDups_number code
  rw [hcode] at hdups
  rw [AsmProgram.literalNumbers, ← List.filterMap_flatMap]
  exact hdups

theorem exists_leaLiteral (h : program.compile allocator = .ok asm) {index : Nat}
    (hindex : index < asm.literals.size) :
    ∃ routine ∈ asm.routines, ∃ dst, .instr (.leaLiteral index dst) ∈ routine.items := by
  have hmem : index ∈ asm.literalNumbers := by
    rw [← List.mem_eraseDups, eraseDups_literalNumbers h]
    exact List.mem_range.mpr hindex
  obtain ⟨routine, hroutine, hnumber⟩ := List.mem_flatMap.mp hmem
  obtain ⟨item, hitem, hliteral⟩ := List.mem_filterMap.mp hnumber
  obtain ⟨dst, rfl⟩ := Item.literal?_eq_some_iff.mp hliteral
  exact ⟨routine, hroutine, dst, hitem⟩

theorem numberedAs_of_compile (h : program.compile allocator = .ok asm) :
    List.Forall₂ (fun function routine => ∃ assignment, allocator function = .ok assignment ∧
      (Placed.mk function assignment).NumberedAs asm.literals routine)
      program.functions asm.routines := by
  refine (compile_eq_ok h).imp fun function routine hcompiles => ?_
  cases hcompiles with
  | @intro assignment hassignment hresult hmem =>
      exact ⟨assignment, hassignment, (Placed.written_of_result hresult).numberedAs hmem⟩

/-- Where a program is compiled, its pool has each text once and has no other texts than those that
the code refers to, the code of each instruction refers to the texts among its operands, and new
numbers come in order. The pool that a function is given is only added to, whether the function can
be compiled or not. -/
theorem literals_of_compile (program : Program) (allocator : Allocator) :
    (∀ asm, program.compile allocator = .ok asm →
      asm.literals.texts.Nodup ∧
      (∀ text index, asm.literals.indexOf? text = some index ↔
        asm.literals.get? index = some text) ∧
      List.Forall₂ (fun function routine => ∃ assignment, allocator function = .ok assignment ∧
        (Placed.mk function assignment).NumberedAs asm.literals routine)
        program.functions asm.routines ∧
      (∀ index, index < asm.literals.size → ∃ routine ∈ asm.routines, ∃ dst,
        .instr (.leaLiteral index dst) ∈ routine.items) ∧
      asm.literalNumbers.eraseDups = List.range asm.literals.size) ∧
    ∀ (placed : Placed) (pool : LiteralPool) (text : String) (index : Nat),
      (pool.get? index = some text → (placed.routine pool).2.get? index = some text) ∧
        (pool.indexOf? text = some index →
          (placed.routine pool).2.indexOf? text = some index) := by
  refine ⟨fun asm h => ?_, fun placed pool text index => ?_⟩
  · exact ⟨asm.literals.nodup_texts, fun _ _ => LiteralPool.indexOf?_eq_some_iff,
      numberedAs_of_compile h, fun _ => exists_leaLiteral h, eraseDups_literalNumbers h⟩
  · have hgrows : pool.GrowsTo (placed.routine pool).2 := by
      rw [Placed.routine_eq]
      exact pool.growsTo_number placed.code.code
    exact ⟨hgrows.get?_eq, hgrows.indexOf?_eq⟩

/-- Its first text is not referred to, and two of the others are met twice. -/
def greeting : Program where
  functions := [
    { name := "main", params := [], locals := [],
      code := [
        .move (.temp 0) (.str "unused"),
        .branch .eq (.str "world") (.str "hello") "end",
        .call "printStr" [.str "hello"] none,
        .call "rest" [] none,
        .label "end",
        .ret none] },
    { name := "rest", params := [], locals := [],
      code := [
        .call "printStr" [.str "world"] none,
        .call "printStr" [.str "!"] none,
        .ret none] }]

theorem literals_of_compile_greeting :
    ∃ asm, greeting.compile LinearScan.standard.assign = .ok asm ∧
      asm.literals.texts = ["hello", "world", "!"] ∧ asm.literalNumbers = [0, 1, 0, 1, 2] ∧
      asm.literalNumbers.eraseDups = List.range asm.literals.size := by
  have hcompiled : (match greeting.compile LinearScan.standard.assign with
      | .ok asm => decide (asm.literals.texts = ["hello", "world", "!"] ∧
          asm.literalNumbers = [0, 1, 0, 1, 2])
      | .error _ => false) = true := by decide +kernel
  split at hcompiled
  next asm hasm =>
    obtain ⟨htexts, hnumbers⟩ := of_decide_eq_true hcompiled
    have hliterals := (literals_of_compile greeting LinearScan.standard.assign).1 asm hasm
    exact ⟨asm, hasm, htexts, hnumbers, hliterals.2.2.2.2⟩
  next => cases hcompiled

end Program

end ThreeAddress
