import Mathlib.Data.List.Forall2
import Mathlib.Data.List.Infix
import Mathlib.Data.List.Nodup
import ThreeAddress.Proofs.Lowering.Generation

/-!
# Numbers of literals

A pool only grows at its end, so a text keeps its number, and each literal of a
program is given the number that its text has in the final pool.
-/

namespace ThreeAddress

theorem Instr.map_map_literal {Target Callee Literal Literal' Literal'' : Type}
    (code : Instr String String Literal) (target : String → Target) (callee : String → Callee)
    (first : Literal → Literal') (second : Literal' → Literal'') :
    (code.map id id first).map target callee second =
      code.map target callee fun literal => second (first literal) := by
  cases code <;> rfl

theorem Item.mapLiteral_congr {Literal Literal' : Type} {item : Item Literal}
    {left right : Literal → Literal'}
    (h : ∀ literal, item.literal? = some literal → left literal = right literal) :
    item.mapLiteral left = item.mapLiteral right := by
  cases item with
  | label name => rfl
  | instr code =>
      cases code with
      | leaLiteral literal dst => simp only [mapLiteral, Instr.map, h literal rfl]
      | _ => rfl

namespace LiteralPool

variable {pool later : LiteralPool} {text : String}

/-- A pool and what it may have grown to. -/
def GrowsTo (pool later : LiteralPool) : Prop := pool.texts <+: later.texts

theorem GrowsTo.refl (pool : LiteralPool) : pool.GrowsTo pool := List.prefix_refl _

theorem GrowsTo.trans {last : LiteralPool} (hfirst : pool.GrowsTo later)
    (hsecond : later.GrowsTo last) : pool.GrowsTo last :=
  List.IsPrefix.trans hfirst hsecond

/-- The number of a text that is in the pool. -/
def indexOf (pool : LiteralPool) (text : String) : Nat := (pool.indexOf? text).getD 0

theorem indexOf?_of_mem (h : text ∈ pool.texts) :
    ∃ index, pool.indexOf? text = some index ∧ pool.get? index = some text := by
  obtain ⟨index, hindex⟩ := List.mem_iff_getElem?.mp h
  exact ⟨index, indexOf?_eq_some_iff.mpr hindex, hindex⟩

/-- No text is in a pool twice. -/
theorem nodup_texts (pool : LiteralPool) : pool.texts.Nodup := by
  refine List.nodup_iff_injective_getElem.mpr fun left right heq => Fin.ext ?_
  have hindex (index : Fin pool.texts.length) :
      pool.indexOf? pool.texts[index] = some index.val :=
    indexOf?_eq_some_iff.mpr (List.getElem?_eq_getElem index.isLt)
  have hsame : some left.val = some right.val :=
    (hindex left).symm.trans ((congrArg pool.indexOf? heq).trans (hindex right))
  exact Option.some.inj hsame

theorem getElem?_indexOf (h : text ∈ pool.texts) :
    pool.texts[pool.indexOf text]? = some text := by
  obtain ⟨index, hindex, hget⟩ := indexOf?_of_mem h
  rw [indexOf, hindex]
  exact hget

theorem indexOf_lt (h : text ∈ pool.texts) : pool.indexOf text < pool.size :=
  (List.getElem?_eq_some_iff.mp (getElem?_indexOf h)).1

theorem GrowsTo.get?_eq {index : Nat} (h : pool.GrowsTo later)
    (hget : pool.get? index = some text) : later.get? index = some text := by
  obtain ⟨hlt, rfl⟩ := List.getElem?_eq_some_iff.mp hget
  exact List.prefix_iff_getElem?.mp h index hlt

/-- A text keeps its number while the pool grows. -/
theorem GrowsTo.indexOf?_eq {index : Nat} (h : pool.GrowsTo later)
    (hindex : pool.indexOf? text = some index) : later.indexOf? text = some index :=
  indexOf?_eq_some_iff.mpr (h.get?_eq (indexOf?_eq_some_iff.mp hindex))

theorem growsTo_push (h : pool.indexOf? text = none) : pool.GrowsTo (pool.push text h) :=
  List.prefix_append _ _

theorem growsTo_intern (pool : LiteralPool) (text : String) :
    pool.GrowsTo (pool.intern text).2 := by
  cases hindex : pool.indexOf? text with
  | some index =>
      rw [intern_of_some hindex]
      exact .refl pool
  | none =>
      rw [intern_of_none hindex]
      exact growsTo_push hindex

/-- The number that a text is given is the one that it has in every later pool. -/
theorem indexOf?_intern (pool : LiteralPool) (text : String) :
    (pool.intern text).2.indexOf? text = some (pool.intern text).1 := by
  cases hindex : pool.indexOf? text with
  | some index => rwa [intern_of_some hindex]
  | none =>
      rw [intern_of_none hindex]
      exact List.lookup_cons_self

theorem mem_intern (pool : LiteralPool) (text : String) :
    text ∈ (pool.intern text).2.texts :=
  List.mem_of_getElem? (indexOf?_eq_some_iff.mp (indexOf?_intern pool text))

theorem growsTo_number (pool : LiteralPool) (items : List (Item String)) :
    pool.GrowsTo (pool.number items).2 := by
  induction items generalizing pool with
  | nil => exact .refl pool
  | cons item rest ih =>
      unfold number
      split
      next text _ => exact (growsTo_intern pool text).trans (ih _)
      next => exact ih pool

/-- The literals of code are in the pool after it, and have there the numbers that they are
given. -/
theorem number_eq (pool : LiteralPool) (items : List (Item String))
    (h : (pool.number items).2.GrowsTo later) :
    (pool.number items).1 = items.map (·.mapLiteral later.indexOf) ∧
      ∀ item ∈ items, ∀ text, item.literal? = some text → text ∈ later.texts := by
  induction items generalizing pool with
  | nil => exact ⟨rfl, by simp⟩
  | cons item rest ih =>
      unfold number at h ⊢
      cases hliteral : item.literal? with
      | none =>
          simp only [hliteral] at h ⊢
          obtain ⟨hrest, hmem⟩ := ih pool h
          refine ⟨?_, ?_⟩
          · rw [List.map_cons, hrest]
            congr 1
            exact Item.mapLiteral_congr fun text htext => by simp [hliteral] at htext
          · intro other hother text htext
            rcases List.mem_cons.mp hother with rfl | hother
            · simp [hliteral] at htext
            · exact hmem other hother text htext
      | some text =>
          simp only [hliteral] at h ⊢
          obtain ⟨hrest, hmem⟩ := ih (pool.intern text).2 h
          have hgrows : (pool.intern text).2.GrowsTo later := (growsTo_number _ rest).trans h
          refine ⟨?_, ?_⟩
          · rw [List.map_cons, hrest]
            congr 1
            apply Item.mapLiteral_congr
            intro other hother
            obtain rfl : text = other := by simpa [hliteral] using hother
            rw [indexOf, hgrows.indexOf?_eq (indexOf?_intern pool text)]
            rfl
          · intro other hother found hfound
            rcases List.mem_cons.mp hother with rfl | hother
            · obtain rfl : text = found := by simpa [hliteral] using hfound
              exact hgrows.subset (mem_intern pool text)
            · exact hmem other hother found hfound

end LiteralPool

/-! ## Compiled programs -/

theorem mem_of_forall₂ {α β : Type} {relation : α → β → Prop} {lefts : List α} {rights : List β}
    (h : List.Forall₂ relation lefts rights) {left : α} (hleft : left ∈ lefts) :
    ∃ right ∈ rights, relation left right := by
  induction h with
  | nil => simp at hleft
  | cons hhead htail ih =>
      rcases List.mem_cons.mp hleft with rfl | hleft
      · exact ⟨_, List.mem_cons_self, hhead⟩
      · obtain ⟨right, hright, hrelated⟩ := ih hleft
        exact ⟨right, List.mem_cons_of_mem _ hright, hrelated⟩

theorem map_eq_of_forall₂ {α β γ : Type} {relation : α → β → Prop} {lefts : List α}
    {rights : List β} {left : α → γ} {right : β → γ} (h : List.Forall₂ relation lefts rights)
    (heq : ∀ first second, relation first second → right second = left first) :
    rights.map right = lefts.map left := by
  induction h with
  | nil => rfl
  | cons hhead _ ih => rw [List.map_cons, List.map_cons, heq _ _ hhead, ih]

namespace Program

variable {allocator : Allocator}

/-- The routine of a function whose code could be written, with the literals of its code numbered
by a pool. -/
inductive Compiles (allocator : Allocator) (literals : LiteralPool) : Function → Routine → Prop
  | intro {function : Function} {assignment : Assignment} :
      allocator function = .ok assignment →
      (Placed.mk function assignment).code.result = .ok () →
      (∀ item ∈ (Placed.mk function assignment).code.code, ∀ text, item.literal? = some text →
        text ∈ literals.texts) →
      Compiles allocator literals function
        ⟨function.name,
          (Placed.mk function assignment).code.code.map (·.mapLiteral literals.indexOf)⟩

/-- A function is placed, and its code is written and numbered, before the rest of a program is
compiled. -/
theorem compileFrom_cons_eq_ok {function : Function} {rest : List Function}
    {pool literals : LiteralPool} {routines : List Routine}
    (h : compileFrom allocator (function :: rest) pool = .ok (routines, literals)) :
    ∃ assignment others, allocator function = .ok assignment ∧
      (Placed.mk function assignment).code.result = .ok () ∧
      compileFrom allocator rest (pool.number (Placed.mk function assignment).code.code).2 =
        .ok (others, literals) ∧
      routines =
        ⟨function.name, (pool.number (Placed.mk function assignment).code.code).1⟩ :: others := by
  unfold compileFrom at h
  split at h
  next => cases h
  next assignment hassignment =>
    split at h
    next => cases h
    next routine middle hroutine =>
      split at h
      next => cases h
      next others _ hrest =>
        obtain ⟨rfl, rfl⟩ := Prod.mk.inj (Except.ok.inj h)
        rw [Placed.routine_eq] at hroutine
        obtain ⟨hresult, rfl⟩ := Prod.mk.inj hroutine
        cases hcode : (Placed.mk function assignment).code.result with
        | error => simp [hcode, Except.map] at hresult
        | ok value =>
            rw [hcode] at hresult
            obtain rfl := Except.ok.inj hresult
            exact ⟨assignment, others, hassignment, hcode, hrest, rfl⟩

theorem compileFrom_eq_ok {functions : List Function} {pool literals later : LiteralPool}
    {routines : List Routine}
    (h : compileFrom allocator functions pool = .ok (routines, literals))
    (hlater : literals.GrowsTo later) :
    pool.GrowsTo literals ∧ List.Forall₂ (Compiles allocator later) functions routines := by
  induction functions generalizing pool routines with
  | nil =>
      obtain ⟨rfl, rfl⟩ := Prod.mk.inj (Except.ok.inj h)
      exact ⟨.refl _, .nil⟩
  | cons function rest ih =>
      obtain ⟨assignment, others, hassignment, hcode, hrest, rfl⟩ := compileFrom_cons_eq_ok h
      obtain ⟨hgrows, hforall⟩ := ih hrest
      obtain ⟨hnumbered, hmem⟩ := LiteralPool.number_eq pool _ (hgrows.trans hlater)
      refine ⟨(LiteralPool.growsTo_number pool _).trans hgrows, .cons ?_ hforall⟩
      rw [hnumbered]
      exact .intro hassignment hcode hmem

/-- Each routine of a compiled program is that of a function, in order. -/
theorem compile_eq_ok {program : Program} {asm : AsmProgram}
    (h : program.compile allocator = .ok asm) :
    List.Forall₂ (Compiles allocator asm.literals) program.functions asm.routines := by
  unfold compile at h
  split at h
  next => exact absurd h (by simp)
  next routines literals hfrom =>
    obtain rfl := Except.ok.inj h
    exact (compileFrom_eq_ok hfrom (.refl _)).2

end Program

end ThreeAddress
