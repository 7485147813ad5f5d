import ThreeAddress.Proofs.Asm.Layout

/-!
# Names in assembly programs

Routines, labels and literals are bound in one table, in the order in which they
are laid out. A program is laid out if it has a `main`, each of its calls has a
target, no label is bound twice, and each one that is referred to is bound.
-/

namespace ThreeAddress

/-- A name or a literal in code. -/
inductive Mention (Literal : Type) where
  /-- A label that stands there. -/
  | label (name : String)
  /-- A label that a jump goes to. -/
  | target (label : String)
  | callee (name : String)
  | literal (literal : Literal)
deriving DecidableEq, Repr

def Instr.mention? {Literal : Type} : Instr String String Literal → Option (Mention Literal)
  | .jmp target | .jcc _ target => some (.target target)
  | .call callee => some (.callee callee)
  | .leaLiteral literal _ => some (.literal literal)
  | _ => none

def Item.mention? {Literal : Type} : Item Literal → Option (Mention Literal)
  | .label name => some (.label name)
  | .instr code => code.mention?

namespace Mention

/-- Renames literals. -/
def mapLiteral {Literal Literal' : Type} (literal : Literal → Literal') :
    Mention Literal → Mention Literal'
  | .label name => .label name
  | .target name => .target name
  | .callee name => .callee name
  | .literal found => .literal (literal found)

/-- The label that is bound. -/
def label? {Literal : Type} : Mention Literal → Option String
  | .label name => some name
  | _ => none

def callee? {Literal : Type} : Mention Literal → Option String
  | .callee name => some name
  | _ => none

def literal? {Literal : Type} : Mention Literal → Option Literal
  | .literal found => some found
  | _ => none

/-- The label that is referred to. A built-in is called without one. -/
def reference? : Mention Nat → Option String
  | .label _ => none
  | .target name => some name
  | .callee name => if (Builtin.ofName? name).isSome then none else some (routineLabel name)
  | .literal index => some (literalLabel index)

end Mention

namespace Item

variable {Literal Literal' : Type}

theorem mention?_mapLiteral (item : Item Literal) (literal : Literal → Literal') :
    (item.mapLiteral literal).mention? = item.mention?.map (Mention.mapLiteral literal) := by
  cases item with
  | label => rfl
  | instr code => cases code <;> rfl

theorem literal?_eq (item : Item Literal) :
    item.literal? = item.mention?.bind Mention.literal? := by
  cases item with
  | label => rfl
  | instr code => cases code <;> rfl

theorem literal?_eq_some_iff {item : Item Literal} {literal : Literal} :
    item.literal? = some literal ↔ ∃ dst, item = .instr (.leaLiteral literal dst) := by
  cases item with
  | label => simp [literal?]
  | instr code => cases code <;> simp [literal?]

end Item

/-- What the code of a routine mentions, in order. -/
def Routine.mentions (routine : Routine) : List (Mention Nat) :=
  routine.items.filterMap Item.mention?

/-- The labels that are bound where a routine is laid out: its own, and those in its code. -/
def Routine.bound (routine : Routine) : List String :=
  routineLabel routine.name :: routine.mentions.filterMap Mention.label?

namespace AsmProgram

/-- All labels that are bound where a program is laid out. -/
def bound (program : AsmProgram) : List String :=
  program.routines.flatMap Routine.bound ++ (List.range program.literals.size).map literalLabel

/-- All labels that are referred to. -/
def references (program : AsmProgram) : List String :=
  program.routines.flatMap fun routine => routine.mentions.filterMap Mention.reference?

/-- The names that are called. -/
def callees (program : AsmProgram) : List String :=
  program.routines.flatMap fun routine => routine.mentions.filterMap Mention.callee?

/-- A program whose names all stand for something, and for one thing only. -/
structure Resolvable (program : AsmProgram) : Prop where
  entry : ∃ routine ∈ program.routines, routine.name = "main"
  callees : ∀ callee ∈ program.callees,
    (Builtin.ofName? callee).isSome = true ∨ callee ∈ program.routines.map (·.name)
  nodup : program.bound.Nodup
  references : ∀ label ∈ program.references, label ∈ program.bound

end AsmProgram

namespace Layout

variable {layout middle next : Layout} {bound more references others : List String}

/-- What is added to a layout binds some labels and refers to some. -/
structure Adds (layout next : Layout) (bound references : List String) : Prop where
  labels : next.labels.map (·.1) = layout.labels.map (·.1) ++ bound
  references : next.fragments.flatMap Fragment.references =
    layout.fragments.flatMap Fragment.references ++ references
  routines : next.routines = layout.routines

theorem Adds.refl (layout : Layout) : layout.Adds layout [] [] :=
  ⟨(List.append_nil _).symm, (List.append_nil _).symm, rfl⟩

theorem Adds.trans (hfirst : layout.Adds middle bound references)
    (hsecond : middle.Adds next more others) :
    layout.Adds next (bound ++ more) (references ++ others) where
  labels := by rw [hsecond.labels, hfirst.labels, List.append_assoc]
  references := by rw [hsecond.references, hfirst.references, List.append_assoc]
  routines := hsecond.routines.trans hfirst.routines

theorem adds_bind (layout : Layout) (label : String) :
    layout.Adds (layout.bind label) [label] [] where
  labels := List.map_append
  references := (List.append_nil _).symm
  routines := rfl

theorem adds_add (layout : Layout) (fragment : Fragment) :
    layout.Adds (layout.add fragment) [] fragment.references where
  labels := (List.append_nil _).symm
  references := by simp [add]
  routines := rfl

/-- A call of the name has a target. -/
def Knows (layout : Layout) (callee : String) : Prop :=
  (Builtin.ofName? callee).isSome = true ∨ callee ∈ layout.routines

theorem Adds.knows (h : layout.Adds next bound references) {callee : String}
    (hknown : layout.Knows callee) : next.Knows callee :=
  hknown.imp_right fun hmem => h.routines ▸ hmem

theorem exists_emit {item : Item Nat}
    (hknown : ∀ callee ∈ item.mention?.bind Mention.callee?, layout.Knows callee) :
    ∃ next, layout.emit item = .ok next ∧
      layout.Adds next (item.mention?.bind Mention.label?).toList
        (item.mention?.bind Mention.reference?).toList := by
  cases item with
  | label name => exact ⟨_, rfl, layout.adds_bind name⟩
  | instr code =>
      cases code with
      | call callee =>
          have hreference : ((Item.instr (.call callee)).mention?.bind Mention.reference?) =
              if (Builtin.ofName? callee).isSome then none else some (routineLabel callee) := rfl
          rw [hreference]
          cases hbuiltin : Builtin.ofName? callee with
          | some found =>
              refine ⟨layout.add (.instr (.call (.builtin found))), ?_, layout.adds_add _⟩
              simp [emit, labelled, callLabel, hbuiltin, Except.map]
          | none =>
              have hmem : callee ∈ layout.routines :=
                (hknown callee rfl).resolve_left (by simp [hbuiltin])
              refine ⟨layout.add (.instr (.call (.routine (routineLabel callee)))), ?_,
                layout.adds_add _⟩
              simp [emit, labelled, callLabel, hbuiltin, hmem, Except.map]
      | _ => exact ⟨_, rfl, layout.adds_add _⟩

theorem exists_emitAll {items : List (Item Nat)}
    (hknown : ∀ callee ∈ (items.filterMap Item.mention?).filterMap Mention.callee?,
      layout.Knows callee) :
    ∃ next, layout.emitAll items = .ok next ∧
      layout.Adds next ((items.filterMap Item.mention?).filterMap Mention.label?)
        ((items.filterMap Item.mention?).filterMap Mention.reference?) := by
  rw [List.filterMap_filterMap] at hknown ⊢
  rw [List.filterMap_filterMap]
  simp only [List.filterMap_eq_flatMap_toList] at hknown ⊢
  induction items generalizing layout with
  | nil => exact ⟨layout, rfl, .refl layout⟩
  | cons item rest ih =>
      simp only [List.flatMap_cons, List.mem_append, Option.mem_toList] at hknown ⊢
      obtain ⟨middle, hmiddle, hadds⟩ :=
        exists_emit fun callee hcallee => hknown callee (.inl hcallee)
      obtain ⟨next, hnext, hrest⟩ :=
        ih fun callee hcallee => hadds.knows (hknown callee (.inr hcallee))
      refine ⟨next, ?_, hadds.trans hrest⟩
      rw [emitAll, hmiddle]
      exact hnext

/-- Routines are laid out if their calls have targets, and there is an entry if one of them is
`main`. -/
theorem exists_addRoutines {routines : List Routine} (entry : Option Nat)
    (hknown : ∀ routine ∈ routines, ∀ callee ∈ routine.mentions.filterMap Mention.callee?,
      layout.Knows callee) :
    ∃ next final, layout.addRoutines entry routines = .ok (next, final) ∧
      layout.Adds next (routines.flatMap Routine.bound)
        (routines.flatMap fun routine => routine.mentions.filterMap Mention.reference?) ∧
      (final.isSome = true ↔
        entry.isSome = true ∨ ∃ routine ∈ routines, routine.name = "main") := by
  induction routines generalizing layout entry with
  | nil => exact ⟨layout, entry, rfl, .refl layout, by simp⟩
  | cons routine rest ih =>
      obtain ⟨hroutine, hothers⟩ := List.forall_mem_cons.mp hknown
      have hbound := layout.adds_bind (routineLabel routine.name)
      obtain ⟨middle, hmiddle, hitems⟩ :=
        exists_emitAll fun callee hcallee => hbound.knows (hroutine callee hcallee)
      have hadds := hbound.trans hitems
      obtain ⟨next, final, hnext, hrest, hfinal⟩ :=
        ih (if routine.name = "main" then some layout.offset else entry)
          fun other hother callee hcallee => hadds.knows (hothers other hother callee hcallee)
      refine ⟨next, final, ?_, hadds.trans hrest, hfinal.trans ?_⟩
      · rw [addRoutines, hmiddle]
        exact hnext
      · by_cases hmain : routine.name = "main" <;> simp [hmain]

theorem adds_addLiterals (layout : Layout) (index : Nat) (texts : List String) :
    layout.Adds (layout.addLiterals index texts)
      ((List.range' index texts.length).map literalLabel) [] := by
  induction texts generalizing layout index with
  | nil => exact .refl layout
  | cons text rest ih =>
      have hdata : layout.Adds (layout.data (literalLabel index) (Text.encode text))
          [literalLabel index] [] :=
        (layout.adds_bind _).trans (adds_add _ _)
      exact hdata.trans (ih _ (index + 1))

end Layout

namespace AsmProgram

variable {program : AsmProgram}

/-- Where all calls have targets, a program is laid out up to its labels. There is a place to start
if it has a `main`, and then only labels can be in the way of an image. -/
theorem exists_built (hcallees : ∀ callee ∈ program.callees,
    (Builtin.ofName? callee).isSome = true ∨ callee ∈ program.routines.map (·.name)) :
    ∃ layout entry, (Layout.mk [] [] 0 (program.routines.map (·.name))).addRoutines none
        program.routines = .ok (layout, entry) ∧
      (entry.isSome = true ↔ ∃ routine ∈ program.routines, routine.name = "main") ∧
      ((layout.addLiterals 0 program.literals.texts).WellLabelled ↔
        program.bound.Nodup ∧ ∀ label ∈ program.references, label ∈ program.bound) := by
  have hknown : ∀ routine ∈ program.routines,
      ∀ callee ∈ routine.mentions.filterMap Mention.callee?,
        (Layout.mk [] [] 0 (program.routines.map (·.name))).Knows callee :=
    fun routine hroutine callee hcallee =>
      hcallees callee (List.mem_flatMap.mpr ⟨routine, hroutine, hcallee⟩)
  obtain ⟨layout, entry, hbuilt, hadds, hentry⟩ := Layout.exists_addRoutines none hknown
  refine ⟨layout, entry, hbuilt, hentry.trans (by simp), ?_⟩
  have hall := hadds.trans (layout.adds_addLiterals 0 program.literals.texts)
  have hlabels : (layout.addLiterals 0 program.literals.texts).labels.map (·.1) =
      program.bound := by
    rw [hall.labels, bound, List.range_eq_range', LiteralPool.size]
    rfl
  have hreferences : (layout.addLiterals 0 program.literals.texts).fragments.flatMap
      Fragment.references = program.references := by
    rw [hall.references, List.append_nil]
    rfl
  rw [Layout.WellLabelled, hlabels, hreferences]

/-- A resolvable program is laid out. -/
theorem Resolvable.exists_image (h : program.Resolvable) :
    ∃ image, program.assemble = .ok image := by
  obtain ⟨layout, found, hbuilt, hentry, hwell⟩ := exists_built h.callees
  obtain ⟨entry, rfl⟩ := Option.isSome_iff_exists.mp (hentry.mpr h.entry)
  have hbuilt' : (program.routines.foldl (fun layout routine => layout.declare routine.name)
      Layout.empty).addRoutines none program.routines = .ok (layout, some entry) := by
    rw [foldl_declare]
    exact hbuilt
  have hlabelled := hwell.mpr ⟨h.nodup, h.references⟩
  rw [assemble_eq]
  simp only [layOut, hbuilt', Layout.finish, if_pos hlabelled]
  exact ⟨_, rfl⟩

end AsmProgram

end ThreeAddress
