import ThreeAddress.Proofs.Asm.Resolution

/-!
# Which programs are laid out

What is wrong with a program is found in a fixed order: first the first call, in the order
of the code, that has no target; then that there is no `main`; and only once everything
is there, that a label is bound twice or not at all. Nothing else can be wrong.
-/

namespace ThreeAddress

/-- The first of the names that are neither built-ins nor among the routines. -/
def unknownCallee? (routines callees : List String) : Option String :=
  callees.find? fun callee => (Builtin.ofName? callee).isNone && !routines.contains callee

theorem unknownCallee?_eq_none_iff {routines callees : List String} :
    unknownCallee? routines callees = none ↔
      ∀ callee ∈ callees, (Builtin.ofName? callee).isSome = true ∨ callee ∈ routines := by
  rw [unknownCallee?, List.find?_eq_none]
  refine forall₂_congr fun callee _ => ?_
  cases Builtin.ofName? callee <;> simp

theorem unknownCallee?_append (routines first rest : List String) :
    unknownCallee? routines (first ++ rest) =
      (unknownCallee? routines first).or (unknownCallee? routines rest) :=
  List.find?_append

namespace Layout

variable {layout : Layout} {callee : String}

/-- An item that is a call without a target. -/
theorem emit_of_unknown {item : Item Nat}
    (h : unknownCallee? layout.routines (item.mention?.bind Mention.callee?).toList =
      some callee) :
    layout.emit item = .error (.undefinedTarget callee) := by
  have hmem := Option.mem_toList.mp (List.mem_of_find?_eq_some h)
  have hunknown := List.find?_some h
  cases item with
  | label => cases hmem
  | instr code =>
      cases code with
      | call name =>
          obtain rfl := Option.some.inj hmem
          simp only [Bool.and_eq_true, Option.isNone_iff_eq_none, Bool.not_eq_true',
            List.contains_eq_mem, decide_eq_false_iff_not] at hunknown
          simp [emit, labelled, callLabel, hunknown, Except.map]
      | _ => cases hmem

/-- Code is laid out up to the first call without a target. -/
theorem emitAll_of_unknown {items : List (Item Nat)}
    (h : unknownCallee? layout.routines
      ((items.filterMap Item.mention?).filterMap Mention.callee?) = some callee) :
    layout.emitAll items = .error (.undefinedTarget callee) := by
  rw [List.filterMap_filterMap, List.filterMap_eq_flatMap_toList] at h
  induction items generalizing layout with
  | nil => cases h
  | cons item rest ih =>
      rw [List.flatMap_cons, unknownCallee?_append, Option.or_eq_some_iff] at h
      rcases h with hitem | ⟨hknown, hrest⟩
      · rw [emitAll, emit_of_unknown hitem]
      · obtain ⟨next, hnext, hadds⟩ := exists_emit fun callee hcallee =>
          unknownCallee?_eq_none_iff.mp hknown callee (Option.mem_toList.mpr hcallee)
        rw [emitAll, hnext]
        exact ih (hadds.routines ▸ hrest)

theorem addRoutines_of_unknown {routines : List Routine} (entry : Option Nat)
    (h : unknownCallee? layout.routines (routines.flatMap fun routine =>
      routine.mentions.filterMap Mention.callee?) = some callee) :
    layout.addRoutines entry routines = .error (.undefinedTarget callee) := by
  induction routines generalizing layout entry with
  | nil => cases h
  | cons routine rest ih =>
      have hbound := layout.adds_bind (routineLabel routine.name)
      rw [List.flatMap_cons, unknownCallee?_append, Option.or_eq_some_iff] at h
      rcases h with hroutine | ⟨hknown, hrest⟩
      · rw [addRoutines, emitAll_of_unknown (hbound.routines ▸ hroutine)]
      · obtain ⟨next, hnext, hitems⟩ := exists_emitAll fun callee hcallee =>
          hbound.knows (unknownCallee?_eq_none_iff.mp hknown callee hcallee)
        rw [addRoutines, hnext]
        exact ih _ ((hbound.trans hitems).routines ▸ hrest)

end Layout

namespace AsmProgram

/-- The first call, in the order of the code, that has no target. -/
def unknown? (program : AsmProgram) : Option String :=
  unknownCallee? (program.routines.map (·.name)) program.callees

def HasMain (program : AsmProgram) : Prop :=
  ∃ routine ∈ program.routines, routine.name = "main"

/-- No label is bound twice, and each one that is referred to is bound. -/
def WellLabelled (program : AsmProgram) : Prop :=
  program.bound.Nodup ∧ ∀ label ∈ program.references, label ∈ program.bound

/-- How laying out a program ends. -/
inductive LaysOut (program : AsmProgram) : Except AssemblyError Image → Prop where
  | undefinedTarget {callee : String} (hunknown : program.unknown? = some callee) :
      LaysOut program (.error (.undefinedTarget callee))
  | missingEntry (hknown : program.unknown? = none) (hmain : ¬ program.HasMain) :
      LaysOut program (.error .missingEntry)
  | badLabel (hknown : program.unknown? = none) (hmain : program.HasMain)
      (hlabels : ¬ program.WellLabelled) : LaysOut program (.error .badLabel)
  | image {image : Image} (hknown : program.unknown? = none) (hmain : program.HasMain)
      (hlabels : program.WellLabelled) : LaysOut program (.ok image)

variable (program : AsmProgram)

theorem laysOut_assemble : program.LaysOut program.assemble := by
  have hstart : program.routines.foldl (fun layout routine => layout.declare routine.name)
      Layout.empty = ⟨[], [], 0, program.routines.map (·.name)⟩ := by
    rw [foldl_declare]
    rfl
  rw [assemble_eq, layOut, hstart]
  cases hunknown : program.unknown? with
  | some callee =>
      have hfails : (Layout.mk [] [] 0 (program.routines.map (·.name))).addRoutines none
          program.routines = .error (.undefinedTarget callee) :=
        Layout.addRoutines_of_unknown none hunknown
      rw [hfails]
      exact .undefinedTarget hunknown
  | none =>
      obtain ⟨layout, found, hbuilt, hentry, hwell⟩ :=
        exists_built (unknownCallee?_eq_none_iff.mp hunknown)
      rw [hbuilt]
      cases found with
      | none => exact .missingEntry hunknown fun hmain => Bool.false_ne_true (hentry.mpr hmain)
      | some entry =>
          have hmain := hentry.mp rfl
          dsimp only
          by_cases hlabelled : (layout.addLiterals 0 program.literals.texts).WellLabelled
          · rw [Layout.finish, if_pos hlabelled]
            exact .image hunknown hmain (hwell.mp hlabelled)
          · rw [Layout.finish, if_neg hlabelled]
            exact .badLabel hunknown hmain (mt hwell.mpr hlabelled)

/-- A program is laid out if and only if all of its calls have targets, it has a `main`, no label is
bound twice, and each label that is referred to is bound. If several of these fail, the error is
the first one in this order, and of several calls without targets it names the first. -/
theorem assemble_iff :
    (∀ callee, program.assemble = .error (.undefinedTarget callee) ↔
      program.unknown? = some callee) ∧
    (program.assemble = .error .missingEntry ↔ program.unknown? = none ∧ ¬ program.HasMain) ∧
    (program.assemble = .error .badLabel ↔
      program.unknown? = none ∧ program.HasMain ∧ ¬ program.WellLabelled) ∧
    ((∃ image, program.assemble = .ok image) ↔
      program.unknown? = none ∧ program.HasMain ∧ program.WellLabelled) := by
  have h := program.laysOut_assemble
  generalize program.assemble = result at h ⊢
  cases h with
  | undefinedTarget hunknown => simp [hunknown]
  | missingEntry hknown hmain => simp [hknown, hmain]
  | badLabel hknown hmain hlabels => simp [hknown, hmain, hlabels]
  | image hknown hmain hlabels => simp [hknown, hmain, hlabels]

end AsmProgram

end ThreeAddress
