import ThreeAddress.Proofs.Lowering.Labels
import ThreeAddress.Proofs.Lowering.Mentions
import ThreeAddress.Proofs.Native.Straight

/-!
# The calling convention

The code of a function saves every register of its caller that any of its
instructions can change, and gives it back at each of its returns. This needs
nothing of the assignment but that no destination lives in a register that the
generated code uses for itself.
-/

namespace ThreeAddress

namespace Placed

open Emission

variable {placed : Placed} {frame : Slots}

/-! ## The code keeps to the frame -/

section Code

variable {Literal : Type} {items rest : List (Item Literal)} {words : Slots}
  {registers : List Register}

theorem conforms_append (hitems : ∀ item ∈ items, item.Tame frame)
    (hrest : Conforms frame frame rest) : Conforms frame frame (items ++ rest) := by
  induction items with
  | nil => exact hrest
  | cons item items ih =>
      exact .tame (hitems item List.mem_cons_self)
        (ih fun other hother => hitems other (List.mem_cons_of_mem _ hother))

theorem conforms_pushes (hsaved : ∀ register ∈ registers, register.isCalleeSaved = true)
    (hnodup : registers.Nodup) (hnew : ∀ register ∈ registers, some register ∉ words)
    (hrest : Conforms frame (registers.reverse.map some ++ words) rest) :
    Conforms frame words (registers.map (fun register => .instr (.push register)) ++ rest) := by
  induction registers generalizing words with
  | nil => exact hrest
  | cons first others ih =>
      obtain ⟨hfirst, hnodup⟩ := List.nodup_cons.mp hnodup
      obtain ⟨hfirstSaved, hsaved⟩ := List.forall_mem_cons.mp hsaved
      obtain ⟨hfirstNew, hnew⟩ := List.forall_mem_cons.mp hnew
      refine .push hfirstSaved hfirstNew (ih hsaved hnodup (fun register hregister => ?_) ?_)
      · rw [List.mem_cons, not_or]
        refine ⟨fun heq => hfirst ?_, hnew register hregister⟩
        exact Option.some.inj heq ▸ hregister
      · simpa using hrest

theorem conforms_pops (hsaved : ∀ register ∈ registers, register.isCalleeSaved = true)
    (hrest : Conforms frame words rest) :
    Conforms frame (registers.map some ++ words)
      (registers.map (fun register => .instr (.pop register)) ++ rest) := by
  induction registers with
  | nil => exact hrest
  | cons first others ih =>
      obtain ⟨hfirst, hothers⟩ := List.forall_mem_cons.mp hsaved
      exact .pop hfirst (ih hothers)

end Code

theorem isCalleeSaved_of_mem_saved {register : Register} (h : register ∈ placed.saved) :
    register.isCalleeSaved = true := by
  have hall : ∀ register ∈ Register.calleeSaved, register.isCalleeSaved = true := by decide
  exact hall register (List.mem_of_mem_filter h)

theorem conforms_epilogue {rest : List (Item String)}
    (hrest : rest = [] ∨ Conforms placed.slots placed.slots rest) :
    Conforms placed.slots placed.slots (placed.epilogue.code ++ rest) := by
  have hret : Conforms placed.slots [] ([.instr .ret] ++ rest) := by
    rcases hrest with rfl | hrest
    · exact .last
    · exact .ret hrest
  have hsaved : ∀ register ∈ placed.saved.reverse, register.isCalleeSaved = true :=
    fun register hregister => isCalleeSaved_of_mem_saved (List.mem_reverse.mp hregister)
  have hpops := conforms_pops hsaved hret
  rw [List.append_nil, ← List.append_assoc] at hpops
  rw [epilogue_code, List.append_assoc]
  generalize hframe : placed.slots = frame at hpops ⊢
  rcases placed.framing_cases .addSp with ⟨hslots, hcode⟩ | ⟨hslots, hcode⟩
  · rw [hcode]
    nth_rewrite 2 [← hframe]
    rw [hslots]
    exact .release hpops
  · rw [hcode]
    nth_rewrite 2 [← hframe]
    rw [hslots]
    exact hpops

theorem straight_parameterMoves (hallocatable : placed.Allocatable) :
    (moveAll placed.parameterMoves).Straight placed.slots := by
  refine straight_moveAll fun move hmove => ?_
  obtain ⟨dest, _, _, hregister⟩ := mem_parameterMoves.mp hmove
  exact frees_register hallocatable hregister

theorem conforms_prologue (hallocatable : placed.Allocatable)
    (hresult : placed.prologue.result = .ok ()) {rest : List (Item String)}
    (hrest : Conforms placed.slots placed.slots rest) :
    Conforms placed.slots [] (placed.prologue.code ++ rest) := by
  have hbody := conforms_append
    (fun item hitem => (straight_parameterMoves hallocatable item hitem).tame) hrest
  rw [(prologue_eq hresult).2.2, List.append_assoc, List.append_assoc]
  refine conforms_pushes (fun register => isCalleeSaved_of_mem_saved)
    ((show Register.calleeSaved.Nodup by decide).sublist placed.saved_sublist)
    (fun _ _ => List.not_mem_nil) ?_
  rw [List.append_nil]
  generalize hframe : placed.slots = frame at hbody ⊢
  rcases placed.framing_cases .subSp with ⟨hslots, hcode⟩ | ⟨hslots, hcode⟩
  · rw [hcode]
    refine .reserve (by simp) ?_
    rw [← hslots, hframe]
    exact hbody
  · rw [hcode, ← hslots, hframe]
    exact hbody

/-- The code of instructions keeps to the frame if something follows it that does, or nothing
follows a return. -/
theorem conforms_insts (hallocatable : placed.Allocatable) {insts : List Inst}
    {rest : List (Item String)} (hresult : ∀ inst ∈ insts, (placed.inst inst).result = .ok ())
    (hrest : Conforms placed.slots placed.slots rest ∨
      rest = [] ∧ ∃ value, insts.getLast? = some (.ret value)) :
    Conforms placed.slots placed.slots
      ((insts.flatMap fun inst => (placed.inst inst).code) ++ rest) := by
  induction insts with
  | nil =>
      rcases hrest with hrest | ⟨_, _, hlast⟩
      · exact hrest
      · cases hlast
  | cons inst others ih =>
      obtain ⟨hinst, hothers⟩ := List.forall_mem_cons.mp hresult
      have hafter : (∀ value, inst ≠ .ret value) ∨ others ≠ [] →
          Conforms placed.slots placed.slots
            ((others.flatMap fun inst => (placed.inst inst).code) ++ rest) := by
        intro hnot
        refine ih hothers (hrest.imp_right fun ⟨hrest, value, hlast⟩ => ⟨hrest, value, ?_⟩)
        cases others with
        | nil =>
            rcases hnot with hnot | hnot
            · exact absurd (Option.some.inj hlast) (hnot value)
            · exact absurd rfl hnot
        | cons => rwa [List.getLast?_cons_cons] at hlast
      have hshaped := shaped_inst hallocatable hinst
      rw [List.flatMap_cons, List.append_assoc]
      generalize (placed.inst inst).code = items at hshaped ⊢
      cases hshaped with
      | straight hstraight _ _ hret =>
          exact conforms_append (fun item hitem => (hstraight item hitem).tame) (hafter (.inl hret))
      | label name => exact .tame (List.forall_mem_nil _) (hafter (.inl nofun))
      | jump htarget hbefore hcode =>
          rw [List.append_assoc]
          refine conforms_append (fun item hitem => (hbefore item hitem).tame)
            (.tame ?_ (hafter (.inl ?_)))
          · intro register hregister
            rw [Item.writes, Instr.writes_of_target? hcode] at hregister
            cases hregister
          · rintro value rfl
            cases htarget
      | ret hbefore =>
          rw [List.append_assoc]
          refine conforms_append (fun item hitem => (hbefore item hitem).tame)
            (conforms_epilogue ?_)
          by_cases hothers : others = []
          · subst hothers
            exact hrest.symm.imp_left And.left
          · exact .inr (hafter (.inr hothers))

theorem conforms_code (hallocatable : placed.Allocatable) (hwritten : placed.Written) :
    Conforms placed.slots [] placed.code.code := by
  rw [hwritten.code, codeBefore, List.take_length, List.append_assoc]
  refine conforms_prologue hallocatable hwritten.prologue
    (conforms_insts hallocatable hwritten.inst ?_)
  cases hfalls : placed.function.fallsThrough with
  | true =>
      have hepilogue : Conforms placed.slots placed.slots (placed.epilogue.code ++ []) :=
        conforms_epilogue (.inl rfl)
      rw [List.append_nil] at hepilogue
      exact .inl hepilogue
  | false =>
      refine .inr ⟨rfl, ?_⟩
      unfold Function.fallsThrough at hfalls
      split at hfalls
      next value hlast => exact ⟨value, hlast⟩
      next => cases hfalls

end Placed

/-! ## Labels and jumps -/

namespace Item

variable {Literal Literal' : Type}

/-- The label that stands there. -/
def label? : Item Literal → Option String
  | .label name => some name
  | .instr _ => none

/-- The label that a jump goes to. -/
def target? : Item Literal → Option String
  | .label _ => none
  | .instr code => code.target?

theorem label?_eq_some_iff {item : Item Literal} {name : String} :
    item.label? = some name ↔ item = .label name := by
  cases item <;> simp [label?]

@[simp] theorem label?_mapLiteral (item : Item Literal) (literal : Literal → Literal') :
    (item.mapLiteral literal).label? = item.label? := by
  cases item <;> rfl

@[simp] theorem target?_mapLiteral (item : Item Literal) (literal : Literal → Literal') :
    (item.mapLiteral literal).target? = item.target? := by
  cases item with
  | label => rfl
  | instr code => cases code <;> rfl

@[simp] theorem writes_mapLiteral (item : Item Literal) (literal : Literal → Literal') :
    (item.mapLiteral literal).writes = item.writes := by
  cases item with
  | label => rfl
  | instr code => exact code.writes_map id id literal

theorem label?_eq (item : Item Literal) : item.label? = item.mention?.bind Mention.label? := by
  cases item with
  | label => rfl
  | instr code => cases code <;> rfl

theorem mention?_of_target? {item : Item Literal} {target : String}
    (h : item.target? = some target) : item.mention? = some (.target target) := by
  cases item with
  | label => cases h
  | instr code =>
      cases code with
      | jmp | jcc => rw [← Option.some.inj h]; rfl
      | _ => cases h

theorem index_unique {items : List (Item Literal)} (hnodup : (items.filterMap label?).Nodup)
    {first second : Nat} {name : String} (hfirst : items[first]? = some (.label name))
    (hsecond : items[second]? = some (.label name)) : first = second := by
  have hmem : ∀ (rest : List (Item Literal)) {index : Nat}, rest[index]? = some (.label name) →
      name ∈ rest.filterMap label? := fun _ _ h =>
    List.mem_filterMap.mpr ⟨_, List.mem_of_getElem? h, rfl⟩
  induction items generalizing first second with
  | nil => cases hfirst
  | cons item rest ih =>
      cases first with
      | zero =>
          cases second with
          | zero => rfl
          | succ second =>
              obtain rfl := Option.some.inj hfirst
              exact absurd (hmem rest hsecond) (List.nodup_cons.mp hnodup).1
      | succ first =>
          cases second with
          | zero =>
              obtain rfl := Option.some.inj hsecond
              exact absurd (hmem rest hfirst) (List.nodup_cons.mp hnodup).1
          | succ second =>
              refine congrArg (· + 1) (ih ?_ hfirst hsecond)
              cases item with
              | label => exact (List.nodup_cons.mp hnodup).2
              | instr => exact hnodup

end Item

theorem Conforms.mapLiteral {Literal Literal' : Type} {frame slots : Slots}
    {items : List (Item Literal)} (h : Conforms frame slots items)
    (literal : Literal → Literal') :
    Conforms frame slots (items.map (·.mapLiteral literal)) := by
  induction h with
  | tame htame _ ih =>
      refine .tame (fun register hregister => htame register ?_) ih
      rwa [Item.writes_mapLiteral] at hregister
  | push hsaved hnew _ ih => exact .push hsaved hnew ih
  | reserve hnew _ ih => exact .reserve hnew ih
  | release _ ih => exact .release ih
  | pop hsaved _ ih => exact .pop hsaved ih
  | ret _ ih => exact .ret ih
  | last => exact .last

namespace Placed

variable {placed : Placed}

theorem labels_code (hresult : placed.code.result = .ok ()) :
    placed.code.code.filterMap Item.label? =
      placed.function.labels.map (localLabel placed.function.name) := by
  rw [← placed.labels_mentions, ← placed.writes_code.mentions () hresult, List.filterMap_filterMap]
  exact List.filterMap_congr fun item _ => item.label?_eq

/-- Each jump in the code goes to a label that an instruction names. -/
theorem target_code (hresult : placed.code.result = .ok ()) {item : Item String}
    (hitem : item ∈ placed.code.code) {target : String} (htarget : item.target? = some target) :
    ∃ inst ∈ placed.function.code, ∃ name, inst.target? = some name ∧
      target = localLabel placed.function.name name := by
  have hmention : Mention.target target ∈ placed.function.code.flatMap placed.mentions := by
    rw [← placed.writes_code.mentions () hresult]
    exact List.mem_filterMap.mpr ⟨item, hitem, Item.mention?_of_target? htarget⟩
  cases names_of_mem hmention with
  | target hinst hname => exact ⟨_, hinst, _, hname, rfl⟩

/-- On every path through its code a function keeps the calling convention, whatever registers its
destinations live in. -/
theorem keepsConvention_of_routine (hallocatable : placed.Allocatable)
    (hlabels : placed.function.labels.Nodup)
    (htargets : ∀ inst ∈ placed.function.code, ∀ target, inst.target? = some target →
      target ∈ placed.function.labels)
    {pool : LiteralPool} {routine : Routine} (hroutine : (placed.routine pool).1 = .ok routine)
    {address : Nat → Int64} {start point : Point}
    (hpath : Path address routine.items start point) :
    KeepsConvention routine.items start point := by
  have hresult : placed.code.result = .ok () := by
    rw [Placed.routine_eq] at hroutine
    cases hcode : placed.code.result with
    | error => simp [hcode, Except.map] at hroutine
    | ok => rfl
  have hwritten := written_of_result hresult
  obtain ⟨literal, hitems⟩ : ∃ literal, routine.items =
      placed.code.code.map (·.mapLiteral literal) := by
    rw [Placed.routine_eq, hresult] at hroutine
    obtain rfl := Except.ok.inj hroutine
    exact ⟨_, (LiteralPool.number_eq pool _ (.refl _)).1⟩
  have hmapped : routine.items.filterMap Item.label? =
      placed.function.labels.map (localLabel placed.function.name) := by
    rw [hitems, List.filterMap_map, ← labels_code hresult]
    exact congrFun (congrArg List.filterMap (funext fun item => item.label?_mapLiteral literal)) _
  have hnodup : (routine.items.filterMap Item.label?).Nodup := by
    rw [hmapped]
    exact hlabels.map fun _ _ => localLabel_inj.mp
  have hconforms := (conforms_code hallocatable hwritten).mapLiteral literal
  rw [← hitems] at hconforms
  refine hconforms.keepsConvention placed.length_slots (fun code target hcode htarget => ?_) hpath
  rw [hitems] at hcode
  obtain ⟨item, hitem, hcode⟩ := List.mem_map.mp hcode
  have htarget' : item.target? = some target := by
    rw [← Item.target?_mapLiteral item literal, hcode]
    exact htarget
  obtain ⟨inst, hinst, name, hname, rfl⟩ := target_code hresult hitem htarget'
  have hmem : localLabel placed.function.name name ∈ routine.items.filterMap Item.label? := by
    rw [hmapped]
    exact List.mem_map_of_mem (htargets inst hinst name hname)
  obtain ⟨label, hlabel, heq⟩ := List.mem_filterMap.mp hmem
  obtain ⟨index, hindex, rfl⟩ := List.mem_iff_getElem.mp hlabel
  have hget := (List.getElem?_eq_getElem hindex).trans
    (congrArg some (Item.label?_eq_some_iff.mp heq))
  exact ⟨index, hget, fun other hother => Item.index_unique hnodup hother hget⟩

/-- A function that changes a register of its caller and makes a call. -/
def calling : Placed where
  function :=
    { name := "line", params := ["n"], locals := [],
      code := [.call "printStr" [.var "n"] none, .ret none] }
  assignment := .ofList [(.var "n", some .rbx)]

theorem keepsConvention_of_routine_calling :
    ∃ routine start point, (calling.routine .empty).1 = .ok routine ∧
      Path (fun _ => 0) routine.items start point ∧
      routine.items[point.index]? = some (.instr .ret) ∧
      KeepsConvention routine.items start point := by
  have hallocatable : calling.Allocatable := by
    intro dest register hregister
    have hentry : (if Dest.var "n" = dest then some Register.rbx else none) = some register :=
      hregister
    split at hentry
    next => exact Option.some.inj hentry ▸ by decide
    next => cases hentry
  have hroutine : (calling.routine .empty).1 = .ok ⟨"line", [.instr (.push .rbx),
      .instr (.mov .rdi .rbx), .instr (.mov .rbx .rdi), .instr (.call "printStr"),
      .instr (.pop .rbx), .instr .ret]⟩ := rfl
  generalize hitems : [Item.instr (.push .rbx), .instr (.mov .rdi .rbx), .instr (.mov .rbx .rdi),
    .instr (.call "printStr"), .instr (.pop .rbx), .instr (.ret : Instr _ _ Nat)] = items
    at hroutine
  have hstart : Path (fun _ => 0) items ⟨0, default, .zeroed⟩ ⟨0, default, .zeroed⟩ :=
    ⟨rfl, .refl⟩
  have hmove : ∀ {point : Point} {src dst : Register},
      Path (fun _ => 0) items ⟨0, default, .zeroed⟩ point →
      items[point.index]? = some (.instr (.mov src dst)) →
      Path (fun _ => 0) items ⟨0, default, .zeroed⟩
        { point with
          index := point.index + 1
          registers := point.registers.set dst (point.get src) } :=
    fun {point _ _} hpoint hitem =>
      hpoint.tail (.compute hitem (show (Cpu.mk point.registers none).exec? _ = _ from rfl))
  have hpush := hstart.tail (.stack (by rw [← hitems]; rfl) rfl)
  have hmoved := hmove (hmove hpush (by rw [← hitems]; rfl)) (by rw [← hitems]; rfl)
  have hcall := hmoved.tail
    (.call (by rw [← hitems]; rfl) rfl (fun _ _ => rfl) fun _ _ => rfl)
  have hpop := hcall.tail (.stack (by rw [← hitems]; rfl) rfl)
  exact ⟨_, _, _, hroutine, hpop, by rw [← hitems]; rfl,
    keepsConvention_of_routine hallocatable (by decide) (by decide) hroutine hpop⟩

end Placed

end ThreeAddress
