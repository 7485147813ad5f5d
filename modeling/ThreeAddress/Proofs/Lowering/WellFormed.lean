import ThreeAddress.Proofs.Lowering.Labels
import ThreeAddress.Proofs.Lowering.Literals
import ThreeAddress.Proofs.Lowering.Mentions

/-!
# Well-formed programs are laid out

Whatever registers its destinations are given, the names in the code of a
well-formed program stand for one thing each, so it is laid out once it is
compiled. Functions, labels and literals are told apart by the beginning of their
labels, and labels of different functions by the names of the functions, as long as
these do not begin with digits.
-/

namespace ThreeAddress

/-- There is a `main`, functions have different names, which do not begin with a digit, labels are
declared once in their functions, and jumps and calls go to what is declared. -/
structure Program.WellFormed (program : Program) : Prop where
  main : ∃ function ∈ program.functions, function.name = "main"
  names : (program.functions.map (·.name)).Nodup
  digits : ∀ function ∈ program.functions,
    function.name.toList.head?.any Char.isDigit = false
  labels : ∀ function ∈ program.functions, function.labels.Nodup
  targets : ∀ function ∈ program.functions, ∀ inst ∈ function.code, ∀ target ∈ inst.target?,
    target ∈ function.labels
  callees : ∀ function ∈ program.functions, ∀ inst ∈ function.code, ∀ callee ∈ inst.callee?,
    (Builtin.ofName? callee).isSome = true ∨ callee ∈ program.functions.map (·.name)

instance (program : Program) : Decidable program.WellFormed :=
  decidable_of_iff (_ ∧ _ ∧ _ ∧ _ ∧ _ ∧ _)
    ⟨fun ⟨main, names, digits, labels, targets, callees⟩ =>
      ⟨main, names, digits, labels, targets, callees⟩,
    fun ⟨main, names, digits, labels, targets, callees⟩ =>
      ⟨main, names, digits, labels, targets, callees⟩⟩

/-! ## Beginnings of labels -/

theorem routineLabel_ne_localLabel (name function label : String) :
    routineLabel name ≠ localLabel function label := by
  intro h
  have hhead := congrArg (·.toList.head?) h
  simp [routineLabel, localLabel] at hhead

theorem literalLabel_ne_localLabel (index : Nat) (function label : String) :
    literalLabel index ≠ localLabel function label := by
  intro h
  have hhead := congrArg (·.toList.head?) h
  simp [literalLabel, localLabel] at hhead

theorem literalLabel_ne_routineLabel (index : Nat) (name : String) :
    literalLabel index ≠ routineLabel name := by
  intro h
  have hhead := congrArg (·.toList.head?) h
  simp [literalLabel, routineLabel] at hhead

theorem routineLabel_inj {name other : String} :
    routineLabel name = routineLabel other ↔ name = other :=
  String.append_right_inj _

theorem literalLabel_inj {index other : Nat} :
    literalLabel index = literalLabel other ↔ index = other :=
  (String.append_right_inj _).trans toString_inj

/-- Labels of functions whose names do not begin with digits are different. -/
theorem eq_of_localLabel_eq {function label other otherLabel : String}
    (hfunction : function.toList.head?.any Char.isDigit = false)
    (hother : other.toList.head?.any Char.isDigit = false)
    (h : localLabel function label = localLabel other otherLabel) : function = other := by
  rcases eq_or_overlaps_of_localLabel_eq h with ⟨hsame, _⟩ | hoverlaps | hoverlaps
  · exact hsame
  · obtain ⟨char, hchar, hdigit⟩ := hoverlaps.exists_digit
    rw [Option.mem_def.mp hchar] at hfunction
    cases hfunction.symm.trans hdigit
  · obtain ⟨char, hchar, hdigit⟩ := hoverlaps.exists_digit
    rw [Option.mem_def.mp hchar] at hother
    cases hother.symm.trans hdigit

/-! ## Names in routines -/

/-- The labels that are bound where the code of a function is laid out. -/
def Function.bound (function : Function) : List String :=
  routineLabel function.name :: function.labels.map (localLabel function.name)

namespace Program.Compiles

variable {allocator : Allocator} {literals : LiteralPool} {function : Function} {routine : Routine}

/-- The names in a routine are those of its function. -/
theorem exists_placed (h : Compiles allocator literals function routine) :
    ∃ placed : Placed, placed.function = function ∧ routine.name = function.name ∧
      routine.mentions =
        (function.code.flatMap placed.mentions).map (Mention.mapLiteral literals.indexOf) ∧
      ∀ text, .literal text ∈ function.code.flatMap placed.mentions → text ∈ literals.texts := by
  cases h with
  | @intro assignment _ hresult hmem =>
      have hmentions := (Placed.mk function assignment).writes_code.mentions () hresult
      refine ⟨⟨function, assignment⟩, rfl, rfl, ?_, fun text htext => ?_⟩
      · rw [Routine.mentions, List.filterMap_map, ← hmentions, List.map_filterMap]
        exact List.filterMap_congr fun item _ => item.mention?_mapLiteral literals.indexOf
      · rw [← hmentions] at htext
        obtain ⟨item, hitem, hmention⟩ := List.mem_filterMap.mp htext
        refine hmem item hitem text ?_
        rw [item.literal?_eq, hmention]
        rfl

theorem bound_eq (h : Compiles allocator literals function routine) :
    routine.bound = function.bound := by
  obtain ⟨placed, rfl, hname, hmentions, _⟩ := h.exists_placed
  have hlabel : (Mention.label? ∘ Mention.mapLiteral literals.indexOf) =
      (Mention.label? : Mention String → Option String) := funext fun mention => by
    cases mention <;> rfl
  rw [Routine.bound, Function.bound, hname, hmentions, List.filterMap_map, hlabel,
    placed.labels_mentions]

/-- What a routine mentions comes from an instruction of its function, or is in the pool. -/
theorem names_of_mem (h : Compiles allocator literals function routine) {mention : Mention Nat}
    (hmention : mention ∈ routine.mentions) : function.Names (· < literals.size) mention := by
  obtain ⟨placed, rfl, _, hmentions, hliterals⟩ := h.exists_placed
  rw [hmentions] at hmention
  obtain ⟨written, hwritten, rfl⟩ := List.mem_map.mp hmention
  exact (Placed.names_of_mem hwritten).mapLiteral fun text htext =>
    LiteralPool.indexOf_lt (hliterals text htext)

end Program.Compiles

/-! ## Programs -/

namespace Program

variable {program : Program} {allocator : Allocator} {asm : AsmProgram}

theorem names_of_compile (h : program.compile allocator = .ok asm) :
    asm.routines.map (·.name) = program.functions.map (·.name) :=
  map_eq_of_forall₂ (compile_eq_ok h) fun _ _ hcompiles => by
    obtain ⟨_, _, hname, _⟩ := hcompiles.exists_placed
    exact hname

theorem bound_of_compile (h : program.compile allocator = .ok asm) :
    asm.bound = program.functions.flatMap Function.bound ++
      (List.range asm.literals.size).map literalLabel := by
  rw [AsmProgram.bound, List.flatMap_def, List.flatMap_def,
    map_eq_of_forall₂ (compile_eq_ok h) fun _ _ hcompiles => hcompiles.bound_eq]

theorem mem_bound_iff {function : Function} {label : String} :
    label ∈ function.bound ↔ label = routineLabel function.name ∨
      ∃ name ∈ function.labels, localLabel function.name name = label := by
  rw [Function.bound, List.mem_cons, List.mem_map]

/-- No label is bound in the code of two functions. -/
theorem WellFormed.disjoint_bound (h : program.WellFormed) {function other : Function}
    (hfunction : function ∈ program.functions) (hother : other ∈ program.functions)
    (hne : function.name ≠ other.name) : List.Disjoint function.bound other.bound := by
  intro label hleft hright
  rcases mem_bound_iff.mp hleft with rfl | ⟨name, _, rfl⟩
  · rcases mem_bound_iff.mp hright with heq | ⟨otherName, _, heq⟩
    · exact hne (routineLabel_inj.mp heq)
    · exact routineLabel_ne_localLabel _ _ _ heq.symm
  · rcases mem_bound_iff.mp hright with heq | ⟨otherName, _, heq⟩
    · exact routineLabel_ne_localLabel _ _ _ heq.symm
    · exact hne (eq_of_localLabel_eq (h.digits function hfunction) (h.digits other hother) heq.symm)

/-- No label is bound twice. -/
theorem WellFormed.nodup_bound (h : program.WellFormed) (count : Nat) :
    (program.functions.flatMap Function.bound ++
      (List.range count).map literalLabel).Nodup := by
  refine List.nodup_append.mpr ⟨List.nodup_flatMap.mpr ⟨?_, ?_⟩, ?_, ?_⟩
  · intro function hfunction
    refine List.nodup_cons.mpr ⟨fun hmem => ?_, ?_⟩
    · obtain ⟨name, _, heq⟩ := List.mem_map.mp hmem
      exact routineLabel_ne_localLabel _ _ _ heq.symm
    · exact (h.labels function hfunction).map fun _ _ => localLabel_inj.mp
  · exact (List.pairwise_map.mp h.names).imp_of_mem fun hfunction hother hne =>
      h.disjoint_bound hfunction hother hne
  · exact List.nodup_range.map fun _ _ => literalLabel_inj.mp
  · rintro label hlabel _ hliteral rfl
    obtain ⟨function, _, hbound⟩ := List.mem_flatMap.mp hlabel
    obtain ⟨index, _, rfl⟩ := List.mem_map.mp hliteral
    rcases mem_bound_iff.mp hbound with heq | ⟨name, _, heq⟩
    · exact literalLabel_ne_routineLabel _ _ heq
    · exact literalLabel_ne_localLabel _ _ _ heq.symm

/-- The names in the code of a well-formed program stand for something. -/
theorem WellFormed.resolvable (h : program.WellFormed)
    (hcompile : program.compile allocator = .ok asm) : asm.Resolvable := by
  have hfunctions : ∀ routine ∈ asm.routines, ∃ function ∈ program.functions,
      Compiles allocator asm.literals function routine := fun routine hroutine =>
    mem_of_forall₂ (compile_eq_ok hcompile).flip hroutine
  have hroutine : ∀ {name}, name ∈ program.functions.map (·.name) →
      routineLabel name ∈ program.functions.flatMap Function.bound := by
    intro name hname
    obtain ⟨function, hfunction, rfl⟩ := List.mem_map.mp hname
    exact List.mem_flatMap.mpr ⟨function, hfunction, List.mem_cons_self⟩
  refine ⟨?_, ?_, ?_, ?_⟩
  · obtain ⟨function, hfunction, hname⟩ := h.main
    have hmain : "main" ∈ asm.routines.map (·.name) := by
      rw [names_of_compile hcompile]
      exact List.mem_map.mpr ⟨function, hfunction, hname⟩
    exact List.mem_map.mp hmain
  · intro callee hcallee
    obtain ⟨routine, hroutine, hmem⟩ := List.mem_flatMap.mp hcallee
    obtain ⟨function, hfunction, hcompiles⟩ := hfunctions routine hroutine
    obtain ⟨mention, hmention, hname⟩ := List.mem_filterMap.mp hmem
    rw [names_of_compile hcompile]
    cases hcompiles.names_of_mem hmention with
    | @callee inst _ hinst hcalled =>
        obtain rfl := Option.some.inj hname
        exact h.callees function hfunction inst hinst _ hcalled
    | _ => cases hname
  · rw [bound_of_compile hcompile]
    exact h.nodup_bound _
  · intro label hlabel
    rw [bound_of_compile hcompile, List.mem_append]
    obtain ⟨routine, hmember, hmem⟩ := List.mem_flatMap.mp hlabel
    obtain ⟨function, hfunction, hcompiles⟩ := hfunctions routine hmember
    obtain ⟨mention, hmention, hreference⟩ := List.mem_filterMap.mp hmem
    cases hcompiles.names_of_mem hmention with
    | label => cases hreference
    | @target inst name hinst htarget =>
        obtain rfl := Option.some.inj hreference
        refine .inl (List.mem_flatMap.mpr ⟨function, hfunction, mem_bound_iff.mpr (.inr ?_)⟩)
        exact ⟨name, h.targets function hfunction inst hinst name htarget, rfl⟩
    | @callee inst _ hinst hcallee =>
        simp only [Mention.reference?] at hreference
        split at hreference
        next => cases hreference
        next hbuiltin =>
          obtain rfl := Option.some.inj hreference
          have hknown := h.callees function hfunction inst hinst _ hcallee
          exact .inl (hroutine (hknown.resolve_left hbuiltin))
    | literal hindex =>
        obtain rfl := Option.some.inj hreference
        exact .inr (List.mem_map_of_mem (List.mem_range.mpr hindex))

/-- A well-formed program is laid out once it is compiled, whatever registers its destinations are
given: no label is bound twice, and what its jumps, its calls and its code for literals refer to is
there. -/
theorem WellFormed.assembles (h : program.WellFormed)
    (hcompile : program.compile allocator = .ok asm) :
    asm.Resolvable ∧ ∃ image, asm.assemble = .ok image :=
  ⟨h.resolvable hcompile, (h.resolvable hcompile).exists_image⟩

/-- Functions and labels whose names look like labels of routines, literals and other labels. -/
def disguised : Program where
  functions := [
    { name := "main", params := [], locals := [],
      code := [
        .label "",
        .call "fn:main" [] none,
        .call "lit:0" [.str "lit:1", .str ""] none,
        .call "" [] none,
        .label "fn:main",
        .ret none] },
    { name := "fn:main", params := [], locals := [],
      code := [.label "lit:0", .ret none] },
    { name := "lit:0", params := ["x", "y"], locals := [],
      code := [
        .branch .eq (.int 0) (.int 1) ".L4main.",
        .call "printStr" [.var "x"] none,
        .label ".L4main.",
        .ret none] },
    { name := "", params := [], locals := [],
      code := [.jump "", .label "", .ret (some (.int 0))] }]

theorem WellFormed.assembles_disguised :
    disguised.WellFormed ∧ ∃ asm, disguised.compile LinearScan.standard.assign = .ok asm ∧
      asm.bound = ["fn:main", ".L4main.", ".L4main.fn:main", "fn:fn:main", ".L7fn:main.lit:0",
        "fn:lit:0", ".L5lit:0..L4main.", "fn:", ".L0.", "lit:0", "lit:1"] ∧
      ∃ image, asm.assemble = .ok image := by
  have hwellFormed : disguised.WellFormed := by decide
  have hcompiled : (match disguised.compile LinearScan.standard.assign with
      | .ok asm => decide (asm.bound = ["fn:main", ".L4main.", ".L4main.fn:main", "fn:fn:main",
          ".L7fn:main.lit:0", "fn:lit:0", ".L5lit:0..L4main.", "fn:", ".L0.", "lit:0", "lit:1"])
      | .error _ => false) = true := by decide +kernel
  split at hcompiled
  next asm hasm =>
    exact ⟨hwellFormed, asm, hasm, of_decide_eq_true hcompiled, (hwellFormed.assembles hasm).2⟩
  next => cases hcompiled

end Program

end ThreeAddress
