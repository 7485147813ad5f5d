import ThreeAddress.Proofs.Asm.Resolution
import ThreeAddress.Proofs.Lowering.Passing

/-!
# What code mentions

The labels, jumps, calls and literals in the code of a function are those of its
instructions, in order. An instruction whose destination has no register mentions
nothing, and of two operands the right one comes first. This needs nothing of the
assignment, and where the assignment does not allow for the code, the first operand
without a register is the reason.
-/

namespace ThreeAddress

/-- Why there is no result, if there is none. -/
def CompileError.of? {α : Type} : Except CompileError α → Option CompileError
  | .ok _ => none
  | .error error => some error

namespace CompileError

variable {α : Type} {result : Except CompileError α}

theorem of?_eq_none_iff : of? result = none ↔ ∃ value, result = .ok value := by
  cases result <;> simp [of?]

theorem of?_eq_some_iff {error : CompileError} :
    of? result = some error ↔ result = .error error := by
  cases result <;> simp [of?]

end CompileError

theorem findSome?_cons_eq_or {α β : Type} (find? : α → Option β) (first : α) (rest : List α) :
    (first :: rest).findSome? find? = (find? first).or (rest.findSome? find?) := by
  rw [List.findSome?_cons]
  cases find? first <;> rfl

/-! ## Mentions of written code -/

namespace Emission

variable {α β : Type} {failure failure' : Option CompileError}
  {mentions more : List (Mention String)}

/-- The code mentions this and nothing else, if it could be written. -/
def Mentions (emission : Emission α) (mentions : List (Mention String)) : Prop :=
  ∀ value, emission.result = .ok value → emission.code.filterMap Item.mention? = mentions

/-- Writing fails with this error, or without one the code mentions this and nothing else. -/
structure Writes (emission : Emission α) (failure : Option CompileError)
    (mentions : List (Mention String)) : Prop where
  ends : CompileError.of? emission.result = failure
  mentions : emission.Mentions mentions

theorem Writes.congr {emission : Emission α} (h : emission.Writes failure mentions)
    (hfailure : failure = failure') (hmentions : mentions = more) :
    emission.Writes failure' more :=
  hfailure ▸ hmentions ▸ h

theorem Writes.pure (value : α) : (Pure.pure value : Emission α).Writes none [] :=
  ⟨rfl, fun _ _ => rfl⟩

theorem Writes.fail (error : CompileError) :
    (Emission.fail error : Emission α).Writes (some error) mentions :=
  ⟨rfl, fun _ hresult => nomatch hresult⟩

theorem Writes.item (item : Item String) :
    (Emission.item item).Writes none item.mention?.toList := by
  refine ⟨rfl, fun _ _ => ?_⟩
  cases h : item.mention? with
  | none => exact List.filterMap_cons_none h
  | some mention => exact List.filterMap_cons_some h

theorem Writes.instr (code : Instr String String String) :
    (Emission.instr code).Writes none code.mention?.toList :=
  .item (.instr code)

theorem Writes.bind {first : Emission α} {next : α → Emission β} (h : first.Writes failure mentions)
    (hnext : ∀ value, (next value).Writes failure' more) :
    (first >>= next).Writes (failure.or failure') (mentions ++ more) := by
  constructor
  · rw [← h.ends]
    simp only [Bind.bind, Emission.bind]
    cases first.result with
    | error => rfl
    | ok value => exact (hnext value).ends
  · intro result hresult
    obtain ⟨value, hvalue, hresult⟩ := bind_result_eq_ok.mp hresult
    rw [code_bind_ok hvalue, List.filterMap_append, h.mentions value hvalue,
      (hnext value).mentions result hresult]

/-- What comes first mentions nothing. -/
theorem Writes.after {first : Emission α} {next : α → Emission β} (h : first.Writes none [])
    (hnext : ∀ value, (next value).Writes failure mentions) :
    (first >>= next).Writes failure mentions :=
  h.bind hnext

/-- What comes next mentions nothing. -/
theorem Writes.before {first : Emission α} {next : α → Emission β}
    (h : first.Writes failure mentions) (hnext : ∀ value, (next value).Writes none []) :
    (first >>= next).Writes failure mentions :=
  (h.bind hnext).congr Option.or_none (List.append_nil mentions)

/-- What comes first only on a condition mentions nothing. -/
theorem Writes.optional (condition : Prop) [Decidable condition] {first : Emission Unit}
    {next : Unit → Emission β} (h : first.Writes none [])
    (hnext : ∀ value, (next value).Writes failure mentions) :
    (if condition then first >>= next else next ()).Writes failure mentions := by
  split
  next => exact h.after hnext
  next => exact hnext ()

/-- On a condition writing fails at once. -/
theorem Writes.failIf (condition : Prop) [Decidable condition] (error : CompileError)
    {next : Unit → Emission β} (hnext : ¬condition → (next ()).Writes failure mentions) :
    (if condition then Emission.fail error >>= next else next ()).Writes
      ((if condition then some error else none).or failure) mentions := by
  split
  next => exact ⟨rfl, fun _ hresult => nomatch hresult⟩
  next hcondition => exact hnext hcondition

theorem Writes.forM {items : List α} {write : α → Emission Unit}
    {failure : α → Option CompileError} {mentions : α → List (Mention String)}
    (h : ∀ item ∈ items, (write item).Writes (failure item) (mentions item)) :
    (items.forM write).Writes (items.findSome? failure) (items.flatMap mentions) := by
  induction items with
  | nil => exact .pure ()
  | cons item rest ih =>
      obtain ⟨hitem, hrest⟩ := List.forall_mem_cons.mp h
      exact (hitem.bind fun _ => ih hrest).congr (findSome?_cons_eq_or failure item rest).symm rfl

/-- Code for each item that does not fail. -/
theorem Writes.forM_ok {items : List α} {write : α → Emission Unit}
    {mentions : α → List (Mention String)}
    (h : ∀ item ∈ items, (write item).Writes none (mentions item)) :
    (items.forM write).Writes none (items.flatMap mentions) :=
  (Writes.forM h).congr (by simp) rfl

/-- Code for each item that mentions nothing. -/
theorem Writes.forM_nothing {items : List α} {write : α → Emission Unit}
    (h : ∀ item ∈ items, (write item).Writes none []) : (items.forM write).Writes none [] :=
  (Writes.forM_ok h).congr rfl (by simp)

end Emission

/-! ## Mentions of instructions -/

/-- What the code that loads a source mentions. -/
def Source.mentions : Source → List (Mention String)
  | .str text => [.literal text]
  | _ => []

/-- The label that an instruction declares. -/
def Inst.label? : Inst → Option String
  | .label name => some name
  | _ => none

theorem Function.labels_eq (function : Function) :
    function.labels = function.code.filterMap Inst.label? :=
  List.filterMap_congr fun inst _ => by cases inst <;> rfl

/-- The function or built-in that an instruction calls. -/
def Inst.callee? : Inst → Option String
  | .call callee _ _ => some callee
  | _ => none

/-- The operands of an instruction in the order in which they are loaded. -/
def Inst.loaded : Inst → List Source
  | .binary _ _ left right | .branch _ left right _ => [right, left]
  | inst => inst.sources

namespace Function

def overlongParameters? (function : Function) : Option CompileError :=
  if maxArguments < function.params.length then
    some (.tooManyParameters function.name function.params.length)
  else none

def overlongCall? (function : Function) : Inst → Option CompileError
  | .call callee args _ =>
      if maxArguments < args.length then
        some (.tooManyArguments function.name callee args.length)
      else none
  | _ => none

end Function

namespace Placed

open Emission

/-- An instruction has no code if its only effect is on a destination without a register. -/
def elides (placed : Placed) : Inst → Bool
  | .binary _ dst _ _ | .unary _ dst _ | .move dst _ | .load dst _ =>
      (placed.assignment.register? dst).isNone
  | _ => false

/-- The label that an instruction declares or goes to, or the function that it calls. -/
def named (placed : Placed) : Inst → List (Mention String)
  | .label name => [.label (localLabel placed.function.name name)]
  | .jump target | .branch _ _ _ target => [.target (localLabel placed.function.name target)]
  | .call callee _ _ => [.callee callee]
  | _ => []

/-- What the code of an instruction mentions: the texts among its operands, and then its name. -/
def mentions (placed : Placed) (inst : Inst) : List (Mention String) :=
  (if placed.elides inst then [] else inst.loaded.flatMap Source.mentions) ++ placed.named inst

/-- The error of reading a destination without a register. -/
def missing? (placed : Placed) (dest : Dest) : Option CompileError :=
  match placed.assignment.register? dest with
  | some _ => none
  | none => some (.unassignedOperand placed.function.name dest)

/-- The error of loading a source; literals have none. -/
def unloadable? (placed : Placed) (source : Source) : Option CompileError :=
  source.dest?.bind placed.missing?

/-- The error of lowering an instruction: that of a call with too many arguments, or else that of
the first operand that is loaded and cannot be. -/
def unlowerable? (placed : Placed) (inst : Inst) : Option CompileError :=
  (placed.function.overlongCall? inst).or
    (if placed.elides inst then none else inst.loaded.findSome? placed.unloadable?)

variable {placed : Placed}

theorem writes_move (src dst : Register) : (move src dst).Writes none [] := by
  unfold move Lowering.move
  split
  next => exact .pure ()
  next => exact .instr _

theorem writes_operand (placed : Placed) (dest : Dest) :
    (placed.operand dest).Writes (placed.missing? dest) [] := by
  unfold operand Lowering.operand missing?
  cases placed.assignment.register? dest with
  | none => exact .fail _
  | some register => exact .pure _

theorem writes_source (placed : Placed) (scratch : Register) (source : Source) :
    (placed.source scratch source).Writes (placed.unloadable? source) source.mentions := by
  cases source with
  | temp number => exact placed.writes_operand _
  | var name => exact placed.writes_operand _
  | int | bool | str => exact (Writes.instr _).before fun _ => .pure _

theorem writes_moveAll (moves : List Move) : (moveAll moves).Writes none [] :=
  .forM_nothing fun _ _ => writes_move _ _

theorem writes_prologue (placed : Placed) :
    placed.prologue.Writes placed.function.overlongParameters? [] := by
  have hsaved : (placed.saved.forM fun register => instr (.push register)).Writes none [] :=
    .forM_nothing fun _ _ => .instr _
  rw [← Option.or_none (o := placed.function.overlongParameters?)]
  unfold prologue Lowering.prologue
  refine .failIf (maxArguments < placed.function.params.length) _ fun _ => ?_
  refine hsaved.after fun _ => ?_
  exact .optional _ (.instr _) fun _ => writes_moveAll _

theorem writes_epilogue (placed : Placed) : placed.epilogue.Writes none [] := by
  have hsaved : (placed.saved.reverse.forM fun register => instr (.pop register)).Writes none [] :=
    .forM_nothing fun _ _ => .instr _
  exact .optional _ (.instr _) fun _ => hsaved.after fun _ => .instr _

theorem writes_compare (placed : Placed) (left right : Source) :
    (placed.compare left right).Writes
      ((placed.unloadable? right).or (placed.unloadable? left)) (right.mentions ++ left.mentions) :=
  (placed.writes_source _ right).bind fun _ =>
    (placed.writes_source _ left).before fun _ => .instr _

/-- The right operand may have to be moved out of the way. -/
theorem writes_guard (condition : Prop) [Decidable condition] {register : Register} {β : Type}
    {rest : Register → Emission β} {failure : Option CompileError}
    {mentioned : List (Mention String)} (h : ∀ guarded, (rest guarded).Writes failure mentioned) :
    (if condition then do
        move register .scratch
        let guarded ← pure Register.scratch
        rest guarded
      else do
        let guarded ← pure register
        rest guarded).Writes failure mentioned := by
  split
  next => exact (writes_move _ _).after fun _ => .after (.pure _) h
  next => exact .after (.pure _) h

theorem writes_division (placed : Placed) (dst : Register) (left right : Source) :
    (placed.division dst left right).Writes
      ((placed.unloadable? right).or (placed.unloadable? left))
      (right.mentions ++ left.mentions) := by
  refine (placed.writes_source _ right).bind fun register => ?_
  apply writes_guard (register.isDivisionClobbered = true)
  intro guarded
  refine (placed.writes_source _ left).before fun _ => ?_
  refine (writes_move _ _).after fun _ => ?_
  exact .after (.instr _) fun _ => .after (.instr _) fun _ => .after (.instr _) fun _ =>
    writes_move _ _

theorem writes_arithmetic (placed : Placed) (op : ArithOp) (alu : AluOp) (dst : Register)
    (left right : Source) :
    (placed.arithmetic op alu dst left right).Writes
      ((placed.unloadable? right).or (placed.unloadable? left))
      (right.mentions ++ left.mentions) := by
  refine (placed.writes_source _ right).bind fun register => ?_
  apply writes_guard (register = dst)
  intro guarded
  refine (placed.writes_source _ left).before fun _ => ?_
  refine (writes_move _ _).after fun _ => .after (.instr _) fun _ => ?_
  split
  next => exact .instr _
  next => exact .pure _

theorem writes_binary (placed : Placed) (op : BinaryOp) (dst : Register) (left right : Source) :
    (placed.binary op dst left right).Writes
      ((placed.unloadable? right).or (placed.unloadable? left))
      (right.mentions ++ left.mentions) := by
  unfold binary Lowering.binary
  split
  next => exact (placed.writes_compare left right).before fun _ =>
    .after (.instr _) fun _ => .instr _
  next =>
    split
    next => exact placed.writes_division dst left right
    next => exact placed.writes_arithmetic _ _ dst left right

theorem writes_unary (placed : Placed) (op : UnaryOp) (dst : Register) (src : Source) :
    (placed.unary op dst src).Writes (placed.unloadable? src) src.mentions := by
  refine (placed.writes_source _ src).before fun _ => (writes_move _ _).after fun _ => ?_
  split
  next => exact .after (.instr _) fun _ => .instr _
  next => exact .instr _

theorem writes_argumentMoves (placed : Placed) (passed : List (Source × Register)) :
    (placed.argumentMoves passed).Writes
      (passed.findSome? (placed.unloadable? ∘ Prod.fst)) [] := by
  induction passed with
  | nil => exact .pure _
  | cons entry rest ih =>
      unfold argumentMoves Lowering.argumentMoves
      split
      next hdest => exact ih.congr (by simp [unloadable?, hdest]) rfl
      next dest hdest =>
        refine ((placed.writes_operand dest).bind fun _ => ih.before fun _ => .pure _).congr ?_ rfl
        simp [findSome?_cons_eq_or, unloadable?, hdest]

/-- Only the literals among the arguments are loaded, which never fails. -/
theorem writes_literal (placed : Placed) (arg : Source) (argument : Register) :
    (if arg.isLiteral then discard (placed.source argument arg) else pure ()).Writes none
      arg.mentions := by
  have hsource := placed.writes_source argument arg
  cases arg with
  | temp | var => exact .pure ()
  | int | bool | str => exact hsource.before fun _ => .pure _

theorem writes_call (placed : Placed) (callee : String) (args : List Source)
    (dst : Option Dest) :
    (placed.call callee args dst).Writes (placed.unlowerable? (.call callee args dst))
      (args.flatMap Source.mentions ++ [.callee callee]) := by
  unfold call Lowering.call unlowerable?
  refine .failIf (maxArguments < args.length) _ fun hlength => ?_
  have hpassed : (args.zip Register.arguments).map Prod.fst = args :=
    List.map_fst_zip (Nat.not_lt.mp hlength)
  have hmoves : (placed.argumentMoves (args.zip Register.arguments)).Writes
      (args.findSome? placed.unloadable?) [] := by
    refine (placed.writes_argumentMoves _).congr ?_ rfl
    rw [← List.findSome?_map, hpassed]
  have hliterals : args.flatMap Source.mentions =
      (args.zip Register.arguments).flatMap fun entry => entry.1.mentions := by
    rw [← List.flatMap_map Prod.fst Source.mentions, hpassed]
  rw [hliterals]
  refine (hmoves.bind fun moves => ?_).congr Option.or_none rfl
  refine (writes_moveAll moves).after fun _ => ?_
  refine (Writes.forM_ok fun entry _ => placed.writes_literal entry.1 entry.2).bind fun _ => ?_
  refine .optional _ (.instr _) fun _ => (Writes.instr _).before fun _ => ?_
  split
  next => exact writes_move _ _
  next => exact .pure ()

/-- A text among the arguments is loaded before the call. -/
theorem mem_call_code {callee : String} {args : List Source} {dst : Option Dest}
    (h : (placed.call callee args dst).result = .ok ()) {text : String}
    (htext : .str text ∈ args) :
    ∃ register, .instr (.leaLiteral text register) ∈ (placed.call callee args dst).code := by
  have hmention :
      .literal text ∈ (placed.call callee args dst).code.filterMap Item.mention? := by
    rw [(placed.writes_call callee args dst).mentions () h]
    exact List.mem_append_left _
      (List.mem_flatMap.mpr ⟨.str text, htext, List.mem_singleton_self _⟩)
  obtain ⟨item, hitem, hloads⟩ := List.mem_filterMap.mp hmention
  have hliteral : item.literal? = some text := by
    rw [item.literal?_eq, hloads]
    rfl
  obtain ⟨register, rfl⟩ := Item.literal?_eq_some_iff.mp hliteral
  exact ⟨register, hitem⟩

/-- Nothing is written for a destination without a register. -/
theorem writes_dest (placed : Placed) (dst : Dest) {write : Register → Emission Unit}
    {failure : Option CompileError} {mentioned : List (Mention String)}
    (h : ∀ register, (write register).Writes failure mentioned) :
    (match placed.assignment.register? dst with
      | none => Pure.pure ()
      | some register => write register).Writes
        (if (placed.assignment.register? dst).isNone then none else failure)
        ((if (placed.assignment.register? dst).isNone then [] else mentioned) ++ []) := by
  rw [List.append_nil]
  cases placed.assignment.register? dst with
  | none => exact .pure ()
  | some register => exact h register

theorem writes_inst (placed : Placed) (inst : Inst) :
    (placed.inst inst).Writes (placed.unlowerable? inst) (placed.mentions inst) := by
  cases inst with
  | binary op dst left right =>
      exact placed.writes_dest dst fun register =>
        (placed.writes_binary op register left right).congr
          (by simp [Inst.loaded, findSome?_cons_eq_or]) (by simp [Inst.loaded])
  | unary op dst src =>
      exact placed.writes_dest dst fun register =>
        (placed.writes_unary op register src).congr
          (by simp [Inst.loaded, Inst.sources]) (by simp [Inst.loaded, Inst.sources])
  | move dst src =>
      refine placed.writes_dest dst fun register => ?_
      exact ((placed.writes_source register src).before fun _ => writes_move _ _).congr
        (by simp [Inst.loaded, Inst.sources]) (by simp [Inst.loaded, Inst.sources])
  | load dst address =>
      refine placed.writes_dest dst fun register => ?_
      exact ((placed.writes_source _ address.base).before fun _ => .instr _).congr
        (by simp [Inst.loaded, Inst.sources]) (by simp [Inst.loaded, Inst.sources])
  | store address src =>
      refine ((placed.writes_source _ address.base).bind fun _ =>
        (placed.writes_source _ src).before fun _ => .instr _).congr ?_ ?_
      · simp [unlowerable?, Function.overlongCall?, elides, Inst.loaded, Inst.sources,
          findSome?_cons_eq_or]
      · simp [mentions, elides, named, Inst.loaded, Inst.sources]
  | label name => exact .item _
  | jump target => exact .instr _
  | branch op left right target =>
      refine ((placed.writes_compare left right).bind fun _ => .instr _).congr ?_ ?_
      · simp [unlowerable?, Function.overlongCall?, elides, Inst.loaded, findSome?_cons_eq_or]
      · simp [mentions, elides, named, Inst.loaded, Instr.mention?]
  | call callee args dst => exact placed.writes_call callee args dst
  | ret value =>
      cases value with
      | none => exact placed.writes_epilogue
      | some value =>
          refine ((placed.writes_source _ value).before fun _ =>
            (writes_move _ _).after fun _ => placed.writes_epilogue).congr ?_ ?_
          · simp [unlowerable?, Function.overlongCall?, elides, Inst.loaded, Inst.sources]
          · simp [mentions, elides, named, Inst.loaded, Inst.sources]

/-- Why a function with this assignment has no code. -/
def failure? (placed : Placed) : Option CompileError :=
  placed.function.overlongParameters?.or (placed.function.code.findSome? placed.unlowerable?)

/-- What the code of a function mentions is what its instructions mention, in order. -/
theorem writes_code (placed : Placed) :
    placed.code.Writes placed.failure? (placed.function.code.flatMap placed.mentions) := by
  refine placed.writes_prologue.bind fun _ => ?_
  refine (Writes.forM fun inst _ => placed.writes_inst inst).before fun _ => ?_
  split
  next => exact placed.writes_epilogue
  next => exact .pure ()

end Placed

/-! ## Mentions of functions -/

/-- What the code of a function may mention. -/
inductive Function.Names {Literal : Type} (function : Function) (literals : Literal → Prop) :
    Mention Literal → Prop
  | label {name : String} : Names function literals (.label name)
  | target {inst : Inst} {name : String} (hinst : inst ∈ function.code)
      (htarget : inst.target? = some name) :
      Names function literals (.target (localLabel function.name name))
  | callee {inst : Inst} {name : String} (hinst : inst ∈ function.code)
      (hcallee : inst.callee? = some name) : Names function literals (.callee name)
  | literal {literal : Literal} (hliteral : literals literal) :
      Names function literals (.literal literal)

theorem Function.Names.mapLiteral {Literal Literal' : Type} {function : Function}
    {literals : Literal → Prop} {literals' : Literal' → Prop} {mention : Mention Literal}
    (h : function.Names literals mention) {literal : Literal → Literal'}
    (hliterals : ∀ found, literals found → literals' (literal found)) :
    function.Names literals' (mention.mapLiteral literal) := by
  cases h with
  | label => exact .label
  | target hinst htarget => exact .target hinst htarget
  | callee hinst hcallee => exact .callee hinst hcallee
  | literal hliteral => exact .literal (hliterals _ hliteral)

namespace Placed

variable {placed : Placed}

theorem exists_text_of_mem {sources : List Source} {mention : Mention String}
    (h : mention ∈ sources.flatMap Source.mentions) : ∃ text, mention = .literal text := by
  obtain ⟨source, _, hsource⟩ := List.mem_flatMap.mp h
  cases source with
  | str text => exact ⟨text, List.mem_singleton.mp hsource⟩
  | _ => cases hsource

theorem names_of_mem {mention : Mention String}
    (h : mention ∈ placed.function.code.flatMap placed.mentions) :
    placed.function.Names
      (fun text => .literal text ∈ placed.function.code.flatMap placed.mentions) mention := by
  obtain ⟨inst, hinst, hmem⟩ := List.mem_flatMap.mp h
  rcases List.mem_append.mp hmem with hloaded | hnamed
  · split at hloaded
    next => cases hloaded
    next =>
      obtain ⟨text, rfl⟩ := exists_text_of_mem hloaded
      exact .literal h
  · cases inst with
    | label name =>
        obtain rfl := List.mem_singleton.mp hnamed
        exact .label
    | jump target | branch _ _ _ target =>
        obtain rfl := List.mem_singleton.mp hnamed
        exact .target hinst rfl
    | call callee args dst =>
        obtain rfl := List.mem_singleton.mp hnamed
        exact .callee hinst rfl
    | _ => cases hnamed

/-- The labels in the code are those of the function, in order. -/
theorem labels_mentions (placed : Placed) :
    (placed.function.code.flatMap placed.mentions).filterMap Mention.label? =
      placed.function.labels.map (localLabel placed.function.name) := by
  have hinst : ∀ inst, (placed.mentions inst).filterMap Mention.label? =
      (inst.label?.map (localLabel placed.function.name)).toList := by
    intro inst
    have hloaded : (inst.loaded.flatMap Source.mentions).filterMap Mention.label? = [] :=
      List.filterMap_eq_nil_iff.mpr fun mention hmention => by
        obtain ⟨text, rfl⟩ := exists_text_of_mem hmention
        rfl
    rw [mentions, List.filterMap_append]
    cases placed.elides inst <;> cases inst <;> simp [hloaded, named, Inst.label?, Mention.label?]
  rw [Function.labels_eq, List.filterMap_flatMap, List.map_filterMap,
    List.filterMap_eq_flatMap_toList]
  simp only [hinst]

end Placed

end ThreeAddress
