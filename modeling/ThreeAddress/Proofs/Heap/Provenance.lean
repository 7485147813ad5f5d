import ThreeAddress.Native.Machine
import ThreeAddress.Proofs.Eval.Run
import ThreeAddress.Proofs.Lowering.Words

/-!
# Where values come from

Beside a run goes a ledger. It knows which values were returned by `malloc`, and
what a byte of a block holds if each store writes the four bytes of its value from
the byte on that its offset names. A pointer may be moved, passed, returned, stored,
loaded, and used as the base of an address within its block; nothing else may
be done with it.
-/

namespace ThreeAddress

/-! ## Printing -/

/-- Whether a built-in is called with a value of the type that it prints. -/
def Builtin.takes : Builtin → List Value → Bool
  | .printInt, [.int _] | .printBool, [.bool _] | .printStr, [.str _] | .printStr, [] => true
  | .malloc, _ => true
  | _, _ => false

/-- Whether the next instruction, if it prints, prints a value of the type in its name. -/
def Frame.printsTyped (frame : Frame) : Bool :=
  match frame.next? with
  | some (.call name args _) =>
      match Builtin.ofName? name, frame.evalAll args with
      | some builtin, .ok values => builtin.takes values
      | _, _ => true
  | _ => true

/-! ## The ledger -/

/-- The block that the value of each destination points to, if it was returned by `malloc`. -/
abbrev Origins := Dest → Option Nat

namespace Origins

def empty : Origins := fun _ => none

def source (origins : Origins) (source : Source) : Option Nat := source.dest?.bind origins

def set (origins : Origins) (dst : Dest) (origin : Option Nat) : Origins :=
  fun dest => if dst = dest then origin else origins dest

def set? (origins : Origins) (dst : Option Dest) (origin : Option Nat) : Origins :=
  match dst with
  | some dst => origins.set dst origin
  | none => origins

def ofParams (names : List String) (given : List (Option Nat)) : Origins :=
  (names.zip given).foldl (fun origins entry => origins.set (.var entry.1) entry.2) empty

end Origins

/-- What `malloc` returned: the number of the first slot, and how many slots there are. -/
structure Block where
  base : Nat
  size : Nat
deriving DecidableEq, Repr, Inhabited

/-- One byte of a block. Of the address of a block only its number is known. -/
inductive StoredByte where
  | unknown
  | plain (byte : UInt8)
  | pointer (block part : Nat)
deriving DecidableEq, Repr, Inhabited

/-- The bytes of a stored value, the lowest first. -/
def Value.storedBytes (value : Value) (origin : Option Nat) : List StoredByte :=
  match origin with
  | some block => (List.range 4).map (.pointer block)
  | none =>
      match value.word? with
      | some word => (Bytes.ofNat 4 (addressOf word)).map .plain
      | none => List.replicate 4 .unknown

/-- A slot of a block: its place in the block, and its place in the heap. -/
structure Cell where
  block : Nat
  offset : Nat
  slot : Nat
deriving DecidableEq, Repr, Inhabited

/-- What is known about the values of a run. -/
structure Ledger where
  /-- The pointers of the running activation. -/
  top : Origins
  /-- The pointers of the activations that wait, the most recent one first. -/
  waiting : List Origins
  blocks : List Block
  /-- The pointers in heap slots. -/
  slots : Nat → Option Nat
  /-- The bytes of each block. -/
  bytes : Nat → Nat → StoredByte

namespace Ledger

def empty : Ledger := ⟨.empty, [], [], fun _ => none, fun _ _ => .unknown⟩

/-- Whether no source is a pointer. -/
def plain (ledger : Ledger) (sources : List Source) : Bool :=
  sources.all fun source => ledger.top.source source = none

/-- The slot that an address names, if its base points to a block that has a slot there. -/
def cell? (ledger : Ledger) (address : Address) : Option Cell :=
  match ledger.top.source address.base with
  | none => none
  | some block =>
      match ledger.blocks[block]? with
      | none => none
      | some found =>
          if 0 ≤ address.offset.toInt ∧ address.offset.toInt < found.size then
            some ⟨block, address.offset.toInt.toNat, found.base + address.offset.toInt.toNat⟩
          else none

def assign (ledger : Ledger) (dst : Option Dest) (origin : Option Nat) : Ledger :=
  { ledger with top := ledger.top.set? dst origin }

/-- The four bytes at a slot. -/
def read (ledger : Ledger) (cell : Cell) : List StoredByte :=
  (List.range 4).map fun part => ledger.bytes cell.block (cell.offset + part)

def store (ledger : Ledger) (cell : Cell) (value : Value) (origin : Option Nat) : Ledger :=
  { ledger with
    slots := fun slot => if slot = cell.slot then origin else ledger.slots slot
    bytes := fun block byte =>
      if block = cell.block ∧ cell.offset ≤ byte ∧ byte < cell.offset + 4 then
        (value.storedBytes origin)[byte - cell.offset]?.getD .unknown
      else ledger.bytes block byte }

def allocate (ledger : Ledger) (base size : Nat) (dst : Option Dest) : Ledger :=
  { ledger.assign dst (some ledger.blocks.length) with
    blocks := ledger.blocks ++ [⟨base, size⟩]
    bytes := fun block byte =>
      if block = ledger.blocks.length then .unknown else ledger.bytes block byte }

def enter (ledger : Ledger) (params : List String) (given : List (Option Nat)) : Ledger :=
  { ledger with top := .ofParams params given, waiting := ledger.top :: ledger.waiting }

def leave (ledger : Ledger) (dst : Option Dest) (origin : Option Nat) : Ledger :=
  match ledger.waiting with
  | [] => ledger
  | caller :: rest => { ledger with top := caller.set? dst origin, waiting := rest }

/-- What is known after an instruction, if it does with pointers only what may be done with them,
loads numbers, truth values and pointers only, and prints values of the right type. -/
def record? (ledger : Ledger) (state : State) (inst : Inst) (effect : Effect) : Option Ledger :=
  match inst, effect with
  | .binary _ dst _ _, _ | .unary _ dst _, _ =>
      if ledger.plain inst.sources then some (ledger.assign (some dst) none) else none
  | .move dst src, _ => some (ledger.assign (some dst) (ledger.top.source src))
  | .load dst address, .assign _ value =>
      match ledger.cell? address with
      | none => none
      | some cell =>
          if value.word?.isSome then some (ledger.assign (some dst) (ledger.slots cell.slot))
          else none
  | .store address src, .store _ value =>
      match ledger.cell? address with
      | none => none
      | some cell => some (ledger.store cell value (ledger.top.source src))
  | .label _, _ | .jump _, _ => some ledger
  | .branch _ _ _ _, _ => if ledger.plain inst.sources then some ledger else none
  | .call _ args _, .print _ =>
      if ledger.plain args && state.top.printsTyped then some ledger else none
  | .call _ args _, .allocate count dst =>
      if ledger.plain args then some (ledger.allocate state.heap.size count dst) else none
  | .call _ args _, .enter callee _ _ =>
      some (ledger.enter callee.params (args.map ledger.top.source))
  | .ret value, .leave _ =>
      some (ledger.leave state.top.resultDest (value.bind ledger.top.source))
  | _, _ => none

/-- What is known after the next step. -/
def follow? (program : Program) (limits : Limits) (ledger : Ledger) (state : State) :
    Option Ledger :=
  match state.top.next? with
  | none => some (ledger.leave state.top.resultDest none)
  | some inst =>
      match inst.effect program limits state.depth state.top state.heap with
      | .error _ => some ledger
      | .ok effect => ledger.record? state inst effect

/-- Whether the next instruction, if it loads, reads the bytes of the value in its slot, none of
which has been overwritten by a store to another slot. -/
def loadsWhole (ledger : Ledger) (state : State) : Bool :=
  match state.top.next? with
  | some (.load _ address) =>
      match ledger.cell? address with
      | none => true
      | some cell =>
          ledger.read cell =
            ((state.heap.get? cell.slot).getD .undefined).storedBytes (ledger.slots cell.slot)
  | _ => true

end Ledger

/-- What is known in the end, if each of up to `fuel` steps passes a check and does nothing else
with pointers than what may be done with them. -/
def State.ledger? (check : Ledger → State → Bool) (program : Program) (limits : Limits) :
    Nat → State → Ledger → Option Ledger
  | 0, _, ledger => some ledger
  | fuel + 1, state, ledger =>
      if check ledger state then
        match ledger.follow? program limits state with
        | none => none
        | some ledger =>
            match state.step program limits with
            | .running next => next.ledger? check program limits fuel ledger
            | _ => some ledger
      else none

/-- What is known at the end of a run. -/
def Program.ledger? (check : Ledger → State → Bool) (program : Program) (limits : Limits)
    (fuel : Nat) : Option Ledger :=
  program.main?.bind fun main =>
    (State.initial main).ledger? check program limits fuel .empty

/-! ## What the ledger says -/

namespace Origins

theorem source_of_literal {origins : Origins} {source : Source} (h : source.dest? = none) :
    origins.source source = none := by
  rw [Origins.source, h]
  rfl

theorem source_of_dest {origins : Origins} {source : Source} {dest : Dest}
    (h : source.dest? = some dest) : origins.source source = origins dest := by
  rw [Origins.source, h]
  rfl

theorem set_apply (origins : Origins) (dst dest : Dest) (origin : Option Nat) :
    origins.set dst origin dest = if dst = dest then origin else origins dest := rfl

@[simp] theorem empty_set (dst : Dest) : empty.set dst none = empty := by
  funext dest
  simp [set, empty]

@[simp] theorem empty_set? (dst : Option Dest) : empty.set? dst none = empty := by
  cases dst <;> simp [set?]

@[simp] theorem empty_source (source : Source) : empty.source source = none := by
  cases hdest : source.dest? with
  | none => exact source_of_literal hdest
  | some dest => exact source_of_dest hdest

theorem ofParams_of_plain (names : List String) {given : List (Option Nat)}
    (h : ∀ origin ∈ given, origin = none) : ofParams names given = empty := by
  have hentries : ∀ entry ∈ names.zip given, entry.2 = none :=
    fun entry hentry => h entry.2 (List.of_mem_zip hentry).2
  unfold ofParams
  generalize names.zip given = entries at hentries
  induction entries with
  | nil => rfl
  | cons entry rest ih =>
      rw [List.foldl_cons, hentries entry List.mem_cons_self, empty_set]
      exact ih fun other hother => hentries other (List.mem_cons_of_mem _ hother)

end Origins

/-- A destination that is bound by parameters is bound to what was passed for it, or was bound
before. -/
theorem Bindings.of_foldl {names : List String} {values : List Value} {given : List (Option Nat)}
    {bindings : Bindings} {origins : Origins} {dest : Dest} {value : Value}
    (hlength : values.length = given.length)
    (h : ((names.zip values).foldl (fun bindings entry => bindings.set (.var entry.1) entry.2)
      bindings).get? dest = some value) :
    (∃ (index : Nat) (name : String), names[index]? = some name ∧ dest = .var name ∧
        values[index]? = some value ∧
        given[index]? = some ((names.zip given).foldl
          (fun origins entry => origins.set (.var entry.1) entry.2) origins dest)) ∨
      (bindings.get? dest = some value ∧
        (names.zip given).foldl (fun origins entry => origins.set (.var entry.1) entry.2)
          origins dest = origins dest) := by
  induction names generalizing values given bindings origins with
  | nil => exact .inr ⟨h, rfl⟩
  | cons name names ih =>
      cases values with
      | nil =>
          cases given with
          | nil => exact .inr ⟨h, rfl⟩
          | cons => exact absurd hlength (by simp)
      | cons first values =>
          cases given with
          | nil => exact absurd hlength (by simp)
          | cons origin given =>
              rw [List.zip_cons_cons, List.foldl_cons] at h
              simp only [List.zip_cons_cons, List.foldl_cons]
              rcases ih (Nat.succ.inj hlength) h with ⟨index, found, hfound⟩ | ⟨hbound, horigin⟩
              · exact .inl ⟨index + 1, found, hfound⟩
              · rw [Bindings.get?_set] at hbound
                rw [horigin, Origins.set_apply]
                split at hbound
                next heq =>
                  rw [if_pos heq]
                  exact .inl ⟨0, name, rfl, heq.symm, hbound, rfl⟩
                next hne =>
                  rw [if_neg hne]
                  exact .inr ⟨hbound, rfl⟩

/-- What a parameter is bound to was passed for it. -/
theorem Bindings.of_ofParams {names : List String} {values : List Value}
    {given : List (Option Nat)} (hlength : values.length = given.length) {dest : Dest}
    {value : Value} (h : (Bindings.ofParams names values).get? dest = some value) :
    ∃ (index : Nat) (name : String), names[index]? = some name ∧ dest = .var name ∧
      values[index]? = some value ∧ given[index]? = some (Origins.ofParams names given dest) := by
  rcases Bindings.of_foldl hlength h with hfound | ⟨hbound, _⟩
  · exact hfound
  · exact absurd hbound (by simp)

namespace Ledger

variable {ledger next : Ledger} {address : Address} {cell : Cell} {state : State} {inst : Inst}
  {effect : Effect}

theorem plain_iff {sources : List Source} :
    ledger.plain sources = true ↔ ∀ source ∈ sources, ledger.top.source source = none := by
  simp [plain]

/-- What is recorded where no pointer may be used. -/
theorem plain_of_ite {sources : List Source} {following : Ledger}
    (h : (if ledger.plain sources then some next else none) = some following) :
    (∀ source ∈ sources, ledger.top.source source = none) ∧ next = following := by
  split at h
  next hplain => exact ⟨plain_iff.mp hplain, Option.some.inj h⟩
  next => cases h

/-- What is recorded of a load: it reads a slot of the block that its base points into. -/
theorem record?_load {dst target : Dest} {value : Value}
    (h : ledger.record? state (.load dst address) (.assign target value) = some next) :
    ∃ cell, ledger.cell? address = some cell ∧ value.word?.isSome = true ∧
      ledger.assign (some dst) (ledger.slots cell.slot) = next := by
  rw [record?] at h
  split at h
  next => cases h
  next cell hcell =>
    split at h
    next hword => exact ⟨cell, hcell, hword, Option.some.inj h⟩
    next => cases h

/-- What is recorded of a store: it writes a slot of the block that its base points into. -/
theorem record?_store {source : Source} {index : Nat} {value : Value}
    (h : ledger.record? state (.store address source) (.store index value) = some next) :
    ∃ cell, ledger.cell? address = some cell ∧
      ledger.store cell value (ledger.top.source source) = next := by
  rw [record?] at h
  split at h
  next => cases h
  next cell hcell => exact ⟨cell, hcell, Option.some.inj h⟩

theorem cell?_eq_some (h : ledger.cell? address = some cell) :
    ∃ found, ledger.top.source address.base = some cell.block ∧
      ledger.blocks[cell.block]? = some found ∧ address.offset.toInt = (cell.offset : Int) ∧
      cell.offset < found.size ∧ cell.slot = found.base + cell.offset := by
  unfold cell? at h
  split at h
  next => exact absurd h (by simp)
  next block hblock =>
    split at h
    next => exact absurd h (by simp)
    next found hfound =>
      split at h
      next hoffset =>
        obtain rfl := Option.some.inj h
        refine ⟨found, hblock, hfound, (Int.toNat_of_nonneg hoffset.1).symm, ?_, rfl⟩
        exact (Int.toNat_lt hoffset.1).mpr hoffset.2
      next => exact absurd h (by simp)

theorem leave_blocks (ledger : Ledger) (dst : Option Dest) (origin : Option Nat) :
    (ledger.leave dst origin).blocks = ledger.blocks := by
  unfold leave
  split <;> rfl

theorem follow?_of_end {program : Program} {limits : Limits} (hend : state.top.next? = none) :
    ledger.follow? program limits state = some (ledger.leave state.top.resultDest none) := by
  rw [follow?, hend]

theorem follow?_of_effect {program : Program} {limits : Limits}
    (hinst : state.top.next? = some inst)
    (heffect : inst.effect program limits state.depth state.top state.heap = .ok effect) :
    ledger.follow? program limits state = ledger.record? state inst effect := by
  rw [follow?, hinst]
  simp only [heffect]

/-- A load that reads the bytes of the value in its slot. -/
theorem read_of_loadsWhole {dst : Dest} (h : ledger.loadsWhole state = true)
    (hload : state.top.next? = some (.load dst address))
    (hcell : ledger.cell? address = some cell) :
    ledger.read cell =
      ((state.heap.get? cell.slot).getD .undefined).storedBytes (ledger.slots cell.slot) := by
  rw [loadsWhole, hload] at h
  simpa only [hcell, decide_eq_true_eq] using h

/-- Only an allocation adds a block, at the end. -/
theorem record?_blocks (h : ledger.record? state inst effect = some next) :
    next.blocks = ledger.blocks ∨ ∃ count dst, effect = .allocate count dst ∧
      next.blocks = ledger.blocks ++ [⟨state.heap.size, count⟩] := by
  unfold record? at h
  split at h
  case h_10 =>
    split at h <;> cases h
    exact .inr ⟨_, _, rfl, rfl⟩
  case h_12 =>
    cases h
    exact .inl (ledger.leave_blocks _ _)
  all_goals
    repeat' split at h
    all_goals (cases h <;> exact .inl rfl)

/-- Blocks keep their numbers. -/
theorem prefix_record? (h : ledger.record? state inst effect = some next) :
    ledger.blocks <+: next.blocks := by
  rcases record?_blocks h with heq | ⟨_, _, _, heq⟩
  · exact heq ▸ List.prefix_rfl
  · exact heq ▸ List.prefix_append _ _

theorem prefix_follow? {program : Program} {limits : Limits}
    (h : ledger.follow? program limits state = some next) : ledger.blocks <+: next.blocks := by
  unfold follow? at h
  split at h
  next =>
    obtain rfl := Option.some.inj h
    exact (ledger.leave_blocks _ _).symm ▸ List.prefix_rfl
  next =>
    split at h
    next => exact Option.some.inj h ▸ List.prefix_rfl
    next => exact prefix_record? h

/-- A block has fewer slots than there are numbers of its type. -/
theorem size_lt_of_follow? {program : Program} {limits : Limits}
    (hsmall : ∀ block ∈ ledger.blocks, block.size < 2147483648)
    (h : ledger.follow? program limits state = some next) :
    ∀ block ∈ next.blocks, block.size < 2147483648 := by
  unfold follow? at h
  split at h
  next =>
    obtain rfl := Option.some.inj h
    rwa [ledger.leave_blocks]
  next inst _ =>
    split at h
    next => exact Option.some.inj h ▸ hsmall
    next effect heffect =>
      rcases record?_blocks h with heq | ⟨count, dst, rfl, heq⟩
      · rwa [heq]
      · cases Inst.performs_of_effect heffect with
        | allocate _ _ hreserve =>
            rw [heq]
            exact List.forall_mem_append.mpr ⟨hsmall, List.forall_mem_singleton.mpr
              (Heap.reserve_eq_ok hreserve).2.1⟩

end Ledger

namespace State

variable {check : Ledger → State → Bool} {program : Program} {limits : Limits} {state : State}
  {ledger final : Ledger} {fuel : Nat}

theorem ledger?_succ (h : state.ledger? check program limits (fuel + 1) ledger = some final) :
    check ledger state = true ∧ ∃ middle, ledger.follow? program limits state = some middle ∧
      ∀ next, state.step program limits = .running next →
        next.ledger? check program limits fuel middle = some final := by
  unfold ledger? at h
  split at h
  next hcheck =>
    split at h
    next => exact absurd h (by simp)
    next middle hmiddle =>
      refine ⟨hcheck, middle, hmiddle, fun next hnext => ?_⟩
      rw [hnext] at h
      exact h
  next => exact absurd h (by simp)

/-- What holds of a ledger and is kept by each step holds in the end. -/
theorem ledger?_keeps {P : Ledger → Prop}
    (hfollow : ∀ {state ledger next}, ledger.follow? program limits state = some next →
      P ledger → P next)
    (hledger : P ledger) (h : state.ledger? check program limits fuel ledger = some final) :
    P final := by
  induction fuel generalizing state ledger with
  | zero => exact Option.some.inj h ▸ hledger
  | succ fuel ih =>
      unfold ledger? at h
      split at h
      next =>
        split at h
        next => exact absurd h (by simp)
        next middle hmiddle =>
          have hmiddle := hfollow hmiddle hledger
          split at h
          next => exact ih hmiddle h
          next => exact Option.some.inj h ▸ hmiddle
      next => exact absurd h (by simp)

/-- Blocks keep their numbers. -/
theorem prefix_ledger? (h : state.ledger? check program limits fuel ledger = some final) :
    ledger.blocks <+: final.blocks :=
  ledger?_keeps (P := fun later => ledger.blocks <+: later.blocks)
    (fun hfollow hprefix => hprefix.trans (Ledger.prefix_follow? hfollow)) List.prefix_rfl h

/-- A block has fewer slots than there are numbers of its type. -/
theorem size_lt_of_ledger? (h : state.ledger? check program limits fuel .empty = some final) :
    ∀ block ∈ final.blocks, block.size < 2147483648 :=
  ledger?_keeps (P := fun later => ∀ block ∈ later.blocks, block.size < 2147483648)
    (fun hfollow hsmall => Ledger.size_lt_of_follow? hsmall hfollow) (List.forall_mem_nil _) h

end State

/-! ## Programs without a heap -/

/-- Whether an instruction has to do with the heap. -/
def Inst.usesHeap : Inst → Bool
  | .load _ _ | .store _ _ => true
  | .call name _ _ => Builtin.ofName? name = some .malloc
  | _ => false

/-- No instruction allocates, loads or stores. -/
def Program.HeapFree (program : Program) : Prop :=
  ∀ function ∈ program.functions, ∀ inst ∈ function.code, inst.usesHeap = false

instance (program : Program) : Decidable program.HeapFree :=
  inferInstanceAs (Decidable (∀ function ∈ program.functions, ∀ inst ∈ function.code,
    inst.usesHeap = false))

/-- There is no pointer in any activation. -/
structure Ledger.PointerFree (ledger : Ledger) : Prop where
  top : ledger.top = .empty
  waiting : ∀ origins ∈ ledger.waiting, origins = .empty
  blocks : ledger.blocks = []

namespace Ledger.PointerFree

theorem empty : Ledger.empty.PointerFree := ⟨rfl, nofun, rfl⟩

variable {ledger : Ledger} {state : State} {inst : Inst} {effect : Effect}

theorem plain (h : ledger.PointerFree) (sources : List Source) : ledger.plain sources = true := by
  rw [plain_iff, h.top]
  exact fun source _ => Origins.empty_source source

theorem assign (h : ledger.PointerFree) (dst : Option Dest) :
    (ledger.assign dst none).PointerFree := by
  refine ⟨?_, h.waiting, h.blocks⟩
  change ledger.top.set? dst none = .empty
  rw [h.top, Origins.empty_set?]

theorem leave (h : ledger.PointerFree) (dst : Option Dest) :
    (ledger.leave dst none).PointerFree := by
  unfold Ledger.leave
  split
  next => exact h
  next caller rest hwaiting =>
    have hwaits := h.waiting
    rw [hwaiting] at hwaits
    refine ⟨?_, fun origins horigins => hwaits origins (List.mem_cons_of_mem _ horigins), h.blocks⟩
    change caller.set? dst none = .empty
    rw [hwaits caller List.mem_cons_self, Origins.empty_set?]

theorem record? {program : Program} {limits : Limits} {depth : Nat} (h : ledger.PointerFree)
    (hperforms : Performs program limits depth state.top state.heap inst effect)
    (hheap : inst.usesHeap = false) (htyped : state.top.printsTyped = true) :
    ∃ next, ledger.record? state inst effect = some next ∧ next.PointerFree := by
  cases hperforms with
  | @binary _ dst | @unary _ dst =>
      refine ⟨ledger.assign (some dst) none, ?_, h.assign _⟩
      rw [Ledger.record?, if_pos (h.plain _)]
  | move =>
      refine ⟨_, rfl, ?_⟩
      rw [h.top, Origins.empty_source]
      exact h.assign _
  | load | store => exact absurd hheap (by simp [Inst.usesHeap])
  | label | jump => exact ⟨ledger, rfl, h⟩
  | taken | passed =>
      refine ⟨ledger, ?_, h⟩
      rw [Ledger.record?, if_pos (h.plain _)]
  | print | printNothing =>
      refine ⟨ledger, ?_, h⟩
      rw [Ledger.record?, h.plain, htyped]
      rfl
  | allocate hname => exact absurd hheap (by simp [Inst.usesHeap, hname])
  | enter =>
      refine ⟨_, rfl, Origins.ofParams_of_plain _ ?_, ?_, h.blocks⟩
      · intro origin horigin
        obtain ⟨source, _, rfl⟩ := List.mem_map.mp horigin
        rw [h.top, Origins.empty_source]
      · intro origins horigins
        rcases List.mem_cons.mp horigins with rfl | horigins
        · exact h.top
        · exact h.waiting origins horigins
  | leave => exact ⟨_, rfl, h.leave _⟩
  | leaveWith =>
      refine ⟨_, rfl, ?_⟩
      rw [Option.bind_some, h.top, Origins.empty_source]
      exact h.leave _

end Ledger.PointerFree

/-- In a run of a program without a heap that prints values of the right types there are no
pointers. -/
theorem State.ledger?_of_heapFree {program : Program} {limits : Limits}
    (hheap : program.HeapFree)
    (htyped : ∀ state, State.Reachable program limits state → state.top.printsTyped = true)
    {state : State} (hreachable : State.Reachable program limits state) {ledger : Ledger}
    (h : ledger.PointerFree) (fuel : Nat) :
    ∃ final, state.ledger? Ledger.loadsWhole program limits fuel ledger = some final ∧
      final.blocks = [] := by
  induction fuel generalizing state ledger with
  | zero => exact ⟨ledger, rfl, h.blocks⟩
  | succ fuel ih =>
      have hwithin := hreachable.within.top
      have hcheck : ledger.loadsWhole state = true := by
        unfold Ledger.loadsWhole
        split
        next hload =>
          have hfree := hheap _ hwithin _ (List.mem_of_getElem? hload)
          exact absurd hfree (by simp [Inst.usesHeap])
        next => rfl
      obtain ⟨next, hnext, hfree⟩ : ∃ next, ledger.follow? program limits state = some next ∧
          next.PointerFree := by
        unfold Ledger.follow?
        cases hinst : state.top.next? with
        | none => exact ⟨_, rfl, h.leave _⟩
        | some inst =>
            cases heffect : inst.effect program limits state.depth state.top state.heap with
            | error => exact ⟨ledger, by simp only [heffect], h⟩
            | ok effect =>
                simp only [heffect]
                exact h.record? (Inst.performs_of_effect heffect)
                  (hheap _ hwithin _ (List.mem_of_getElem? hinst)) (htyped state hreachable)
      rw [State.ledger?, if_pos hcheck, hnext]
      dsimp only
      split
      next later hlater => exact ih (hreachable.of_step hlater) hfree
      next => exact ⟨next, rfl, hfree.blocks⟩

end ThreeAddress
