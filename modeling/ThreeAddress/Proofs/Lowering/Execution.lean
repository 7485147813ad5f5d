import ThreeAddress.Proofs.Lowering.Emission
import ThreeAddress.Native.Cpu

/-!
# Carrying out written code

Code that concerns registers and flags alone runs from its beginning to its end.
What it leaves behind is found along the way in which it was written: a piece of
code that could be written ensures a postcondition of its result and of the
processor after it.
-/

namespace ThreeAddress

namespace Cpu

/-- Carries out code that concerns registers and flags alone, with literals at the given
addresses. -/
def execAll (address : String → Int64) : Cpu → List (Item String) → Option Cpu
  | cpu, [] => some cpu
  | _, .label _ :: _ => none
  | cpu, .instr code :: rest =>
      match cpu.exec? (code.map id id address) with
      | some (.ok next) => next.execAll address rest
      | _ => none

theorem execAll_append (address : String → Int64) (cpu : Cpu) (first second : List (Item String)) :
    cpu.execAll address (first ++ second) =
      (cpu.execAll address first).bind fun next => next.execAll address second := by
  induction first generalizing cpu with
  | nil => rfl
  | cons item rest ih =>
      cases item with
      | label => rfl
      | instr code =>
          simp only [List.cons_append, execAll]
          split
          next => exact ih _
          next => rfl

theorem get_set (cpu : Cpu) (register other : Register) (value : Int64) :
    (cpu.set register value).get other = if register = other then value else cpu.get other :=
  cpu.registers.get_set register other value

theorem get_compute (cpu : Cpu) (register other : Register) (value : Int64) :
    (cpu.compute register value).get other = if register = other then value else cpu.get other :=
  cpu.registers.get_set register other value

@[simp] theorem get_set_self (cpu : Cpu) (register : Register) (value : Int64) :
    (cpu.set register value).get register = value := by
  simp [get_set]

@[simp] theorem get_compute_self (cpu : Cpu) (register : Register) (value : Int64) :
    (cpu.compute register value).get register = value := by
  simp [get_compute]

theorem get_set_of_ne (cpu : Cpu) {register other : Register} (value : Int64)
    (h : other ≠ register) : (cpu.set register value).get other = cpu.get other := by
  rw [get_set, if_neg h.symm]

theorem get_compute_of_ne (cpu : Cpu) {register other : Register} (value : Int64)
    (h : other ≠ register) : (cpu.compute register value).get other = cpu.get other := by
  rw [get_compute, if_neg h.symm]

/-- Other registers than the listed ones hold the same in both. -/
def SameExcept (registers : List Register) (cpu next : Cpu) : Prop :=
  ∀ register, register ∉ registers → next.get register = cpu.get register

theorem SameExcept.refl (registers : List Register) (cpu : Cpu) : cpu.SameExcept registers cpu :=
  fun _ _ => rfl

theorem SameExcept.mono {registers more : List Register} {cpu next : Cpu}
    (h : cpu.SameExcept registers next) (hsubset : registers ⊆ more) :
    cpu.SameExcept more next :=
  fun register hnot => h register fun hmem => hnot (hsubset hmem)

theorem SameExcept.trans {registers : List Register} {first second third : Cpu}
    (hfirst : first.SameExcept registers second) (hsecond : second.SameExcept registers third) :
    first.SameExcept registers third :=
  fun register hnot => (hsecond register hnot).trans (hfirst register hnot)

theorem SameExcept.set {registers : List Register} {cpu next : Cpu} {register : Register}
    (h : cpu.SameExcept registers next) (hmem : register ∈ registers) (value : Int64) :
    cpu.SameExcept registers (next.set register value) := by
  intro other hnot
  have hne : other ≠ register := fun heq => hnot (heq ▸ hmem)
  rw [next.get_set_of_ne value hne, h other hnot]

theorem SameExcept.compute {registers : List Register} {cpu next : Cpu} {register : Register}
    (h : cpu.SameExcept registers next) (hmem : register ∈ registers) (value : Int64) :
    cpu.SameExcept registers (next.compute register value) := by
  intro other hnot
  have hne : other ≠ register := fun heq => hnot (heq ▸ hmem)
  rw [next.get_compute_of_ne value hne, h other hnot]

end Cpu

namespace Emission

variable {α β : Type} {address : String → Int64}

theorem bind_result_eq_ok {first : Emission α} {next : α → Emission β} {result : β} :
    (first >>= next).result = .ok result ↔
      ∃ value, first.result = .ok value ∧ (next value).result = .ok result := by
  simp only [bind, Emission.bind]
  cases first.result <;> simp

@[simp] theorem code_pure (value : α) : (pure value : Emission α).code = [] := rfl

theorem result_of_forM {α : Type} {items : List α} {write : α → Emission Unit}
    (h : (items.forM write).result = .ok ()) : ∀ item ∈ items, (write item).result = .ok () := by
  induction items with
  | nil => simp
  | cons first rest ih =>
      obtain ⟨_, hfirst, hrest⟩ := bind_result_eq_ok.mp h
      intro item hitem
      rcases List.mem_cons.mp hitem with rfl | hitem
      · exact hfirst
      · exact ih hrest item hitem

theorem forM_eq {α : Type} {items : List α} {write : α → Emission Unit}
    (h : ∀ item ∈ items, (write item).result = .ok ()) :
    (items.forM write).result = .ok () ∧
      (items.forM write).code = items.flatMap fun item => (write item).code := by
  induction items with
  | nil => exact ⟨rfl, rfl⟩
  | cons first rest ih =>
      have hfirst := h first List.mem_cons_self
      obtain ⟨hresult, hcode⟩ := ih fun item hitem => h item (List.mem_cons_of_mem _ hitem)
      refine ⟨bind_result_eq_ok.mpr ⟨(), hfirst, hresult⟩, ?_⟩
      change (write first >>= fun _ => rest.forM write).code = _
      rw [code_bind_ok hfirst, hcode, List.flatMap_cons]

/-- If the code could be written, the processor carries it out, and then `post` holds of the
result and of the processor. -/
def Ensures (address : String → Int64) (emission : Emission α) (cpu : Cpu)
    (post : α → Cpu → Prop) : Prop :=
  ∀ value, emission.result = .ok value →
    ∃ next, cpu.execAll address emission.code = some next ∧ post value next

theorem Ensures.mono {emission : Emission α} {cpu : Cpu} {post post' : α → Cpu → Prop}
    (h : emission.Ensures address cpu post)
    (himp : ∀ value next, post value next → post' value next) :
    emission.Ensures address cpu post' := by
  intro value hvalue
  obtain ⟨next, hexec, hpost⟩ := h value hvalue
  exact ⟨next, hexec, himp value next hpost⟩

theorem Ensures.pure {value : α} {cpu : Cpu} {post : α → Cpu → Prop} (h : post value cpu) :
    (Pure.pure value : Emission α).Ensures address cpu post := by
  intro result hresult
  obtain rfl := Except.ok.inj hresult
  exact ⟨cpu, rfl, h⟩

theorem Ensures.fail {error : CompileError} {cpu : Cpu} {post : α → Cpu → Prop} :
    (Emission.fail error : Emission α).Ensures address cpu post :=
  fun _ hresult => nomatch hresult

theorem Ensures.bind {first : Emission α} {next : α → Emission β} {cpu : Cpu}
    {post : β → Cpu → Prop}
    (h : first.Ensures address cpu fun value middle => (next value).Ensures address middle post) :
    (first >>= next).Ensures address cpu post := by
  intro result hresult
  obtain ⟨value, hvalue, hnext⟩ := bind_result_eq_ok.mp hresult
  obtain ⟨middle, hmiddle, hrest⟩ := h value hvalue
  obtain ⟨last, hlast, hpost⟩ := hrest result hnext
  refine ⟨last, ?_, hpost⟩
  rw [code_bind_ok hvalue, Cpu.execAll_append, hmiddle, Option.bind_some, hlast]

theorem Ensures.instr {code : Instr String String String} {cpu next : Cpu}
    {post : Unit → Cpu → Prop} (hexec : cpu.exec? (code.map id id address) = some (.ok next))
    (h : post () next) : (Emission.instr code).Ensures address cpu post := by
  intro value _
  refine ⟨next, ?_, h⟩
  change Cpu.execAll address cpu [.instr code] = some next
  rw [Cpu.execAll, hexec]
  rfl

/-- An instruction, and then the rest. -/
theorem Ensures.instr_bind {code : Instr String String String} {rest : Unit → Emission β}
    {cpu : Cpu} (next : Cpu) {post : β → Cpu → Prop}
    (hexec : cpu.exec? (code.map id id address) = some (.ok next))
    (h : (rest ()).Ensures address next post) :
    (Emission.instr code >>= rest).Ensures address cpu post :=
  .bind (.instr hexec h)

end Emission

namespace Placed

open Emission

variable {placed : Placed} {address : String → Int64} {cpu : Cpu}

/-- The word that a source stands for: what the register of its destination holds, or a literal;
a text is given by its address. -/
def word (placed : Placed) (address : String → Int64) (cpu : Cpu) : Source → Int64
  | .temp number => ((placed.assignment.register? (.temp number)).map cpu.get).getD 0
  | .var name => ((placed.assignment.register? (.var name)).map cpu.get).getD 0
  | .int value => value.toInt64
  | .bool value => if value then 1 else 0
  | .str text => address text

theorem word_of_dest {source : Source} {dest : Dest} {register : Register}
    (hdest : source.dest? = some dest)
    (hregister : placed.assignment.register? dest = some register) :
    placed.word address cpu source = cpu.get register := by
  obtain rfl := Source.dest?_eq_some_iff.mp hdest
  cases dest <;> simp [word, Dest.toSource, hregister]

/-- The word of a source depends on the register of its destination alone. -/
theorem word_congr {source : Source} {next : Cpu}
    (h : ∀ dest register, source.dest? = some dest →
      placed.assignment.register? dest = some register → next.get register = cpu.get register) :
    placed.word address next source = placed.word address cpu source := by
  cases source with
  | temp number =>
      cases hregister : placed.assignment.register? (.temp number) with
      | none => simp [word, hregister]
      | some register => simp [word, hregister, h _ _ rfl hregister]
  | var name =>
      cases hregister : placed.assignment.register? (.var name) with
      | none => simp [word, hregister]
      | some register => simp [word, hregister, h _ _ rfl hregister]
  | int | bool | str => rfl

/-- Only a literal makes use of the register that is there for it. -/
structure Sourced (placed : Placed) (address : String → Int64) (scratch : Register)
    (source : Source) (cpu : Cpu) (register : Register) (next : Cpu) : Prop where
  word : next.get register = placed.word address cpu source
  same : cpu.SameExcept [scratch] next
  register : (register = scratch ∧ source.isLiteral = true) ∨
    ∃ dest, source.dest? = some dest ∧ placed.assignment.register? dest = some register ∧ next = cpu

theorem operand_ensures {dest : Dest} {post : Register → Cpu → Prop}
    (h : ∀ register, placed.assignment.register? dest = some register → post register cpu) :
    (placed.operand dest).Ensures address cpu post := by
  unfold operand Lowering.operand
  split
  next register hregister => exact .pure (h register hregister)
  next => exact .fail

theorem source_ensures (placed : Placed) (address : String → Int64) (cpu : Cpu)
    (scratch : Register) (source : Source) :
    (placed.source scratch source).Ensures address cpu
      (placed.Sourced address scratch source cpu) := by
  cases source with
  | temp number =>
      apply operand_ensures
      intro register hregister
      exact ⟨(word_of_dest rfl hregister).symm, .refl _ _, .inr ⟨_, rfl, hregister, rfl⟩⟩
  | var name =>
      apply operand_ensures
      intro register hregister
      exact ⟨(word_of_dest rfl hregister).symm, .refl _ _, .inr ⟨_, rfl, hregister, rfl⟩⟩
  | int | bool =>
      refine .instr_bind _ rfl (.pure ⟨?_, ?_, .inl ⟨rfl, rfl⟩⟩)
      · exact cpu.get_set_self scratch _
      · exact (Cpu.SameExcept.refl _ cpu).set List.mem_cons_self _
  | str text =>
      rw [source_str]
      refine .instr_bind _ rfl (.pure ⟨?_, ?_, .inl ⟨rfl, rfl⟩⟩)
      · exact cpu.get_set_self scratch _
      · exact (Cpu.SameExcept.refl _ cpu).set List.mem_cons_self _

theorem move_ensures {src dst : Register} {post : Unit → Cpu → Prop}
    (h : ∀ next, next.get dst = cpu.get src → cpu.SameExcept [dst] next → post () next) :
    (move src dst).Ensures address cpu post := by
  unfold move Lowering.move
  split
  next heq => exact .pure (h cpu (by rw [heq]) (.refl _ _))
  next =>
    refine .instr rfl (h _ ?_ ?_)
    · exact cpu.get_set_self dst _
    · exact (Cpu.SameExcept.refl _ cpu).set List.mem_cons_self _

end Placed

end ThreeAddress
