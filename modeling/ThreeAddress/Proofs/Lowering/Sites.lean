import ThreeAddress.Proofs.Asm.Layout
import ThreeAddress.Proofs.Lowering.Execution

/-!
# Where the code of an instruction is

The code of a function is its prologue, the code of its instructions in order,
and an epilogue if control can run past the last instruction. All of it could be
written if the function could be compiled.
-/

namespace ThreeAddress

namespace Placed

open Emission

variable {placed : Placed} {index : Nat} {inst : Inst}

/-- The code of the instructions before an index, after the prologue. -/
def codeBefore (placed : Placed) (index : Nat) : List (Item String) :=
  placed.prologue.code ++
    (placed.function.code.take index).flatMap fun inst => (placed.inst inst).code

/-- Where the code of the instruction at an index starts, counting from the start of the
function. -/
def site (placed : Placed) (index : Nat) : Nat := Item.count (placed.codeBefore index)

/-- The code of a function that could be compiled, with all its parts. -/
structure Written (placed : Placed) : Prop where
  prologue : placed.prologue.result = .ok ()
  inst : ∀ inst ∈ placed.function.code, (placed.inst inst).result = .ok ()
  code : placed.code.code = placed.codeBefore placed.function.code.length ++
    if placed.function.fallsThrough then placed.epilogue.code else []

theorem written_of_result (h : placed.code.result = .ok ()) : placed.Written := by
  unfold Placed.code Lowering.code at h
  obtain ⟨_, hprologue, h⟩ := bind_result_eq_ok.mp h
  obtain ⟨_, hinsts, _⟩ := bind_result_eq_ok.mp h
  have hall := result_of_forM hinsts
  obtain ⟨_, hcode⟩ := forM_eq hall
  refine ⟨hprologue, hall, ?_⟩
  unfold Placed.code Lowering.code
  rw [code_bind_ok hprologue, code_bind_ok hinsts, hcode, codeBefore, List.take_length,
    List.append_assoc]
  cases placed.function.fallsThrough <;> rfl

theorem codeBefore_succ (hinst : placed.function.code[index]? = some inst) :
    placed.codeBefore (index + 1) = placed.codeBefore index ++ (placed.inst inst).code := by
  rw [codeBefore, List.take_add_one, hinst, List.flatMap_append, codeBefore, List.append_assoc]
  simp

theorem site_succ (hinst : placed.function.code[index]? = some inst) :
    placed.site (index + 1) = placed.site index + Item.count (placed.inst inst).code := by
  rw [site, codeBefore_succ hinst, Item.count_append, site]

/-- The code of an instruction is followed by the rest of the code. -/
theorem Written.code_eq (h : placed.Written) (hinst : placed.function.code[index]? = some inst) :
    ∃ rest, placed.code.code =
      placed.codeBefore index ++ ((placed.inst inst).code ++ rest) := by
  have hbefore : placed.codeBefore placed.function.code.length =
      placed.codeBefore (index + 1) ++
        (placed.function.code.drop (index + 1)).flatMap fun inst => (placed.inst inst).code := by
    rw [codeBefore, codeBefore, List.take_length, List.append_assoc, ← List.flatMap_append,
      List.take_append_drop]
  rw [h.code, hbefore, codeBefore_succ hinst, List.append_assoc, List.append_assoc]
  exact ⟨_, rfl⟩

theorem Written.inst_of_getElem? (h : placed.Written)
    (hinst : placed.function.code[index]? = some inst) : (placed.inst inst).result = .ok () :=
  h.inst inst (List.mem_of_getElem? hinst)

theorem forM_instr (registers : List Register) (code : Register → Instr String String String) :
    (registers.forM fun register => instr (code register)).result = .ok () ∧
      (registers.forM fun register => instr (code register)).code =
        registers.map fun register => .instr (code register) := by
  obtain ⟨hresult, hcode⟩ : _ ∧ (registers.forM fun register => instr (code register)).code =
      registers.flatMap fun register => [.instr (code register)] := forM_eq fun _ _ => rfl
  refine ⟨hresult, ?_⟩
  rw [hcode, List.map_eq_flatMap]

/-- The code that makes or takes away the padding of a frame, if there is any. -/
def framing (placed : Placed) (code : Int32 → Instr String String String) : List (Item String) :=
  if placed.padding ≠ 0 then [.instr (code placed.padding)] else []

theorem result_epilogue (placed : Placed) : placed.epilogue.result = .ok () := by
  obtain ⟨hpops, _⟩ := forM_instr placed.saved.reverse .pop
  have hrest : (do
      placed.saved.reverse.forM fun register => instr (.pop register)
      instr .ret : Emission Unit).result = .ok () :=
    bind_result_eq_ok.mpr ⟨(), hpops, rfl⟩
  unfold epilogue Lowering.epilogue
  split
  next => exact bind_result_eq_ok.mpr ⟨(), rfl, hrest⟩
  next => exact hrest

theorem epilogue_code (placed : Placed) :
    placed.epilogue.code = placed.framing .addSp ++
      (placed.saved.reverse.map (fun register => .instr (.pop register)) ++ [.instr .ret]) := by
  obtain ⟨hresult, hcode⟩ := forM_instr placed.saved.reverse .pop
  unfold epilogue Lowering.epilogue framing
  split
  next => rw [code_bind_ok rfl, code_bind_ok hresult, hcode]; rfl
  next => rw [code_bind_ok hresult, hcode]; rfl

end Placed

end ThreeAddress
