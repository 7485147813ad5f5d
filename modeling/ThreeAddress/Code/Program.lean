import ThreeAddress.Code.Inst

/-!
# Functions and programs

A function is a list of instructions with its parameters; a program is a list
of functions. Nothing keeps names apart: where a label or a function is
declared more than once, control reaches the last declaration.
-/

namespace ThreeAddress

structure Function where
  name : String
  params : List String
  locals : List String
  code : List Inst
deriving DecidableEq, Repr, Inhabited

namespace Function

/-- The index of the last declaration of `label`, counting from `index`. -/
def lastLabelFrom (label : String) : Nat → List Inst → Option Nat
  | _, [] => none
  | index, inst :: rest =>
      match lastLabelFrom label (index + 1) rest with
      | some found => some found
      | none => if inst = .label label then some index else none

/-- Where a jump to `label` goes: to its last declaration. -/
def labelIndex? (function : Function) (label : String) : Option Nat :=
  lastLabelFrom label 0 function.code

/-- The first declaration of `label`. -/
def firstLabel? (function : Function) (label : String) : Option Nat :=
  function.code.findIdx? (· = .label label)

/-- The names of the labels that a function declares, in order, repetitions included. -/
def labels (function : Function) : List String :=
  function.code.filterMap fun
    | .label name => some name
    | _ => none

/-- Control runs past the end of a function unless its last instruction returns. -/
def fallsThrough (function : Function) : Bool :=
  match function.code.getLast? with
  | some (.ret _) => false
  | _ => true

/-- Every destination that a function mentions: parameters, locals, and what
its instructions read and write. -/
def dests (function : Function) : List Dest :=
  function.params.map .var ++ function.locals.map .var ++
    function.code.flatMap fun inst => inst.def?.toList ++ inst.uses

theorem lastLabelFrom_eq_some {label : String} {code : List Inst} {start index : Nat}
    (h : lastLabelFrom label start code = some index) :
    start ≤ index ∧ code[index - start]? = some (.label label) := by
  induction code generalizing start with
  | nil => simp [lastLabelFrom] at h
  | cons inst rest ih =>
      unfold lastLabelFrom at h
      split at h
      next found hfound =>
        cases h
        obtain ⟨hle, hget⟩ := ih hfound
        refine ⟨by omega, ?_⟩
        rw [show index - start = index - (start + 1) + 1 by omega, List.getElem?_cons_succ]
        exact hget
      next =>
        split at h
        next hinst =>
          cases h
          simp [hinst]
        next => simp at h

/-- A label that is declared somewhere is found. -/
theorem exists_lastLabelFrom {label : String} {code : List Inst} (h : .label label ∈ code)
    (start : Nat) : ∃ index, lastLabelFrom label start code = some index := by
  induction code generalizing start with
  | nil => cases h
  | cons inst rest ih =>
      unfold lastLabelFrom
      cases hrest : lastLabelFrom label (start + 1) rest with
      | some index => exact ⟨index, rfl⟩
      | none =>
          rcases List.mem_cons.mp h with rfl | h
          · exact ⟨start, if_pos rfl⟩
          · obtain ⟨index, hindex⟩ := ih h (start + 1)
            cases hrest.symm.trans hindex

/-- A label's index holds its declaration. -/
theorem getElem?_labelIndex {function : Function} {label : String} {index : Nat}
    (h : function.labelIndex? label = some index) :
    function.code[index]? = some (.label label) := by
  simpa using (lastLabelFrom_eq_some h).2

end Function

structure Program where
  functions : List Function
deriving DecidableEq, Repr, Inhabited

namespace Program

/-- The first function of a name. -/
def function? (program : Program) (name : String) : Option Function :=
  program.functions.find? (·.name = name)

/-- The function where a run starts. -/
def main? (program : Program) : Option Function :=
  program.function? "main"

/-- The function that a call of `name` enters: the last of that name. -/
def callee? (program : Program) (name : String) : Option Function :=
  program.functions.reverse.find? (·.name = name)

end Program

end ThreeAddress
