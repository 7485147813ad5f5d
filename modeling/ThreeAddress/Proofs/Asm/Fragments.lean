import ThreeAddress.Native.Executable

/-!
# Layouts

A layout has the pieces of an image in order, with labels for what instructions refer to,
and with the offsets at which labels are bound. The bytes of each piece follow from where
it ends and where the labels are.
-/

namespace ThreeAddress

/-- A call target that is known: a built-in, or a routine by its label. -/
inductive CallLabel where
  | builtin (builtin : Builtin)
  | routine (label : String)
deriving DecidableEq, Repr, Inhabited

/-- An instruction whose references are labels. -/
abbrev Labelled := Instr String CallLabel String

/-- A piece of the code. -/
inductive Fragment where
  | instr (code : Labelled)
  | data (bytes : List UInt8)
deriving DecidableEq, Repr, Inhabited

namespace Fragment

/-- The number of bytes of a fragment, which no reference changes. -/
def size : Fragment → Nat
  | instr code =>
      (LaidOut.encode (code.map (fun _ => 0)
        (fun
          | .builtin _ => .builtin 0
          | .routine _ => .routine 0)
        (fun _ => 0))).length
  | data bytes => bytes.length

/-- The labels that a fragment refers to. -/
def references : Fragment → List String
  | instr (.jmp target) | instr (.jcc _ target) => [target]
  | instr (.call (.routine label)) => [label]
  | instr (.leaLiteral label _) => [label]
  | _ => []

/-- The bytes of a fragment that ends at `stop`. -/
def encode (place : String → Nat) (stop : Nat) : Fragment → List UInt8
  | instr code =>
      let displacement (label : String) := Int32.ofInt ((place label : Int) - stop)
      LaidOut.encode (code.map displacement
        (fun
          | .builtin builtin => .builtin builtin.address
          | .routine label => .routine (displacement label))
        displacement)
  | data bytes => bytes

end Fragment

structure Layout where
  fragments : List Fragment
  /-- The labels that have been bound, with their offsets. -/
  labels : List (String × Nat)
  /-- The number of bytes so far. -/
  offset : Nat
  /-- The routines that may be called. -/
  routines : List String
deriving DecidableEq, Repr, Inhabited

namespace Layout

def empty : Layout := ⟨[], [], 0, []⟩

/-- Makes a routine known before its code is there. -/
def declare (layout : Layout) (routine : String) : Layout :=
  { layout with routines := layout.routines ++ [routine] }

/-- Binds a label to the present offset. -/
def bind (layout : Layout) (label : String) : Layout :=
  { layout with labels := layout.labels ++ [(label, layout.offset)] }

def add (layout : Layout) (fragment : Fragment) : Layout :=
  { layout with
    fragments := layout.fragments ++ [fragment]
    offset := layout.offset + fragment.size }

/-- The label that a call refers to. Built-ins come before routines. -/
def callLabel (layout : Layout) (callee : String) : Except AssemblyError CallLabel :=
  match Builtin.ofName? callee with
  | some builtin => .ok (.builtin builtin)
  | none =>
      if callee ∈ layout.routines then .ok (.routine (routineLabel callee))
      else .error (.undefinedTarget callee)

/-- The instruction with labels for references; it only fails on a call. -/
def labelled (layout : Layout) : Instr String String Nat → Except AssemblyError Labelled
  | .call callee => (layout.callLabel callee).map .call
  | code => .ok (code.map id .routine literalLabel)

def emit (layout : Layout) : Item Nat → Except AssemblyError Layout
  | .label name => .ok (layout.bind name)
  | .instr code => (layout.labelled code).map fun code => layout.add (.instr code)

def emitAll : Layout → List (Item Nat) → Except AssemblyError Layout
  | layout, [] => .ok layout
  | layout, item :: rest =>
      match layout.emit item with
      | .error error => .error error
      | .ok layout => layout.emitAll rest

/-- Places bytes and a final zero under a label. -/
def data (layout : Layout) (label : String) (bytes : List UInt8) : Layout :=
  (layout.bind label).add (.data (bytes ++ [0]))

/-- The offset of a label. -/
def place? (layout : Layout) (label : String) : Option Nat :=
  (layout.labels.find? (·.1 = label)).map (·.2)

/-- Every label that is referred to is bound, and no label is bound twice. -/
def WellLabelled (layout : Layout) : Prop :=
  (layout.labels.map (·.1)).Nodup ∧
    ∀ label ∈ layout.fragments.flatMap Fragment.references,
      label ∈ layout.labels.map (·.1)

instance (layout : Layout) : Decidable layout.WellLabelled :=
  inferInstanceAs (Decidable (_ ∧ _))

/-- The bytes of fragments that start at `offset`. -/
def encodeFrom (place : String → Nat) : Nat → List Fragment → List UInt8
  | _, [] => []
  | offset, fragment :: rest =>
      fragment.encode place (offset + fragment.size) ++
        encodeFrom place (offset + fragment.size) rest

def finish (layout : Layout) : Except AssemblyError (List UInt8) :=
  if layout.WellLabelled then
    .ok (encodeFrom (fun label => (layout.place? label).getD 0) 0 layout.fragments)
  else .error .badLabel

end Layout

namespace Layout

/-- Adds routines, and says where the last one of the name `main` starts. -/
def addRoutines : Layout → Option Nat → List Routine → Except AssemblyError (Layout × Option Nat)
  | layout, entry, [] => .ok (layout, entry)
  | layout, entry, routine :: rest =>
      match (layout.bind (routineLabel routine.name)).emitAll routine.items with
      | .error error => .error error
      | .ok next =>
          next.addRoutines (if routine.name = "main" then some layout.offset else entry) rest

/-- Adds literals, numbered from `index`. -/
def addLiterals : Layout → Nat → List String → Layout
  | layout, _, [] => layout
  | layout, index, text :: rest =>
      (layout.data (literalLabel index) (Text.encode text)).addLiterals (index + 1) rest

end Layout

/-- Lays out a program. A call without a target is found first, then that there is no place to
start, then what is wrong with labels. -/
def AsmProgram.layOut (program : AsmProgram) : Except AssemblyError Image :=
  let start := program.routines.foldl (fun layout routine => layout.declare routine.name)
    Layout.empty
  match start.addRoutines none program.routines with
  | .error error => .error error
  | .ok (_, none) => .error .missingEntry
  | .ok (layout, some entry) =>
      let layout := layout.addLiterals 0 program.literals.texts
      match layout.finish with
      | .error error => .error error
      | .ok code => .ok ⟨code, entry, layout.labels⟩

end ThreeAddress
