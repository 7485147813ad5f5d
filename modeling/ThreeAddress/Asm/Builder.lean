import ThreeAddress.Asm.Encoding
import ThreeAddress.Text.Utf8

/-!
# Laying out code

A builder writes bytes one instruction after the other. A reference is written as zeros and
noted down with its label, which may be bound before or after it. The labels of routines and
literals are kept in the same registry as those of jumps, under names of their own. Once
everything is there, each reference is patched with the distance from its end to its label.
-/

namespace ThreeAddress

/-- Why code cannot be laid out. -/
inductive AssemblyError where
  | undefinedTarget (callee : String)
  | missingEntry
  /-- A label is referred to and not bound, or bound more than once. -/
  | badLabel
deriving DecidableEq, Repr

def AssemblyError.message : AssemblyError → String
  | undefinedTarget callee => "undefined call target " ++ callee
  | missingEntry => "program has no main routine"
  | badLabel => "label unbound or bound more than once"

/-- What stands for a built-in in code. -/
def Builtin.address : Builtin → UInt64
  | printInt => 1
  | printBool => 2
  | printStr => 3
  | malloc => 4

/-- The label of a routine. -/
def routineLabel (name : String) : String := "fn:" ++ name

/-- The label of a literal. -/
def literalLabel (index : Nat) : String := "lit:" ++ toString index

structure Builder where
  /-- The bytes so far, with zeros for references. -/
  code : Array UInt8
  /-- The labels that have been named, by their names. -/
  registry : List (String × Nat)
  /-- The number of labels that have been made. -/
  made : Nat
  /-- The labels that have been bound, with their offsets. -/
  bound : List (Nat × Nat)
  /-- The ends of the references, with their labels. -/
  references : List (Nat × Nat)
  /-- The routines that may be called. -/
  routines : List String
deriving DecidableEq, Repr, Inhabited

namespace Builder

def empty : Builder := ⟨#[], [], 0, [], [], []⟩

/-- The number of bytes so far. -/
def offset (builder : Builder) : Nat := builder.code.size

/-- The label of a name, which is made if there is none. -/
def label (builder : Builder) (name : String) : Nat × Builder :=
  match builder.registry.lookup name with
  | some label => (label, builder)
  | none =>
      (builder.made, { builder with
        registry := (name, builder.made) :: builder.registry
        made := builder.made + 1 })

/-- Makes a routine known before its code is there. -/
def declare (builder : Builder) (routine : String) : Builder :=
  { builder with routines := builder.routines ++ [routine] }

/-- Binds a label to the present offset. -/
def bind (builder : Builder) (name : String) : Builder :=
  let (label, builder) := builder.label name
  { builder with bound := builder.bound ++ [(label, builder.offset)] }

def write (builder : Builder) (bytes : List UInt8) : Builder :=
  { builder with code := builder.code ++ bytes }

/-- Writes an instruction whose last bytes are to become the distance to a label. -/
def refer (builder : Builder) (name : String) (code : LaidOut) : Builder :=
  let (label, builder) := builder.label name
  let builder := builder.write code.encode
  { builder with references := builder.references ++ [(builder.offset, label)] }

/-- Built-ins come before routines. -/
def call (builder : Builder) (callee : String) : Except AssemblyError Builder :=
  match Builtin.ofName? callee with
  | some builtin => .ok (builder.write (LaidOut.encode (.call (.builtin builtin.address))))
  | none =>
      if callee ∈ builder.routines then
        .ok (builder.refer (routineLabel callee) (.call (.routine 0)))
      else .error (.undefinedTarget callee)

/-- Writes a label or an instruction; it only fails on a call. -/
def emit (builder : Builder) : Item Nat → Except AssemblyError Builder
  | .label name => .ok (builder.bind name)
  | .instr (.jmp target) => .ok (builder.refer target (.jmp 0))
  | .instr (.jcc condition target) => .ok (builder.refer target (.jcc condition 0))
  | .instr (.leaLiteral index dst) => .ok (builder.refer (literalLabel index) (.leaLiteral 0 dst))
  | .instr (.call callee) => builder.call callee
  | .instr code =>
      .ok (builder.write (LaidOut.encode (code.map (fun _ => 0) (fun _ => .builtin 0) fun _ => 0)))

def emitAll : Builder → List (Item Nat) → Except AssemblyError Builder
  | builder, [] => .ok builder
  | builder, item :: rest =>
      match builder.emit item with
      | .error error => .error error
      | .ok builder => builder.emitAll rest

/-- Places bytes and a final zero under a label. -/
def data (builder : Builder) (name : String) (bytes : List UInt8) : Builder :=
  (builder.bind name).write (bytes ++ [0])

/-- The offset of a label. -/
def place? (builder : Builder) (label : Nat) : Option Nat := builder.bound.lookup label

/-- The name of a label. -/
def nameOf (builder : Builder) (label : Nat) : String :=
  ((builder.registry.find? (·.2 = label)).map (·.1)).getD ""

/-- The names of the labels that have been bound, with their offsets. -/
def symbols (builder : Builder) : List (String × Nat) :=
  builder.bound.map fun (label, offset) => (builder.nameOf label, offset)

/-- Every label that is referred to is bound, and no label is bound twice. -/
def WellLabelled (builder : Builder) : Prop :=
  (builder.bound.map (·.1)).Nodup ∧
    ∀ label ∈ builder.references.map (·.2), label ∈ builder.bound.map (·.1)

instance (builder : Builder) : Decidable builder.WellLabelled :=
  inferInstanceAs (Decidable (_ ∧ _))

/-- Replaces bytes from an offset on. -/
def overwrite (code : Array UInt8) : Nat → List UInt8 → Array UInt8
  | _, [] => code
  | offset, byte :: rest => overwrite (code.setIfInBounds offset byte) (offset + 1) rest

/-- Puts the distance to a place into the four bytes before an offset. -/
def patch (code : Array UInt8) (stop place : Nat) : Array UInt8 :=
  overwrite code (stop - 4) (Encoding.bytes32 (Int32.ofInt ((place : Int) - stop)))

def finish (builder : Builder) : Except AssemblyError (List UInt8) :=
  if builder.WellLabelled then
    let code := builder.references.foldl
      (fun code (stop, label) => patch code stop ((builder.place? label).getD 0)) builder.code
    .ok code.toList
  else .error .badLabel

end Builder

end ThreeAddress
