import ThreeAddress.Code.Operand

/-!
# Values

Values carry their type, and nothing converts one type into another. A heap
slot that was never stored to holds the undefined value, as does the result of
a call that returns none.
-/

namespace ThreeAddress

inductive Value where
  | int (value : Int32)
  | bool (value : Bool)
  | str (text : String)
  | undefined
deriving DecidableEq, Repr, Inhabited

/-- The type that a value carries. -/
inductive ValueType where
  | integer | boolean | string | undefined
deriving DecidableEq, Repr, Inhabited

def ValueType.name : ValueType → String
  | integer => "integer"
  | boolean => "boolean"
  | string => "string"
  | undefined => "undefined"

namespace Value

def type : Value → ValueType
  | int _ => .integer
  | bool _ => .boolean
  | str _ => .string
  | undefined => .undefined

/-- A value as it is printed. -/
def text : Value → String
  | int value => toString value.toInt
  | bool value => if value then "true" else "false"
  | str text => text
  | undefined => "undefined"

end Value

/-- What the destinations of one activation hold. A destination is unbound until it is first
written. -/
structure Bindings where
  entries : List (Dest × Value)
deriving DecidableEq, Repr, Inhabited

namespace Bindings

def empty : Bindings := ⟨[]⟩

def find? (dest : Dest) : List (Dest × Value) → Option Value
  | [] => none
  | entry :: rest => if entry.1 = dest then some entry.2 else find? dest rest

def get? (bindings : Bindings) (dest : Dest) : Option Value :=
  find? dest bindings.entries

def setEntry (dest : Dest) (value : Value) : List (Dest × Value) → List (Dest × Value)
  | [] => [(dest, value)]
  | entry :: rest =>
      if entry.1 = dest then (dest, value) :: rest else entry :: setEntry dest value rest

def set (bindings : Bindings) (dest : Dest) (value : Value) : Bindings :=
  ⟨setEntry dest value bindings.entries⟩

/-- The bindings of variables to values in order; of a repeated name the last one counts. -/
def ofParams (names : List String) (values : List Value) : Bindings :=
  (names.zip values).foldl (fun bindings entry => bindings.set (.var entry.1) entry.2) empty

theorem find?_setEntry (dest other : Dest) (value : Value)
    (entries : List (Dest × Value)) :
    find? other (setEntry dest value entries) =
      if dest = other then some value else find? other entries := by
  induction entries with
  | nil => simp [setEntry, find?]
  | cons entry rest ih =>
      unfold setEntry
      split
      next hkey =>
        by_cases h : dest = other
        · simp [find?, h]
        · simp [find?, h, hkey]
      next hkey =>
        by_cases h : dest = other
        · subst h
          simp [find?, hkey, ih]
        · simp [find?, h, ih]

@[simp] theorem get?_empty (dest : Dest) : empty.get? dest = none := rfl

/-- Writing a destination changes what it holds and nothing else. -/
theorem get?_set (bindings : Bindings) (dest other : Dest) (value : Value) :
    (bindings.set dest value).get? other =
      if dest = other then some value else bindings.get? other :=
  find?_setEntry dest other value bindings.entries

end Bindings

end ThreeAddress
