import ThreeAddress.Text.Utf8

/-!
# Literal pools

The texts that a program refers to, each once, numbered in the order in which
they are first met. A text is found by its number, and its number by the text. The
pool only grows, so numbers stay valid.
-/

namespace ThreeAddress

structure LiteralPool where
  texts : List String
  /-- The number of each text, in no order that matters. -/
  numbers : List (String × Nat)
  inverse : ∀ text index, numbers.lookup text = some index ↔ texts[index]? = some text
deriving DecidableEq, Repr

namespace LiteralPool

def empty : LiteralPool := ⟨[], [], by simp⟩

instance : Inhabited LiteralPool := ⟨empty⟩

def size (pool : LiteralPool) : Nat := pool.texts.length

def get? (pool : LiteralPool) (index : Nat) : Option String := pool.texts[index]?

def indexOf? (pool : LiteralPool) (text : String) : Option Nat := pool.numbers.lookup text

/-- Numbers and texts stand for each other. -/
theorem indexOf?_eq_some_iff {pool : LiteralPool} {text : String} {index : Nat} :
    pool.indexOf? text = some index ↔ pool.get? index = some text :=
  pool.inverse text index

/-- Adds a text that is not in the pool, under the next number. -/
def push (pool : LiteralPool) (text : String) (h : pool.indexOf? text = none) : LiteralPool where
  texts := pool.texts ++ [text]
  numbers := (text, pool.size) :: pool.numbers
  inverse := fun other index => by
    have hinverse := pool.inverse other index
    rw [List.lookup_cons]
    by_cases heq : other = text
    · -- The text has no number before, so the next one is its only number.
      subst heq
      have hnone : pool.texts[index]? ≠ some other := fun hsome => by
        cases (hinverse.mpr hsome).symm.trans h
      grind [size]
    · have hne : (other == text) = false := by simpa using heq
      rw [hne, hinverse]
      grind

/-- The number of a text, and the pool that has it. -/
def intern (pool : LiteralPool) (text : String) : Nat × LiteralPool :=
  match h : pool.indexOf? text with
  | some index => (index, pool)
  | none => (pool.size, pool.push text h)

theorem intern_of_some {pool : LiteralPool} {text : String} {index : Nat}
    (h : pool.indexOf? text = some index) : pool.intern text = (index, pool) := by
  unfold intern
  split
  next found hfound => rw [Option.some.inj (hfound.symm.trans h)]
  next hnone => cases hnone.symm.trans h

theorem intern_of_none {pool : LiteralPool} {text : String} (h : pool.indexOf? text = none) :
    pool.intern text = (pool.size, pool.push text h) := by
  unfold intern
  split
  next hsome => cases hsome.symm.trans h
  next => rfl

def internAll (pool : LiteralPool) (texts : List String) : LiteralPool :=
  texts.foldl (fun pool text => (pool.intern text).2) pool

/-- The label of a text in assembly text. -/
def label (index : Nat) : String := "_S" ++ toString index

end LiteralPool

/-- A byte as three octal digits. -/
def octalDigits (byte : UInt8) : List Char :=
  [byte.toNat / 64, byte.toNat / 8 % 8, byte.toNat % 8].map Nat.digitChar

/-- One byte inside the quotes of an assembly string. -/
def escapeByte (byte : UInt8) : List Char :=
  if byte = 0x22 then ['\\', '"']
  else if byte = 0x5C then ['\\', '\\']
  else if byte = 0x0A then ['\\', 'n']
  else if byte = 0x09 then ['\\', 't']
  else if 0x20 ≤ byte ∧ byte ≤ 0x7E then [Char.ofNat byte.toNat]
  else '\\' :: octalDigits byte

/-- A text inside the quotes of an assembly string: printed ASCII alone, with other bytes in
octal. -/
def escapeAssembly (text : String) : String :=
  String.ofList ((Text.encode text).flatMap escapeByte)

end ThreeAddress
