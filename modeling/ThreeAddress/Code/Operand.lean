/-!
# Operands

Instructions read sources and write destinations. A destination is a numbered
temporary or a named variable; a source is a destination that is read, or a
literal. Destinations are ordered: temporaries come first, by number, then
variables, by name.
-/

namespace ThreeAddress

/-- An operand that an instruction writes. -/
inductive Dest where
  | temp (number : UInt32)
  | var (name : String)
deriving DecidableEq, Repr, Inhabited

/-- An operand that an instruction reads. -/
inductive Source where
  | temp (number : UInt32)
  | var (name : String)
  | int (value : Int32)
  | bool (value : Bool)
  | str (text : String)
deriving DecidableEq, Repr, Inhabited

/-- The operand that reads a destination. -/
def Dest.toSource : Dest → Source
  | .temp number => .temp number
  | .var name => .var name

/-- The destination that a source reads, unless it is a literal. -/
def Source.dest? : Source → Option Dest
  | .temp number => some (.temp number)
  | .var name => some (.var name)
  | .int _ | .bool _ | .str _ => none

def Source.isLiteral (source : Source) : Bool :=
  source.dest?.isNone

@[simp] theorem Dest.dest?_toSource (dest : Dest) : dest.toSource.dest? = some dest := by
  cases dest <;> rfl

theorem Source.dest?_eq_some_iff {source : Source} {dest : Dest} :
    source.dest? = some dest ↔ source = dest.toSource := by
  cases source <;> cases dest <;> simp [Source.dest?, Dest.toSource]

/-- A heap address: a base operand and a constant offset. -/
structure Address where
  base : Source
  offset : Int32
deriving DecidableEq, Repr, Inhabited

namespace Dest

/-- Temporaries precede variables; each kind is in its own order. -/
def precedes : Dest → Dest → Bool
  | .temp left, .temp right => decide (left < right)
  | .temp _, .var _ => true
  | .var _, .temp _ => false
  | .var left, .var right => decide (left < right)

instance : LT Dest := ⟨fun left right => left.precedes right = true⟩

instance (left right : Dest) : Decidable (left < right) :=
  inferInstanceAs (Decidable (left.precedes right = true))

@[simp] theorem temp_lt_temp {left right : UInt32} :
    temp left < temp right ↔ left < right :=
  decide_eq_true_iff

@[simp] theorem temp_lt_var {number : UInt32} {name : String} : temp number < var name :=
  rfl

@[simp] theorem not_var_lt_temp {name : String} {number : UInt32} :
    ¬ var name < temp number :=
  Bool.false_ne_true

@[simp] theorem var_lt_var {left right : String} : var left < var right ↔ left < right :=
  decide_eq_true_iff

theorem lt_irrefl (dest : Dest) : ¬ dest < dest := by
  cases dest with
  | temp number => exact fun h => Nat.lt_irrefl _ (UInt32.lt_iff_toNat_lt.mp (temp_lt_temp.mp h))
  | var name => exact fun h => String.lt_irrefl name (var_lt_var.mp h)

theorem lt_trans {first second third : Dest} (hfirst : first < second)
    (hsecond : second < third) : first < third := by
  cases first with
  | temp first =>
      cases third with
      | var third => exact temp_lt_var
      | temp third =>
          cases second with
          | var second => exact absurd hsecond not_var_lt_temp
          | temp second =>
              rw [temp_lt_temp, UInt32.lt_iff_toNat_lt] at *
              exact Nat.lt_trans hfirst hsecond
  | var first =>
      cases second with
      | temp second => exact absurd hfirst not_var_lt_temp
      | var second =>
          cases third with
          | temp third => exact absurd hsecond not_var_lt_temp
          | var third =>
              rw [var_lt_var] at *
              exact String.lt_trans hfirst hsecond

/-- Of two different destinations one comes first. -/
theorem lt_or_gt_of_ne {left right : Dest} (hne : left ≠ right) :
    left < right ∨ right < left := by
  cases left with
  | temp left =>
      cases right with
      | var right => exact .inl temp_lt_var
      | temp right =>
          have hnat : left.toNat ≠ right.toNat :=
            fun h => hne (congrArg temp (UInt32.toNat_inj.mp h))
          rw [temp_lt_temp, temp_lt_temp, UInt32.lt_iff_toNat_lt, UInt32.lt_iff_toNat_lt]
          exact Nat.lt_or_gt_of_ne hnat
  | var left =>
      cases right with
      | temp right => exact .inr temp_lt_var
      | var right =>
          rw [var_lt_var, var_lt_var]
          by_cases hlt : left < right
          · exact .inl hlt
          · by_cases hgt : right < left
            · exact .inr hgt
            · exact absurd (congrArg var
                (String.le_antisymm (String.not_lt.mp hgt) (String.not_lt.mp hlt))) hne

end Dest

end ThreeAddress
