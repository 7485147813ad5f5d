import ThreeAddress.Eval.Operators
import ThreeAddress.Proofs.Lowering.Emission
import ThreeAddress.Native.Cpu

/-!
# Values in registers

An integer is held sign-extended and a truth value as 0 or 1. On such words the
operations of the processor compute what the operators of the language compute.
-/

namespace ThreeAddress

/-- The word that a register holds for a truth value. -/
def boolWord (value : Bool) : Int64 := if value then 1 else 0

/-- The word that a register holds for an integer or a truth value. -/
def Value.word? : Value → Option Int64
  | .int value => some value.toInt64
  | .bool value => some (boolWord value)
  | .str _ | .undefined => none

theorem boolWord_and (left right : Bool) :
    boolWord left &&& boolWord right = boolWord (left && right) := by
  cases left <;> cases right <;> decide

theorem boolWord_or (left right : Bool) :
    boolWord left ||| boolWord right = boolWord (left || right) := by
  cases left <;> cases right <;> decide

theorem boolWord_xor_one (value : Bool) :
    boolWord value ^^^ (1 : Int32).toInt64 = boolWord (!value) := by
  cases value <;> decide

/-- The low byte is all that remains of a word whose low byte was written. -/
theorem lowByte_boolWord (word : Int64) (value : Bool) :
    ((word &&& ~~~255) ||| boolWord value) &&& 255 = boolWord value := by
  apply Int64.toBitVec_inj.mp
  have hmask : (word.toBitVec &&& ~~~(255#64)) &&& 255#64 = 0#64 := by
    rw [BitVec.and_assoc]
    simp
  have hvalue : (boolWord value).toBitVec &&& 255#64 = (boolWord value).toBitVec := by
    cases value <;> decide
  change ((word.toBitVec &&& ~~~(255#64)) ||| (boolWord value).toBitVec) &&& 255#64 = _
  rw [BitVec.and_comm, BitVec.and_or_distrib_left, BitVec.and_comm, hmask, BitVec.and_comm 255#64,
    hvalue, BitVec.zero_or]

theorem orderOf_toInt64 (left right : Int32) :
    orderOf left.toInt64 right.toInt64 =
      if left < right then .lt else if left = right then .eq else .gt := by
  have heq : left.toInt64 = right.toInt64 ↔ left = right := by
    constructor
    · intro h
      have hback := congrArg Int64.toInt32 h
      simpa using hback
    · exact congrArg Int32.toInt64
  simp only [orderOf, Int32.toInt64_lt, heq]

/-- The condition of a relational operator holds of integers that are so related. -/
theorem holds_orderOf_toInt64 (op : RelOp) (left right : Int32) :
    op.condition.holds (orderOf left.toInt64 right.toInt64) = op.holdsInt left right := by
  rw [orderOf_toInt64]
  have hle : left ≤ right ↔ left < right ∨ left = right := Int32.le_iff_lt_or_eq
  have hge : right ≤ left ↔ ¬ left < right := Int32.not_lt.symm
  have hgt : right < left ↔ ¬ left ≤ right := Int32.not_le.symm
  by_cases hlt : left < right
  · have hne : left ≠ right := fun heq => Int32.lt_irrefl (heq ▸ hlt)
    cases op <;>
      simp [RelOp.condition, Condition.holds, RelOp.holdsInt, hlt, hne, hle, hge, hgt]
  · by_cases heq : left = right
    · subst heq
      cases op <;> simp [RelOp.condition, Condition.holds, RelOp.holdsInt]
    · cases op <;>
        simp [RelOp.condition, Condition.holds, RelOp.holdsInt, hlt, heq, hle, hge, hgt]

/-- A comparison of words decides the relation of the values. -/
theorem RelOp.eval_eq_ok {op : RelOp} {left right : Value} {holds : Bool}
    (h : op.eval left right = .ok holds) :
    ∃ leftWord rightWord, left.word? = some leftWord ∧ right.word? = some rightWord ∧
      op.condition.holds (orderOf leftWord rightWord) = holds := by
  unfold RelOp.eval at h
  split at h
  next left right =>
    obtain rfl := Except.ok.inj h
    exact ⟨_, _, rfl, rfl, holds_orderOf_toInt64 op left right⟩
  next left right =>
    obtain rfl := Except.ok.inj h
    refine ⟨_, _, rfl, rfl, ?_⟩
    cases left <;> cases right <;> decide
  next left right =>
    obtain rfl := Except.ok.inj h
    refine ⟨_, _, rfl, rfl, ?_⟩
    cases left <;> cases right <;> decide
  next => exact absurd h (by simp)

/-- Other arithmetic than division, with the sign extended again unless it is on truth values. -/
theorem ArithOp.eval_eq_ok {op : ArithOp} {alu : AluOp} {left right value : Value}
    (halu : op.alu? = some alu) (h : op.eval left right = .ok value) :
    ∃ leftWord rightWord, left.word? = some leftWord ∧ right.word? = some rightWord ∧
      value.word? = some (if op.isLogical then alu.eval leftWord rightWord
        else (alu.eval leftWord rightWord).toInt32.toInt64) := by
  unfold ArithOp.eval at h
  split at h
  next left right =>
    obtain rfl := Except.ok.inj h
    obtain rfl := Option.some.inj halu
    exact ⟨_, _, rfl, rfl, by simp [AluOp.eval, ArithOp.isLogical, Value.word?]⟩
  next left right =>
    obtain rfl := Except.ok.inj h
    obtain rfl := Option.some.inj halu
    exact ⟨_, _, rfl, rfl, by simp [AluOp.eval, ArithOp.isLogical, Value.word?]⟩
  next left right =>
    obtain rfl := Except.ok.inj h
    obtain rfl := Option.some.inj halu
    exact ⟨_, _, rfl, rfl, by simp [AluOp.eval, ArithOp.isLogical, Value.word?]⟩
  next => exact absurd halu (by simp [ArithOp.alu?])
  next left right =>
    obtain rfl := Except.ok.inj h
    obtain rfl := Option.some.inj halu
    exact ⟨_, _, rfl, rfl, by simp [AluOp.eval, ArithOp.isLogical, Value.word?, boolWord_and]⟩
  next left right =>
    obtain rfl := Except.ok.inj h
    obtain rfl := Option.some.inj halu
    exact ⟨_, _, rfl, rfl, by simp [AluOp.eval, ArithOp.isLogical, Value.word?, boolWord_or]⟩
  next => exact absurd h (by simp)

/-- The two halves of a word whose sign has been extended make up that word. -/
theorem wide_eq (word : Int64) :
    (if word < 0 then (-1 : Int64) else 0).toInt * 18446744073709551616 +
      (word.toUInt64.toNat : Int) = word.toInt := by
  have hnat : word.toInt = if 2 * word.toUInt64.toNat < 18446744073709551616
      then (word.toUInt64.toNat : Int) else (word.toUInt64.toNat : Int) - 18446744073709551616 :=
    BitVec.toInt_eq_toNat_cond word.toBitVec
  have hnegative : word < 0 ↔ word.toInt < 0 := Int64.lt_iff_toInt_lt
  have hbound : word.toUInt64.toNat < 18446744073709551616 := word.toUInt64.toNat_lt
  by_cases hsign : word < 0
  · have hminus : (-1 : Int64).toInt = -1 := rfl
    rw [if_pos hsign, hminus]
    have hlt := hnegative.mp hsign
    split at hnat <;> omega
  · have hzero : (0 : Int64).toInt = 0 := rfl
    rw [if_neg hsign, hzero]
    have hle := mt hnegative.mpr hsign
    split at hnat <;> omega

theorem tdiv_toInt_bounds (left right : Int32) :
    -2147483648 ≤ left.toInt.tdiv right.toInt ∧ left.toInt.tdiv right.toInt ≤ 2147483648 := by
  have hlow := left.le_toInt
  have hhigh := left.toInt_lt
  have habs : (left.toInt.tdiv right.toInt).natAbs ≤ left.toInt.natAbs := by
    rw [Int.natAbs_tdiv]
    exact Nat.div_le_self _ _
  omega

/-- Division of integers by way of twice as wide a dividend. -/
theorem ArithOp.div_eq_ok {left right value : Value} (h : ArithOp.div.eval left right = .ok value) :
    ∃ leftWord rightWord quotient remainder,
      left.word? = some leftWord ∧ right.word? = some rightWord ∧
      divideWide (if leftWord < 0 then -1 else 0) leftWord rightWord =
        some (quotient, remainder) ∧
      value.word? = some quotient.toInt32.toInt64 := by
  unfold ArithOp.eval at h
  split at h <;> try contradiction
  next left right hop =>
    split at h
    next => exact absurd h (by simp)
    next hzero =>
      obtain rfl := Except.ok.inj h
      have hdivisor : right.toInt64 ≠ 0 := by
        intro heq
        have hback := congrArg Int64.toInt32 heq
        exact hzero (by simpa using hback)
      obtain ⟨hlow, hhigh⟩ := tdiv_toInt_bounds left right
      have hfits : ¬ (right.toInt64 = 0 ∨
          left.toInt.tdiv right.toInt < -9223372036854775808 ∨
            9223372036854775808 ≤ left.toInt.tdiv right.toInt) := by
        rintro (heq | hless | hmore)
        · exact hdivisor heq
        · omega
        · omega
      refine ⟨_, _, .ofInt (left.toInt.tdiv right.toInt), .ofInt (left.toInt.tmod right.toInt),
        rfl, rfl, ?_, ?_⟩
      · simp only [divideWide, wide_eq, Int32.toInt_toInt64, if_neg hfits]
      · have hquotient : left / right = Int32.ofInt (left.toInt.tdiv right.toInt) :=
          Int32.toInt_inj.mp (by rw [Int32.toInt_div, Int32.toInt_ofInt])
        rw [Value.word?, Int64.toInt32_ofInt, hquotient]

theorem UnaryOp.neg_eq_ok {operand value : Value} (h : UnaryOp.neg.eval operand = .ok value) :
    ∃ word, operand.word? = some word ∧ value.word? = some (-word).toInt32.toInt64 := by
  unfold UnaryOp.eval at h
  split at h <;> try contradiction
  next operand _ =>
    obtain rfl := Except.ok.inj h
    exact ⟨_, rfl, by simp [Value.word?]⟩

theorem UnaryOp.not_eq_ok {operand value : Value} (h : UnaryOp.not.eval operand = .ok value) :
    ∃ word, operand.word? = some word ∧ value.word? = some (word ^^^ (1 : Int32).toInt64) := by
  unfold UnaryOp.eval at h
  split at h <;> try contradiction
  next operand _ =>
    obtain rfl := Except.ok.inj h
    exact ⟨_, rfl, by rw [boolWord_xor_one]; rfl⟩

end ThreeAddress
