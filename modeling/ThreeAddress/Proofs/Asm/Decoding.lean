import ThreeAddress.Asm.Encoding

/-!
# Reading machine code

Machine code is read from its beginning, one instruction after the other. The leading byte
of an instruction, or its absence, and the opcode tell what kind of instruction it is, and
so where its operands are; only where a constant goes to `rax` does the next byte have to
be seen to tell whether the constant is called. So code has one reading: different
lists of instructions have different bytes.
-/

namespace ThreeAddress

namespace Encoding

/-- Reads something at the beginning of some bytes, and leaves the rest. -/
abbrev Decoder := StateT (List UInt8) Option

namespace Decoder

def byte : Decoder UInt8
  | [] => none
  | first :: rest => some (first, rest)

/-- A number of some bytes, the least significant one first. -/
def number (count : Nat) : Decoder Nat := fun bytes =>
  if count ≤ bytes.length then some (Bytes.toNat (bytes.take count), bytes.drop count) else none

def int32 : Decoder Int32 := do
  return (UInt32.ofNat (← number 4)).toInt32

def uint64 : Decoder UInt64 := do
  return UInt64.ofNat (← number 8)

/-- Whether these bytes come next; they are only passed over if they do. -/
def accept (expected : List UInt8) : Decoder Bool := fun bytes =>
  if expected.isPrefixOf bytes then some (true, bytes.drop expected.length)
  else some (false, bytes)

def require (condition : Prop) [Decidable condition] : Decoder Unit :=
  if condition then pure () else failure

def ofOption {α : Type} : Option α → Decoder α
  | some value => pure value
  | none => failure

/-- The register of a number, which is given by its high bit and its three low bits. -/
def register (highBit lowBits : UInt8) : Decoder Register :=
  ofOption (Register.all.find? fun register => high register = highBit ∧ low register = lowBits)

/-- The condition of an opcode, given the first one of the opcodes that have conditions. -/
def condition (first opcode : UInt8) : Decoder Condition :=
  ofOption ([.e, .ne, .l, .ge, .le, .g].find? fun cond =>
    first + Encoding.condition cond = opcode)

end Decoder

/-- What the leading byte of an instruction says. -/
structure Lead where
  wide : Bool
  reg : UInt8
  rm : UInt8
deriving DecidableEq, Repr

namespace Lead

def all : List Lead :=
  [false, true].flatMap fun wide =>
    [(0, 0), (0, 1), (1, 0), (1, 1)].map fun bits => ⟨wide, bits.1, bits.2⟩

def ofByte? (byte : UInt8) : Option Lead :=
  all.find? fun lead => Encoding.lead lead.wide lead.reg lead.rm = byte

end Lead

/-- The fields of an operand byte. -/
structure Operands where
  mode : UInt8
  reg : UInt8
  rm : UInt8
deriving DecidableEq, Repr

def Operands.ofByte (byte : UInt8) : Operands := ⟨byte / 64, byte / 8 % 8, byte % 8⟩

namespace Decoder

def operands : Decoder Operands := do
  return .ofByte (← byte)

/-- Two registers. -/
def pair (lead : Lead) : Decoder (Register × Register) := do
  let fields ← operands
  require (fields.mode = 3)
  return (← register lead.reg fields.reg, ← register lead.rm fields.rm)

/-- One register; the other field extends the opcode. -/
def extended (lead : Lead) : Decoder (UInt8 × Register) := do
  let fields ← operands
  require (fields.mode = 3)
  return (fields.reg, ← register lead.rm fields.rm)

/-- A register and an address, the operand byte of which has been read. -/
def address (lead : Lead) (fields : Operands) : Decoder (Register × Register × Int32) := do
  require (fields.mode = 2 ∧ fields.rm = 4)
  let scale ← operands
  require (scale.mode = 0 ∧ scale.reg = 4)
  return (← register lead.reg fields.reg, ← register lead.rm scale.rm, ← int32)

/-- A constant that is put into a register, or a built-in that is called. -/
def constant (dst : Register) : Decoder LaidOut := do
  let value ← uint64
  let called ← accept [0xFF, 0xD0]
  if called then
    require (dst = .rax)
    return .call (.builtin value)
  else return .movImm value.toInt64 dst

/-- An instruction on wide operands. -/
def wideForm (lead : Lead) (opcode : UInt8) : Decoder LaidOut := do
  if opcode / 8 = 0x17 then constant (← register lead.rm (opcode % 8))
  else match opcode with
  | 0x89 => let (src, dst) ← pair lead; return .mov src dst
  | 0x01 => let (src, dst) ← pair lead; return .alu .add src dst
  | 0x29 => let (src, dst) ← pair lead; return .alu .sub src dst
  | 0x21 => let (src, dst) ← pair lead; return .alu .and src dst
  | 0x09 => let (src, dst) ← pair lead; return .alu .or src dst
  | 0x3B => let (left, right) ← pair lead; return .cmp left right
  | 0x0F =>
      match ← byte with
      | 0xAF => let (dst, src) ← pair lead; return .alu .imul src dst
      | 0xB6 => let (register, _) ← pair lead; return .zeroExtend register
      | _ => failure
  | 0xF7 =>
      match ← extended lead with
      | (3, register) => return .neg register
      | (7, divisor) => return .divide divisor
      | _ => failure
  | 0x81 =>
      match ← extended lead with
      | (6, dst) => return .xorImm (← int32) dst
      | (5, .rsp) => return .subSp (← int32)
      | (0, .rsp) => return .addSp (← int32)
      | _ => failure
  | 0x63 =>
      let fields ← operands
      if fields.mode = 3 then return .signExtend (← register lead.reg fields.reg)
      else
        let (dst, base, offset) ← address lead fields
        return .load32 base offset dst
  | 0x8D =>
      let fields ← operands
      require (fields.mode = 0 ∧ fields.rm = 5)
      let dst ← register lead.reg fields.reg
      return .leaLiteral (← int32) dst
  | 0x99 => return .extendDividend
  | _ => failure

/-- An instruction with a leading byte whose operands are not wide. -/
def narrowForm (lead : Lead) (opcode : UInt8) : Decoder LaidOut := do
  if opcode / 8 = 0x0A then return .push (← register lead.rm (opcode % 8))
  else if opcode / 8 = 0x0B then return .pop (← register lead.rm (opcode % 8))
  else match opcode with
  | 0x89 =>
      let (src, base, offset) ← address lead (← operands)
      return .store32 src base offset
  | 0x0F =>
      let cond ← condition 0x90 (← byte)
      let (_, dst) ← extended lead
      return .set cond dst
  | _ => failure

/-- An instruction without a leading byte. -/
def bareForm : UInt8 → Decoder LaidOut
  | 0xE9 => return .jmp (← int32)
  | 0xE8 => return .call (.routine (← int32))
  | 0x0F => do
      let cond ← condition 0x80 (← byte)
      return .jcc cond (← int32)
  | 0xC3 => return .ret
  | _ => failure

def instruction : Decoder LaidOut := do
  let first ← byte
  match Lead.ofByte? first with
  | none => bareForm first
  | some lead => if lead.wide then wideForm lead (← byte) else narrowForm lead (← byte)

/-- Reads instructions up to the end, at most a given number of them. -/
def instructions : Nat → List UInt8 → Option (List LaidOut)
  | _, [] => some []
  | 0, _ :: _ => none
  | limit + 1, bytes => do
      let (code, rest) ← instruction bytes
      return code :: (← instructions limit rest)

end Decoder

/-- The instructions that some bytes are; each one has at least one byte. -/
def decode? (bytes : List UInt8) : Option (List LaidOut) :=
  Decoder.instructions bytes.length bytes

/-! ## Reading what was written -/

namespace Decoder

variable {α β : Type} {rest : List UInt8}

@[simp] theorem bind_apply (first : Decoder α) (next : α → Decoder β) (bytes : List UInt8) :
    (first >>= next) bytes = (first bytes).bind fun read => next read.1 read.2 := rfl

@[simp] theorem pure_apply (value : α) (bytes : List UInt8) :
    (pure value : Decoder α) bytes = some (value, bytes) := rfl

@[simp] theorem map_apply (f : α → β) (first : Decoder α) (bytes : List UInt8) :
    (f <$> first) bytes = (first bytes).map fun read => (f read.1, read.2) := by
  cases h : first bytes <;> simp [Functor.map, StateT.map, h]

@[simp] theorem byte_cons (first : UInt8) : byte (first :: rest) = some (first, rest) := rfl

@[simp] theorem ofOption_some (value : α) (bytes : List UInt8) :
    ofOption (some value) bytes = some (value, bytes) := rfl

@[simp] theorem require_of {condition : Prop} [Decidable condition] (h : condition)
    (bytes : List UInt8) :
    require condition bytes = some ((), bytes) := by
  rw [require, if_pos h, pure_apply]

theorem number_append (count value : Nat) :
    number count (Bytes.ofNat count value ++ rest) = some (value % Nat.pow 256 count, rest) := by
  simp [number, Bytes.toNat_ofNat]

@[simp] theorem int32_append (value : Int32) :
    int32 (bytes32 value ++ rest) = some (value, rest) := by
  have hvalue : value.toUInt32.toNat % Nat.pow 256 4 = value.toUInt32.toNat :=
    Nat.mod_eq_of_lt value.toUInt32.toNat_lt
  rw [int32, bytes32, bind_apply, number_append, hvalue, Option.bind_some, pure_apply,
    UInt32.ofNat_toNat, Int32.toInt32_toUInt32]

@[simp] theorem uint64_append (value : UInt64) :
    uint64 (bytes64 value ++ rest) = some (value, rest) := by
  have hvalue : value.toNat % Nat.pow 256 8 = value.toNat := Nat.mod_eq_of_lt value.toNat_lt
  rw [uint64, bytes64, bind_apply, number_append, hvalue, Option.bind_some, pure_apply,
    UInt64.ofNat_toNat]

@[simp] theorem register_high_low (found : Register) (bytes : List UInt8) :
    register (high found) (low found) bytes = some (found, bytes) := by
  cases found <;> rfl

@[simp] theorem condition_add (first : UInt8) (cond : Condition) (bytes : List UInt8) :
    condition first (first + Encoding.condition cond) bytes = some (cond, bytes) := by
  cases cond <;> simp [condition, Encoding.condition]

theorem accept_append (expected : List UInt8) :
    accept expected (expected ++ rest) = some (true, rest) := by
  simp [accept]

theorem accept_of_head {first : UInt8} {more : List UInt8} (hrest : rest.head? ≠ some first) :
    accept (first :: more) rest = some (false, rest) := by
  cases rest with
  | nil => rfl
  | cons next rest =>
      have hne : ¬first = next := fun heq => hrest (congrArg some heq.symm)
      simp [accept, List.isPrefixOf, hne]

end Decoder

@[simp] theorem high_cases (register : Register) : high register = 0 ∨ high register = 1 := by
  cases register <;> decide

@[simp] theorem low_lt (register : Register) : (low register).toNat < 8 := by
  cases register <;> decide

theorem Lead.ofByte?_lead (wide : Bool) {reg rm : UInt8} (hreg : reg = 0 ∨ reg = 1)
    (hrm : rm = 0 ∨ rm = 1) : ofByte? (lead wide reg rm) = some ⟨wide, reg, rm⟩ := by
  rcases hreg with rfl | rfl <;> rcases hrm with rfl | rfl <;> cases wide <;> rfl

theorem Operands.ofByte_fields {mode reg rm : UInt8} (hmode : mode.toNat < 4)
    (hreg : reg.toNat < 8) (hrm : rm.toNat < 8) :
    ofByte (64 * mode + 8 * reg + rm) = ⟨mode, reg, rm⟩ := by
  have hbyte : (64 * mode + 8 * reg + rm).toNat = 64 * mode.toNat + 8 * reg.toNat + rm.toNat := by
    simp only [UInt8.toNat_add, UInt8.toNat_mul, UInt8.reduceToNat]
    omega
  simp only [ofByte, Operands.mk.injEq, ← UInt8.toNat_inj, UInt8.toNat_div, UInt8.toNat_mod,
    hbyte, UInt8.reduceToNat]
  omega

namespace Decoder

variable {rest : List UInt8} {lead : Lead}

theorem operands_fields {mode reg rm : UInt8} (hmode : mode.toNat < 4) (hreg : reg.toNat < 8)
    (hrm : rm.toNat < 8) :
    operands ((64 * mode + 8 * reg + rm) :: rest) = some (⟨mode, reg, rm⟩, rest) := by
  rw [operands, bind_apply, byte_cons, Option.bind_some, Operands.ofByte_fields hmode hreg hrm,
    pure_apply]

@[simp] theorem operands_pair {reg rm : UInt8} (hreg : reg.toNat < 8) (hrm : rm.toNat < 8) :
    operands (Encoding.pair reg rm :: rest) = some (⟨3, reg, rm⟩, rest) := by
  have hmode : (0xC0 : UInt8) = 64 * 3 := rfl
  rw [Encoding.pair, hmode]
  exact operands_fields (by decide) hreg hrm

@[simp] theorem pair_pair (wide : Bool) (first second : Register) :
    pair ⟨wide, high first, high second⟩ (Encoding.pair (low first) (low second) :: rest) =
      some ((first, second), rest) := by
  simp [pair]

@[simp] theorem extended_pair (wide : Bool) {reg extension : UInt8} (register : Register)
    (hextension : extension.toNat < 8) :
    extended ⟨wide, reg, high register⟩ (Encoding.pair extension (low register) :: rest) =
      some ((extension, register), rest) := by
  simp [extended, hextension]

@[simp] theorem operands_address (register : Register) :
    operands ((0x84 + 8 * low register) :: rest) = some (⟨2, low register, 4⟩, rest) := by
  have hfields : 0x84 + 8 * low register = 64 * 2 + 8 * low register + 4 := by
    cases register <;> rfl
  rw [hfields]
  exact operands_fields (by decide) (low_lt register) (by decide)

@[simp] theorem operands_scale (base : Register) :
    operands ((0x20 + low base) :: rest) = some (⟨0, 4, low base⟩, rest) := by
  have hfields : (0x20 : UInt8) = 64 * 0 + 8 * 4 := rfl
  rw [hfields]
  exact operands_fields (by decide) (by decide) (low_lt base)

@[simp] theorem operands_literal (register : Register) :
    operands ((0x05 + 8 * low register) :: rest) = some (⟨0, low register, 5⟩, rest) := by
  have hfields : 0x05 + 8 * low register = 64 * 0 + 8 * low register + 5 := by
    cases register <;> rfl
  rw [hfields]
  exact operands_fields (by decide) (low_lt register) (by decide)

@[simp] theorem address_address (wide : Bool) (register base : Register) (offset : Int32) :
    address ⟨wide, high register, high base⟩ ⟨2, low register, 4⟩
        ((0x20 + low base) :: (bytes32 offset ++ rest)) =
      some ((register, base, offset), rest) := by
  simp [address]

/-- The opcodes that contain a register. -/
@[simp] theorem opcode_register (register : Register) :
    ((0xB8 + low register) / 8 = 0x17 ∧ (0xB8 + low register) % 8 = low register) ∧
    ((0x50 + low register) / 8 = 0x0A ∧ (0x50 + low register) % 8 = low register) ∧
    ((0x58 + low register) / 8 = 0x0B ∧ (0x58 + low register) % 8 = low register) := by
  cases register <;> decide

@[simp] theorem instruction_wide {reg rm : UInt8} (hreg : reg = 0 ∨ reg = 1)
    (hrm : rm = 0 ∨ rm = 1) (opcode : UInt8) :
    instruction (Encoding.lead true reg rm :: opcode :: rest) =
      wideForm ⟨true, reg, rm⟩ opcode rest := by
  simp [instruction, Lead.ofByte?_lead true hreg hrm]

@[simp] theorem instruction_narrow {reg rm : UInt8} (hreg : reg = 0 ∨ reg = 1)
    (hrm : rm = 0 ∨ rm = 1) (opcode : UInt8) :
    instruction (Encoding.lead false reg rm :: opcode :: rest) =
      narrowForm ⟨false, reg, rm⟩ opcode rest := by
  simp [instruction, Lead.ofByte?_lead false hreg hrm]

theorem instruction_bare (first : UInt8) (hfirst : Lead.ofByte? first = none) :
    instruction (first :: rest) = bareForm first rest := by
  simp [instruction, hfirst]

theorem constant_movImm (value : Int64) (dst : Register) (hrest : rest.head? ≠ some 0xFF) :
    constant dst (bytes64 value.toUInt64 ++ rest) = some (.movImm value dst, rest) := by
  simp [constant, accept_of_head hrest]

theorem constant_call (builtin : UInt64) :
    constant .rax (bytes64 builtin ++ ([0xFF, 0xD0] ++ rest)) =
      some (.call (.builtin builtin), rest) := by
  rw [constant, bind_apply, uint64_append, Option.bind_some, bind_apply, accept_append]
  rfl

/-- An instruction is read back, whatever follows it except the end of a call. -/
theorem instruction_encode (code : LaidOut) (hrest : rest.head? ≠ some 0xFF) :
    instruction (code.encode ++ rest) = some (code, rest) := by
  cases code with
  | mov src dst =>
    simp [LaidOut.encode, Encoding.wide, wideForm]
  | movImm value dst =>
    -- Only here does it matter what follows.
    simp [LaidOut.encode, wideForm, constant_movImm _ _ hrest]
  | leaLiteral displacement dst =>
    simp [LaidOut.encode, wideForm]
  | load32 base offset dst =>
    simp [LaidOut.encode, Encoding.address, wideForm]
  | store32 src base offset =>
    simp [LaidOut.encode, Encoding.address, narrowForm]
  | alu op src dst =>
    cases op <;> simp [LaidOut.encode, Encoding.wide, wideForm]
  | neg register =>
    simp [LaidOut.encode, Encoding.wideUnary, wideForm]
  | xorImm value dst =>
    simp [LaidOut.encode, Encoding.wideUnary, wideForm]
  | signExtend register =>
    simp [LaidOut.encode, Encoding.wide, wideForm]
  | extendDividend =>
    exact instruction_wide (.inl rfl) (.inl rfl) 0x99
  | divide divisor =>
    simp [LaidOut.encode, Encoding.wideUnary, wideForm]
  | cmp left right =>
    simp [LaidOut.encode, Encoding.wide, wideForm]
  | set cond dst =>
    simp [LaidOut.encode, narrowForm]
  | zeroExtend register =>
    simp [LaidOut.encode, Encoding.wide, wideForm]
  | jmp displacement =>
    simp [LaidOut.encode, instruction_bare 0xE9 rfl, bareForm]
  | jcc cond displacement =>
    simp [LaidOut.encode, instruction_bare 0x0F rfl, bareForm]
  | call callee =>
    cases callee with
    | routine displacement =>
      simp [LaidOut.encode, instruction_bare 0xE8 rfl, bareForm]
    | builtin address =>
      have hlead : (0x48 : UInt8) = Encoding.lead true 0 (high .rax) := rfl
      have hopcode : (0xB8 : UInt8) = 0xB8 + low .rax := rfl
      rw [LaidOut.encode, hlead, hopcode]
      simpa [wideForm] using constant_call address
  | push register =>
    simp [LaidOut.encode, narrowForm]
  | pop register =>
    simp [LaidOut.encode, narrowForm]
  | subSp bytes =>
    have hlead : (0x48 : UInt8) = Encoding.lead true 0 (high .rsp) := rfl
    have hsp : (0xEC : UInt8) = Encoding.pair 5 (low .rsp) := rfl
    rw [LaidOut.encode, hlead, hsp]
    simp [wideForm]
  | addSp bytes =>
    have hlead : (0x48 : UInt8) = Encoding.lead true 0 (high .rsp) := rfl
    have hsp : (0xC4 : UInt8) = Encoding.pair 0 (low .rsp) := rfl
    rw [LaidOut.encode, hlead, hsp]
    simp [wideForm]
  | ret => rfl

/-- Nothing that begins an instruction ends a call. -/
theorem exists_encode_eq_cons (code : LaidOut) :
    ∃ first rest, code.encode = first :: rest ∧ first ≠ 0xFF := by
  have hread : instruction (code.encode ++ []) = some (code, []) :=
    instruction_encode code (by simp)
  rw [List.append_nil] at hread
  cases hbytes : code.encode with
  | nil => rw [hbytes] at hread; cases hread
  | cons first rest =>
      refine ⟨first, rest, rfl, ?_⟩
      -- Reading fails on such a byte, but the instruction is read back.
      rintro rfl
      rw [hbytes] at hread
      cases hread

theorem head?_encodings_ne (codes : List LaidOut) :
    (codes.flatMap LaidOut.encode).head? ≠ some 0xFF := by
  cases codes with
  | nil => simp
  | cons code rest =>
      obtain ⟨first, more, hbytes, hne⟩ := exists_encode_eq_cons code
      simp [hbytes, hne]

theorem instructions_encodings (codes : List LaidOut) {limit : Nat}
    (hlimit : (codes.flatMap LaidOut.encode).length ≤ limit) :
    instructions limit (codes.flatMap LaidOut.encode) = some codes := by
  induction codes generalizing limit with
  | nil => cases limit <;> rfl
  | cons code rest ih =>
      obtain ⟨first, more, hbytes, -⟩ := exists_encode_eq_cons code
      have hread := instruction_encode code (head?_encodings_ne rest)
      rw [hbytes, List.cons_append] at hread
      rw [List.flatMap_cons, hbytes, List.cons_append] at hlimit ⊢
      rw [List.length_cons, List.length_append] at hlimit
      cases limit with
      | zero => omega
      | succ limit =>
          have hrest : instructions limit (rest.flatMap LaidOut.encode) = some rest := ih (by omega)
          simp [instructions, hread, hrest]

end Decoder

end Encoding

/-- Different lists of instructions have different bytes, as a list can be read from its
bytes. -/
theorem LaidOut.encodings_injective :
    (∀ codes : List LaidOut, Encoding.decode? (codes.flatMap encode) = some codes) ∧
      Function.Injective fun codes : List LaidOut => codes.flatMap encode := by
  have hread (codes : List LaidOut) : Encoding.decode? (codes.flatMap encode) = some codes :=
    Encoding.Decoder.instructions_encodings codes (Nat.le_refl _)
  refine ⟨hread, fun first second (heq : first.flatMap encode = second.flatMap encode) => ?_⟩
  have hsecond := hread second
  rw [← heq, hread first] at hsecond
  exact Option.some.inj hsecond

end ThreeAddress
