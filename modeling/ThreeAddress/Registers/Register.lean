/-!
# Registers

The sixteen general-purpose registers, with what the calling convention and the
division instruction make of them.
-/

namespace ThreeAddress

inductive Register where
  | rax | rcx | rdx | rbx | rsp | rbp | rsi | rdi
  | r8 | r9 | r10 | r11 | r12 | r13 | r14 | r15
deriving DecidableEq, Repr, Inhabited

namespace Register

/-- The registers in the order of their hardware numbers. -/
def all : List Register :=
  [rax, rcx, rdx, rbx, rsp, rbp, rsi, rdi, r8, r9, r10, r11, r12, r13, r14, r15]

/-- The hardware number. -/
def index : Register → Fin 16
  | rax => ⟨0, by decide⟩
  | rcx => ⟨1, by decide⟩
  | rdx => ⟨2, by decide⟩
  | rbx => ⟨3, by decide⟩
  | rsp => ⟨4, by decide⟩
  | rbp => ⟨5, by decide⟩
  | rsi => ⟨6, by decide⟩
  | rdi => ⟨7, by decide⟩
  | r8 => ⟨8, by decide⟩
  | r9 => ⟨9, by decide⟩
  | r10 => ⟨10, by decide⟩
  | r11 => ⟨11, by decide⟩
  | r12 => ⟨12, by decide⟩
  | r13 => ⟨13, by decide⟩
  | r14 => ⟨14, by decide⟩
  | r15 => ⟨15, by decide⟩

theorem index_inj {left right : Register} : left.index = right.index ↔ left = right := by
  constructor
  · cases left <;> cases right <;> first | exact fun _ => rfl | (intro h; simp [index] at h)
  · exact congrArg index

/-- The name of the whole register. -/
def name : Register → String
  | rax => "rax"
  | rcx => "rcx"
  | rdx => "rdx"
  | rbx => "rbx"
  | rsp => "rsp"
  | rbp => "rbp"
  | rsi => "rsi"
  | rdi => "rdi"
  | r8 => "r8"
  | r9 => "r9"
  | r10 => "r10"
  | r11 => "r11"
  | r12 => "r12"
  | r13 => "r13"
  | r14 => "r14"
  | r15 => "r15"

/-- The name of the low 32 bits. -/
def name32 : Register → String
  | rax => "eax"
  | rcx => "ecx"
  | rdx => "edx"
  | rbx => "ebx"
  | rsp => "esp"
  | rbp => "ebp"
  | rsi => "esi"
  | rdi => "edi"
  | register => register.name ++ "d"

/-- The name of the low byte. -/
def name8 : Register → String
  | rax => "al"
  | rcx => "cl"
  | rdx => "dl"
  | rbx => "bl"
  | rsp => "spl"
  | rbp => "bpl"
  | rsi => "sil"
  | rdi => "dil"
  | register => register.name ++ "b"

/-- The register as an operand in assembly text. -/
def text (register : Register) : String := "%" ++ register.name

/-- A callee leaves these as it found them. -/
def isCalleeSaved : Register → Bool
  | rbx | rbp | r12 | r13 | r14 | r15 => true
  | _ => false

/-- A division overwrites these. -/
def isDivisionClobbered : Register → Bool
  | rax | rdx => true
  | _ => false

/-- Where integer arguments are passed, in order. -/
def arguments : List Register := [rdi, rsi, rdx, rcx, r8, r9]

/-- The registers that a routine may have to save, in the order in which it pushes them. -/
def calleeSaved : List Register := [rbx, r12, r13, r14, r15]

/-- The registers that destinations may live in, in order of preference. The two scratch registers,
the stack pointer and the frame pointer are not among them. -/
def allocatable : List Register :=
  [rcx, rsi, rdi, r8, r9, rdx, rax, rbx, r12, r13, r14, r15]

/-- Where a result is returned. -/
def result : Register := rax

/-- Holds a right operand or an address while an instruction is carried out. -/
def scratch : Register := r10

/-- Holds a left operand or a stored value while an instruction is carried out. -/
def scratch2 : Register := r11

end Register

end ThreeAddress
