import TreeAsm.Failure

/-!
# Registers

The registers of the machine, with their names for accesses of 8, 16, 32 and 64 bits. Registers
beyond those can be described by a number and their names.
-/

namespace TreeAsm.Asm

/-- The names of a register by width; a width without a name cannot be accessed. -/
structure Reg.Names where
  byte : String
  word : String
  dword : String
  qword : String
  deriving DecidableEq, Repr

/-- A register. -/
inductive Reg where
  | rax | rcx | rdx | rbx | rsp | rbp | rsi | rdi
  | r8 | r9 | r10 | r11 | r12 | r13 | r14 | r15
  /-- The instruction pointer. -/
  | rip
  /-- The first floating point register. -/
  | xmm0
  /-- A register described by hand. -/
  | other (id : Nat) (names : Reg.Names)
  deriving DecidableEq, Repr

namespace Reg

/-- The registers of the machine in the order of their numbers. -/
def all : List Reg :=
  [rax, rcx, rdx, rbx, rsp, rbp, rsi, rdi, r8, r9, r10, r11, r12, r13, r14, r15, rip, xmm0]

/-- The number of a register. -/
def id : Reg → Nat
  | rax => 0 | rcx => 1 | rdx => 2 | rbx => 3 | rsp => 4 | rbp => 5 | rsi => 6 | rdi => 7
  | r8 => 8 | r9 => 9 | r10 => 10 | r11 => 11 | r12 => 12 | r13 => 13 | r14 => 14 | r15 => 15
  | rip => 16 | xmm0 => 17
  | other n _ => n

/-- Whether a register holds floating point values. -/
def isFloat : Reg → Bool
  | xmm0 => true
  | _ => false

/-- The names of a register. -/
def names : Reg → Names
  | rax => ⟨"al", "ax", "eax", "rax"⟩
  | rcx => ⟨"cl", "cx", "ecx", "rcx"⟩
  | rdx => ⟨"dl", "dx", "edx", "rdx"⟩
  | rbx => ⟨"bl", "bx", "ebx", "rbx"⟩
  | rsp => ⟨"spl", "sp", "esp", "rsp"⟩
  | rbp => ⟨"bpl", "bp", "ebp", "rbp"⟩
  | rsi => ⟨"sil", "si", "esi", "rsi"⟩
  | rdi => ⟨"dil", "di", "edi", "rdi"⟩
  | r8 => ⟨"r8b", "r8w", "r8d", "r8"⟩
  | r9 => ⟨"r9b", "r9w", "r9d", "r9"⟩
  | r10 => ⟨"r10b", "r10w", "r10d", "r10"⟩
  | r11 => ⟨"r11b", "r11w", "r11d", "r11"⟩
  | r12 => ⟨"r12b", "r12w", "r12d", "r12"⟩
  | r13 => ⟨"r13b", "r13w", "r13d", "r13"⟩
  | r14 => ⟨"r14b", "r14w", "r14d", "r14"⟩
  | r15 => ⟨"r15b", "r15w", "r15d", "r15"⟩
  | rip => ⟨"", "", "", "rip"⟩
  | xmm0 => ⟨"", "", "xmm0", "xmm0"⟩
  | other _ n => n

/-- The name of a register for a width, if it has one. -/
def name? (r : Reg) (bits : Int64) : Option String :=
  let name :=
    if bits == 8 then r.names.byte
    else if bits == 16 then r.names.word
    else if bits == 32 then r.names.dword
    else if bits == 64 then r.names.qword
    else ""
  if name == "" then none else some name

/-- The name of a register as a whole: that of its widest access. -/
def render (r : Reg) : String :=
  if r.names.qword != "" then r.names.qword
  else if r.names.dword != "" then r.names.dword
  else if r.names.word != "" then r.names.word
  else if r.names.byte != "" then r.names.byte
  else s!"r{r.id}"

/-- The name of a register for a width. -/
def name (r : Reg) (bits : Int64) : Outcome String :=
  match r.name? bits with
  | some n => .ok n
  | none => .fail (.registerSize r.render bits)

end Reg

end TreeAsm.Asm
