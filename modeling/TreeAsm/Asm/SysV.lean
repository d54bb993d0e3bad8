import TreeAsm.Asm.Text

/-!
# The System V calling convention

Which registers carry arguments and results, which a function must keep, and how calls, system
calls and the end of the program are written.
-/

namespace TreeAsm.Asm

/-- What a register is used for. -/
inductive Role where
  | stackPointer | basePointer | programCounter | link | syscallNumber
  | return | returnHigh | returnFloat | returnDouble
  | addrBase | addrIndex
  | mulLow | mulHigh | divDividend | divQuotient | divRemainder
  | unknown (code : Int)
  deriving DecidableEq, Repr

namespace Role

/-- The known roles in the order of their numbers. -/
def all : List Role :=
  [stackPointer, basePointer, programCounter, link, syscallNumber, .return, returnHigh, returnFloat,
    returnDouble, addrBase, addrIndex, mulLow, mulHigh, divDividend, divQuotient, divRemainder]

/-- The role with a number. -/
def ofCode (code : Int) : Role :=
  if code < 0 then unknown code else (all[code.toNat]?).getD (unknown code)

/-- How a role is written. -/
def render : Role → String
  | stackPointer => "stack_pointer"
  | basePointer => "base_pointer"
  | programCounter => "program_counter"
  | link => "link"
  | syscallNumber => "syscall_number"
  | .return => "return"
  | returnHigh => "return_high"
  | returnFloat => "return_float"
  | returnDouble => "return_double"
  | addrBase => "address_base"
  | addrIndex => "address_index"
  | mulLow => "mul_low"
  | mulHigh => "mul_high"
  | divDividend => "div_dividend"
  | divQuotient => "div_quotient"
  | divRemainder => "div_remainder"
  | unknown code => s!"role({code})"

end Role

namespace SysV

/-- The name of the convention. -/
def name : String := "sysv"

/-- Whether symbols are addressed relative to the instruction. -/
def pic : Bool := true

/-- The alignment of the stack at calls, in bytes. -/
def stackAlign : Int64 := 16

/-- Whether the caller removes the arguments from the stack. -/
def callerCleanup : Bool := true

/-- How many bytes below the stack pointer a function may use. -/
def redZone : Nat := 128

/-- The registers of the first arguments of a call. -/
def argRegs : List Reg := [.rdi, .rsi, .rdx, .rcx, .r8, .r9]

/-- The registers of the arguments of a system call. -/
def syscallRegs : List Reg := [.rdi, .rsi, .rdx, .r10, .r8, .r9]

/-- The registers for values within a function. -/
def scratch : List Reg := [.rbx, .r12, .r13, .r14, .r15]

/-- The registers that a function must leave as they were. -/
def calleeSaved : List Reg := [.rbx, .rbp, .r12, .r13, .r14, .r15]

/-- The register of a role. -/
def role : Role → Outcome Reg
  | .stackPointer => .ok .rsp
  | .basePointer => .ok .rbp
  | .programCounter => .ok .rip
  | .syscallNumber | .return | .mulLow | .divDividend | .divQuotient => .ok .rax
  | .returnHigh | .mulHigh | .divRemainder => .ok .rdx
  | .returnFloat | .returnDouble => .ok .xmm0
  | .addrBase => .ok .r10
  | .addrIndex => .ok .r11
  | r => .fail (.unsupportedRole name r.render)

/-- The register of a role that must have one. -/
def mustRole (r : Role) : Outcome Reg :=
  match role r with
  | .ok reg => .ok reg
  | .error _ => .crash

/-- The convention is known by its name, and it is the one if none is named. -/
def lookup (convention : String) : Outcome Unit :=
  if convention == name || convention == "" then .ok ()
  else .fail (.unsupportedConvention convention)

/-- How many of a number of arguments are passed on the stack. -/
def stackArgs (count : Nat) : Nat := count - argRegs.length

/-- The width at which an argument is passed in a register: 32 bits for what has at most 32. -/
def argBits : Operand → Int64
  | .reg r => if r.bits ≠ 0 && r.bits ≤ 32 then 32 else 64
  | .mem m => if m.bits ≠ 0 && m.bits ≤ 32 then 32 else 64
  | .imm i => if i.bits ≠ 0 && i.bits ≤ 32 then 32 else 64
  | _ => 64

/-- Puts an argument into its register. -/
def moveArg (r : Reg) (x : Operand) (signed : Bool) : Text Unit := do
  let d ← Text.lift (r.at (argBits x))
  Text.move (.reg d) x signed (some .rax)

/-- An argument with its place among the arguments and whether it has a sign. -/
structure Arg where
  index : Nat
  value : Operand
  signed : Bool

/-- The arguments of a call, numbered; those without a flag have no sign. -/
def numberArgs (args : List Operand) (signed : List Bool) : List Arg :=
  args.zipIdx.map fun (x, i) => ⟨i, x, (signed[i]?).getD false⟩

/-- Passes an argument of a call: in a register if there is one for it, else on the stack. -/
def passArg (a : Arg) : Text Unit :=
  Text.within s!"arg {a.index}" <|
    match argRegs[a.index]? with
    | some r => moveArg r a.value a.signed
    | none => Text.push a.value a.signed (some .rax)

/-- Performs a step for each element of a list in order. -/
def forAll {α : Type} (f : α → Text Unit) : List α → Text Unit
  | [] => pure ()
  | a :: rest => do
    f a
    forAll f rest

/-- Adjusts the stack pointer. -/
def adjustStack (op : Mnemonic) (n : Int64) : Text Unit := Text.ins op [Reg.rsp.full, immediate n]

/-- Calls a target. Arguments are passed from the last to the first. An odd number of them on the
stack gets 8 bytes of padding, so that the stack stays aligned; `al` is the number of vector
arguments. -/
def call (target : Operand) (args : List Operand) (signed : List Bool) : Text Unit := do
  let excess := stackArgs args.length
  Text.onlyIf (excess % 2 == 1) (adjustStack .sub 8)
  forAll passArg (numberArgs args signed).reverse
  Text.ins .xor [.reg ⟨.rax, 32⟩, .reg ⟨.rax, 32⟩]
  Text.ins .call [target]
  Text.onlyIf (callerCleanup && excess > 0) (adjustStack .add (Int64.ofNat (8 * excess)))
  Text.onlyIf (callerCleanup && excess % 2 == 1) (adjustStack .add 8)

/-- Passes an argument of a system call. -/
def passSyscallArg (a : Arg) : Text Unit :=
  Text.within s!"arg {a.index}" <|
    match syscallRegs[a.index]? with
    | some r => moveArg r a.value a.signed
    | none => Text.lift .crash

/-- Makes a system call, whose result is in `rax`. Argument registers in use are kept. -/
def syscall (number : Operand) (args : List Operand) (signed : List Bool) (inUse : Reg → Bool) :
    Text Unit := do
  if args.length > syscallRegs.length then
    Text.fail (.tooManySyscallArguments args.length syscallRegs.length)
  else
    let kept := (syscallRegs.take args.length).filter inUse
    forAll (fun r => Text.ins .push [r.full]) kept
    forAll passSyscallArg (numberArgs args signed).reverse
    Text.within "syscall number" (Text.move Reg.rax.full number true none)
    Text.ins .syscall []
    forAll (fun r => Text.ins .pop [r.full]) kept.reverse

/-- The number of the system call that ends the program. -/
def exitNumber : Int64 := 60

/-- Ends the program with the result as its status. -/
def exit : Text Unit := do
  Text.ins .mov [Reg.rdi.full, Reg.rax.full]
  Text.ins .mov [Reg.rax.full, immediate exitNumber]
  Text.ins .syscall []

end SysV

end TreeAsm.Asm
