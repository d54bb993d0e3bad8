import TreeAsm.Asm.Operand

/-!
# Lines of assembly text

Lines are kept as data and written out last.
-/

namespace TreeAsm.Asm

/-- The name of a machine instruction. -/
inductive Mnemonic where
  | mov | movsx | movsxd | movzx | lea
  | xor | add | sub | and | imul | mul | div | idiv | cdq | cqo
  | cmp | sete | setne | setl | setle | setg | setge | setb | setbe | seta | setae
  | push | pop | call | ret | syscall
  | jmp | je | jne
  /-- An instruction that the compiler itself does not use. -/
  | other (name : String)
  deriving DecidableEq, Repr

namespace Mnemonic

/-- The instructions that the compiler uses. -/
def all : List Mnemonic :=
  [mov, movsx, movsxd, movzx, lea, xor, add, sub, and, imul, mul, div, idiv, cdq, cqo, cmp, sete,
    setne, setl, setle, setg, setge, setb, setbe, seta, setae, push, pop, call, ret, syscall, jmp,
    je, jne]

/-- How a mnemonic is written. -/
def render : Mnemonic → String
  | mov => "mov"
  | movsx => "movsx"
  | movsxd => "movsxd"
  | movzx => "movzx"
  | lea => "lea"
  | xor => "xor"
  | add => "add"
  | sub => "sub"
  | and => "and"
  | imul => "imul"
  | mul => "mul"
  | div => "div"
  | idiv => "idiv"
  | cdq => "cdq"
  | cqo => "cqo"
  | cmp => "cmp"
  | sete => "sete"
  | setne => "setne"
  | setl => "setl"
  | setle => "setle"
  | setg => "setg"
  | setge => "setge"
  | setb => "setb"
  | setbe => "setbe"
  | seta => "seta"
  | setae => "setae"
  | push => "push"
  | pop => "pop"
  | call => "call"
  | ret => "ret"
  | syscall => "syscall"
  | jmp => "jmp"
  | je => "je"
  | jne => "jne"
  | other name => name

/-- The mnemonic that is written so. -/
def ofName (name : String) : Mnemonic :=
  (all.find? fun m => m.render == name).getD (other name)

end Mnemonic

/-- The width of a datum, by the directive that writes it. -/
inductive DataSize where
  | byte | word | dword | qword
  deriving DecidableEq, Repr

/-- The directive for data of a width. -/
def DataSize.directive : DataSize → String
  | byte => "db"
  | word => "dw"
  | dword => "dd"
  | qword => "dq"

/-- A line of assembly text. -/
inductive Line where
  | label (name : String)
  | ins (op : Mnemonic) (args : List Operand)
  | comment (text : String)
  | sectionStart (name : String)
  /-- A symbol that is defined elsewhere. -/
  | outside (name : String)
  /-- A symbol that others can see. -/
  | exported (name : String)
  | bytes (label : String) (data : List UInt8)
  /-- The length of the bytes under a label. -/
  | length (label : String) (n : Nat)
  | zeros (name : String) (n : Int64)
  | number (name : String) (size : DataSize) (value : Int64)
  | address (name : String) (size : DataSize) (label : String)
  deriving DecidableEq, Repr

namespace Line

/-- How an instruction is written. -/
def renderIns (op : Mnemonic) (args : List Operand) : String :=
  let args := if args.isEmpty then "" else " " ++ String.intercalate ", " (args.map (·.describe))
  "\t" ++ op.render ++ args

/-- How a line is written. -/
def render : Line → String
  | label name => name ++ ":"
  | ins op args => renderIns op args
  | comment text => "\t; " ++ text
  | sectionStart name => "section " ++ name
  | outside name => "extern " ++ name
  | exported name => "global " ++ name
  | bytes name data =>
    name ++ ": db " ++ String.intercalate ", " (data.map fun b => toString b.toNat)
  | length name n => s!"{name}_len: dq {n}"
  | zeros name n => name ++ ": times " ++ toString n.toInt ++ " db 0"
  | number name size value => name ++ ": " ++ size.directive ++ " " ++ toString value.toInt
  | address name size target => name ++ ": " ++ size.directive ++ " " ++ target

/-- The registers that a line refers to. -/
def regs : Line → List Reg
  | ins _ args => args.flatMap (·.regs)
  | _ => []

end Line

/-- Whether some line refers to a register. -/
def touched (lines : List Line) (r : Reg) : Bool := lines.any fun l => l.regs.contains r

end TreeAsm.Asm
