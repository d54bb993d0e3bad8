/-!
# Opcodes

The operations of the intermediate code. A number that stands for no operation is kept as it is, so
that it can be reported.
-/

namespace TreeAsm.Ir

/-- What an instruction does. -/
inductive Opcode where
  | move | ret
  | add | sub | mul | div | and
  | eq | ne | lt | le | gt | ge
  | load | store | addrOf
  | call | syscall
  | jump | cjump | label
  | unknown (code : Int)
  deriving DecidableEq, Repr, Inhabited

namespace Opcode

/-- The known operations in the order of their numbers. -/
def all : List Opcode :=
  [move, ret, add, sub, mul, div, and, eq, ne, lt, le, gt, ge, load, store, addrOf, call, syscall,
    jump, cjump, label]

/-- The operation with a number. -/
def ofCode (code : Int) : Opcode :=
  if code < 0 then unknown code else (all[code.toNat]?).getD (unknown code)

/-- How an operation is written. -/
def render : Opcode → String
  | move => "move"
  | ret => "ret"
  | add => "add"
  | sub => "sub"
  | mul => "mult"
  | div => "div"
  | and => "and"
  | eq => "eq"
  | ne => "neq"
  | lt => "lt"
  | le => "leq"
  | gt => "gt"
  | ge => "geq"
  | load => "load"
  | store => "store"
  | addrOf => "addr_of"
  | call => "call"
  | syscall => "syscall"
  | jump => "jump"
  | cjump => "cjump"
  | label => "label"
  | unknown code => s!"op({code})"

/-- The operation that is written so. -/
def ofName? (name : String) : Option Opcode := all.find? fun op => op.render == name

/-- The operation of a binary operator of the source. -/
def ofOperator? : String → Option Opcode
  | "+" => some add
  | "-" => some sub
  | "*" => some mul
  | "/" => some div
  | "&" => some and
  | "==" => some eq
  | "!=" => some ne
  | "<" => some lt
  | "<=" => some le
  | ">" => some gt
  | ">=" => some ge
  | _ => none

/-- Whether the operation is a known one. -/
def isValid : Opcode → Bool
  | unknown _ => false
  | _ => true

/-- Whether control does not simply go on after the operation. -/
def isTerminator : Opcode → Bool
  | ret | jump | cjump => true
  | _ => false

/-- Whether the operation compares two values. -/
def isCompare : Opcode → Bool
  | eq | ne | lt | le | gt | ge => true
  | _ => false

end Opcode

end TreeAsm.Ir
