import TreeAsm.Asm.Register

/-!
# Operands of machine instructions

Registers, memory, immediate values, labels and addresses of data, each with the width of the
access in bits.
-/

namespace TreeAsm.Asm

/-- A register at a width. -/
structure Register where
  reg : Reg
  bits : Int64
  deriving DecidableEq, Repr

/-- A place in memory: a symbol or a base register, an index register and a displacement. Width 0
is an access whose width is left open. -/
structure Mem where
  base : Option Reg
  index : Option Reg
  disp : Int64
  bits : Int64
  symbol : String
  /-- Whether the symbol is addressed relative to the instruction. -/
  pic : Bool
  deriving DecidableEq, Repr

/-- An immediate value; `sized` if its width is written too. -/
structure Imm where
  value : Int64
  bits : Int64
  sized : Bool
  deriving DecidableEq, Repr

/-- What a machine instruction works on. -/
inductive Operand where
  | reg (r : Register)
  | mem (m : Mem)
  | imm (i : Imm)
  | label (name : String)
  /-- The address of data, relative to the instruction if `pic`. -/
  | ptr (label : String) (pic : Bool)
  /-- No operand at all. -/
  | absent
  deriving DecidableEq, Repr

/-- How the width of a memory access is written. -/
def sizeWord (bits : Int64) : String :=
  if bits == 8 then "byte"
  else if bits == 16 then "word"
  else if bits == 32 then "dword"
  else if bits == 64 then "qword"
  else ""

/-- A register at a width that it has a name for. -/
def Reg.at (r : Reg) (bits : Int64) : Outcome Register := do
  let _ ← r.name bits
  return ⟨r, bits⟩

/-- The same register at another width. -/
def Register.sized (x : Register) (bits : Int64) : Outcome Register := x.reg.at bits

/-- The same place accessed at another width. -/
def Mem.resize (m : Mem) (bits : Int64) : Mem := { m with bits := bits }

/-- How a displacement is written. -/
def renderDisp (disp : Int64) : String :=
  if disp > 0 then "+" ++ toString disp.toInt
  else if disp == 0 then ""
  else toString disp.toInt

/-- How a place in memory is written. -/
def Mem.render (m : Mem) : String :=
  let size := if sizeWord m.bits == "" then "" else sizeWord m.bits ++ " "
  let symbol := if m.symbol == "" then "" else (if m.pic then "rel " else "") ++ m.symbol
  let base := match m.base with
    | some r => r.render
    | none => ""
  let index := match m.index with
    | some r => "+" ++ r.render
    | none => ""
  size ++ "[" ++ symbol ++ base ++ index ++ renderDisp m.disp ++ "]"

/-- How an immediate value is written. -/
def Imm.render (i : Imm) : String :=
  if i.sized && sizeWord i.bits != "" then sizeWord i.bits ++ " " ++ toString i.value.toInt
  else toString i.value.toInt

/-- Whether a value can be encoded in 32 bits that are sign extended. -/
def Imm.fits32 (i : Imm) : Bool := i.value ≥ -2147483648 && i.value < 2147483648

namespace Operand

/-- The width of an operand. -/
def size : Operand → Int64
  | reg r => r.bits
  | mem m => m.bits
  | imm i => i.bits
  | label _ => 64
  | ptr _ _ => 64
  | absent => 0

/-- How an operand is written in an instruction. A register without a name for its width cannot be
written, and neither can a missing operand. -/
def render? : Operand → Option String
  | reg r => r.reg.name? r.bits
  | mem m => some m.render
  | imm i => some i.render
  | label name => some name
  | ptr target pic => some (if pic then "[rel " ++ target ++ "]" else target)
  | absent => none

/-- How an operand is written in a message. -/
def describe (x : Operand) : String := x.render?.getD "<nil>"

/-- How an operand is written. -/
def render (x : Operand) : Outcome String :=
  match x.render? with
  | some text => .ok text
  | none => .crash

/-- The registers that an operand refers to. -/
def regs : Operand → List Reg
  | reg r => [r.reg]
  | mem m => m.base.toList ++ m.index.toList
  | _ => []

end Operand

/-- A register as a whole. -/
def Reg.full (r : Reg) : Operand := .reg ⟨r, 64⟩

/-- A number as an operand of 64 bits. -/
def immediate (value : Int64) : Operand := .imm ⟨value, 64, false⟩

end TreeAsm.Asm
