import TreeAsm.Ir.Opcode
import TreeAsm.Types.Basic

/-!
# Functions of the intermediate code

A function has variables, whose parameters come first, temporaries, and blocks of instructions.
Control enters a block at its start and leaves it at its end, to the block that the last instruction
names or to the next one.

The operands of an instruction depend on its operation:

* `move` target, source; the target is a temporary or a variable
* `ret`, with or without a value
* an arithmetic operation or comparison: left, right
* `load` base, offset; `store` base, offset, value
* `addrOf` a variable or a symbol
* `call` symbol, arguments; `syscall` number, arguments
* `jump` label; `cjump` condition, label, sentinel: jumps if the condition is true (not zero)
  exactly if the sentinel is 1
* `label` label
-/

namespace TreeAsm.Ir

/-- A temporary: its number in the function and its type. -/
structure Temp where
  id : Nat
  type : Ty
  deriving DecidableEq, Repr, Inhabited

/-- A variable of a function: its number, which counts parameters too, its name and its type. -/
structure Local where
  index : Nat
  name : String
  type : Ty
  isParam : Bool
  deriving DecidableEq, Repr, Inhabited

/-- A string constant of a module. -/
structure StringConst where
  value : String
  label : String
  type : Ty
  deriving DecidableEq, Repr, Inhabited

/-- What an instruction works on. -/
inductive Operand where
  | temp (t : Temp)
  | var (v : Local)
  /-- A variable of some other function. -/
  | outer (name : String) (type : Ty)
  | int (value : Int64) (type : Ty)
  | str (s : StringConst)
  | symbol (name : String)
  | label (name : String)
  deriving DecidableEq, Repr, Inhabited

namespace Operand

/-- The type of an operand; symbols and labels have none. -/
def type : Operand → Ty
  | temp t => t.type
  | var v => v.type
  | outer _ t => t
  | int _ t => t
  | str s => s.type
  | symbol _ => .untyped
  | label _ => .untyped

/-- How an operand is written. -/
def render : Operand → String
  | temp t => s!"t{t.id}"
  | var v => "%" ++ v.name
  | outer name _ => "%" ++ name
  | int value _ => toString value.toInt
  | str s => s.label
  | symbol name => "@" ++ name
  | label name => name

/-- The temporary that an operand is. -/
def temp? : Operand → Option Temp
  | temp t => some t
  | _ => none

/-- The name of the label that an operand is. -/
def label? : Operand → Option String
  | label name => some name
  | _ => none

end Operand

/-- An instruction: an operation, the temporary that gets its result and its operands. -/
structure Instr where
  op : Opcode
  result : Option Temp
  args : List Operand
  deriving DecidableEq, Repr, Inhabited

namespace Instr

/-- The operand at a place; it must be there. -/
def arg (i : Instr) (n : Nat) : Outcome Operand :=
  match i.args[n]? with
  | some x => .ok x
  | none => .crash

/-- The temporary that an instruction writes. -/
def written (i : Instr) : Outcome (Option Temp) :=
  match i.result with
  | some t => .ok (some t)
  | none =>
    if i.op = .move then do return (← i.arg 0).temp?
    else .ok none

/-- The operands that an instruction reads, in order. -/
def reads (i : Instr) : Outcome (List Operand) :=
  if i.op = .move then
    match i.args with
    | [] => .crash
    | _ :: args => .ok args
  else .ok i.args

/-- The label that a jump goes to; none if its operand is no label, or if it is no jump. -/
def target (i : Instr) : Outcome (Option String) :=
  match i.op with
  | .jump => do return (← i.arg 0).label?
  | .cjump => do return (← i.arg 1).label?
  | _ => .ok none

/-- How an instruction is written. -/
def render (u : Universe) (i : Instr) : String :=
  let result := match i.result with
    | some t => s!"t{t.id}:" ++ u.render t.type ++ " = "
    | none => ""
  let args := if i.args.isEmpty then "" else " " ++ String.intercalate ", " (i.args.map (·.render))
  result ++ i.op.render ++ args

end Instr

/-- Instructions under a label. -/
structure Block where
  label : String
  code : List Instr
  deriving DecidableEq, Repr, Inhabited

/-- Whether a block ends with an instruction that decides where control goes. -/
def Block.isTerminated (b : Block) : Bool :=
  match b.code.getLast? with
  | some i => i.op.isTerminator
  | none => false

/-- The label of the `n`-th block made for a function. -/
def blockLabel (n : Int) : String := s!".L{n}"

/-- A function. One that is external has no body here. -/
structure Func where
  name : String
  ret : Ty
  isPublic : Bool
  external : Bool
  locals : List Local
  temps : List Temp
  blocks : List Block
  deriving DecidableEq, Repr, Inhabited

namespace Func

/-- The parameters of a function. -/
def params (f : Func) : List Local := f.locals.filter (·.isParam)

/-- The place of the first block with a label. -/
def blockIndex? (f : Func) (label : String) : Option Nat :=
  f.blocks.findIdx? fun b => b.label == label

end Func

end TreeAsm.Ir
