import TreeAsm.Emit.Operand

/-!
# Emitting instructions

Each instruction of the intermediate code becomes a few machine instructions. Registers of
temporaries that are not needed any more are given back after it, and at the end of a block all of
them are, with the values that later blocks need stored to their slots.
-/

namespace TreeAsm.Emit

open Asm (Mem Mnemonic Reg Register Text)
open Emitter (fail ins lift move onlyIf within write)
open Ir

/-- The label of the end of a function. -/
def endLabel : String := ".Lend"

/-- The temporary of an instruction's result, which must be there. -/
def resultOf (i : Instr) : Emitter Temp :=
  match i.result with
  | some t => return t
  | none => Emitter.crash

/-- An operand of an instruction, which must be there. -/
def argOf (i : Instr) (n : Nat) : Emitter Ir.Operand := lift (i.arg n)

/-- Whether a temporary is needed by blocks after block `bi`. -/
def isLiveOut (env : Env) (bi id : Nat) : Bool :=
  match env.live[bi]? with
  | some b => b.liveOut.contains id
  | none => false

/-- Gives back the register of temporary `id` at the end of block `bi`, with its value stored if
later blocks need it. -/
def flushTemp (env : Env) (bi id : Nat) (t : Temp) : Emitter Unit := do
  match ← boundAt id with
  | none => return
  | some r =>
    onlyIf (isLiveOut env bi id) <|
      within s!"store t{t.id}" (move (.mem (tempSlot env ⟨id, t.type⟩))
        (.reg ⟨r, workBits env.types t.type⟩) (isSigned t.type) none)
    unbind id r

/-- Gives back the registers of temporaries at the end of block `bi`, where the first is temporary
`id`. -/
def flushTemps (env : Env) (bi id : Nat) : List Temp → Emitter Unit
  | [] => return
  | t :: rest => do
    flushTemp env bi id t
    flushTemps env bi (id + 1) rest

/-- Gives back the registers of all temporaries at the end of block `bi`. -/
def flush (env : Env) (bi : Nat) : Emitter Unit := flushTemps env bi 0 env.func.temps

/-- The operand that a known temporary stands for, or the operand itself. -/
def knownSource (x : Ir.Operand) : Emitter Ir.Operand := do
  match x with
  | .temp t => match ← constAt t.id with
    | some c => return .int c.value c.type
    | none => return x
  | _ => return x

/-- Emits a move to a temporary. A constant is only remembered. -/
def emitMoveTemp (env : Env) (dst : Temp) (src : Ir.Operand) : Emitter Unit := do
  match src with
  | .int value _ => do
    unbindAny dst.id
    modify fun s => s.remember dst.id ⟨truncate env.types value dst.type, dst.type⟩
  | _ => do
    let s ← within "source" (operand env src)
    let d ← dest env dst
    move d s (isSigned src.type) (some .rax)
    if src.type ≠ .untyped && env.types.bits src.type ≤ env.types.bits dst.type then return
    else narrow env dst d

/-- Emits a move to a variable of type `type`. -/
def emitMoveVar (env : Env) (dst : Ir.Operand) (src : Ir.Operand) : Emitter Unit := do
  within s!"local {dst.render}" (lift (checkScalar env.types dst.type))
  let s ← within "source" (operand env src)
  let d ← operand env dst
  move d s (isSigned src.type) (some .rax)

/-- Emits a move. -/
def emitMove (env : Env) (i : Instr) : Emitter Unit := do
  let src ← knownSource (← argOf i 1)
  match ← argOf i 0 with
  | .temp t => emitMoveTemp env t src
  | .var v => emitMoveVar env (.var v) src
  | .outer name type => emitMoveVar env (.outer name type) src
  | x => fail (.badMoveTarget x.render)

/-- The machine instruction of an operation that works on a register in place. -/
def binaryMnemonic : Opcode → Mnemonic
  | .sub => .sub
  | .and => .and
  | .mul => .imul
  | _ => .add

/-- Emits an operation that works on a register in place. -/
def emitBinary (env : Env) (i : Instr) : Emitter Unit := do
  let l ← argOf i 0
  let r ← argOf i 1
  let t ← resultOf i
  let w ← lift (work env.types t.type)
  let lop ← within "left" (operand env l)
  let rop ← within "right" (operand env r)
  let (d, spilled) ← resultRegister env t w
  within "left" (move (.reg d) lop (isSigned l.type) none)
  let rop ← within "right" (atWidth rop w (isSigned r.type))
  ins (binaryMnemonic i.op) [.reg d, rop]
  if spilled then spill env t d else narrow env t (.reg d)

/-- Puts a number into a register taken for the instruction at hand. -/
def factor (x : Asm.Operand) (bits : Int64) (signed : Bool) : Emitter Asm.Operand :=
  match x with
  | .imm _ => toScratch x bits signed
  | _ => return x

/-- Multiplies `rax` without a sign, or divides it, by an operand. The upper half of what is divided
is in `rdx`. -/
def mulDivBy (op : Opcode) (signed : Bool) (bits : Int64) (x : Asm.Operand) : Emitter Unit :=
  if op = .mul then ins .mul [x]
  else if signed then do
    ins (if bits == 64 then .cqo else .cdq) []
    ins .idiv [x]
  else do
    ins .xor [.reg ⟨.rdx, bits⟩, .reg ⟨.rdx, bits⟩]
    ins .div [x]

/-- Emits an unsigned multiplication or a division, which work on `rax` and `rdx`. -/
def emitMulDiv (env : Env) (i : Instr) : Emitter Unit := do
  let l ← argOf i 0
  let r ← argOf i 1
  let t ← resultOf i
  let w ← lift (work env.types t.type)
  let lop ← within "left" (operand env l)
  let rop ← within "right" (operand env r)
  within "left" (move (.reg ⟨.rax, w⟩) lop (isSigned l.type) none)
  let rop ← within "right" (atWidth rop w (isSigned r.type))
  let rop ← factor rop w (isSigned r.type)
  mulDivBy i.op (isSigned t.type) w rop
  let d ← dest env t
  move d (.reg ⟨.rax, w⟩) (isSigned t.type) none
  narrow env t d

/-- The value of an operand that is known while code is emitted. -/
def constOf (x : Ir.Operand) : Emitter (Option Int64) := do
  match x with
  | .int value _ => return some value
  | .temp t => return (← constAt t.id).map (·.value)
  | _ => return none

/-- The result of a comparison of known values. -/
def fold (op : Opcode) (l r : Int64) (signed : Bool) : Bool :=
  if signed then
    match op with
    | .eq => l == r
    | .ne => l != r
    | .lt => l < r
    | .le => l ≤ r
    | .gt => l > r
    | _ => l ≥ r
  else
    match op with
    | .eq => l == r
    | .ne => l != r
    | .lt => l.toUInt64 < r.toUInt64
    | .le => l.toUInt64 ≤ r.toUInt64
    | .gt => l.toUInt64 > r.toUInt64
    | _ => l.toUInt64 ≥ r.toUInt64

/-- The comparison with its operands exchanged. -/
def swapped : Opcode → Opcode
  | .lt => .gt
  | .le => .ge
  | .gt => .lt
  | .ge => .le
  | op => op

/-- The machine instruction that writes the result of a comparison. -/
def setMnemonic (op : Opcode) (signed : Bool) : Mnemonic :=
  match op with
  | .eq => .sete
  | .ne => .setne
  | .lt => if signed then .setl else .setb
  | .le => if signed then .setle else .setbe
  | .gt => if signed then .setg else .seta
  | _ => if signed then .setge else .setae

/-- The greater of two widths. -/
def wider (a b : Int64) : Int64 := if a > b then a else b

/-- Puts the right operand of a comparison into a register if both are in memory. -/
def besideMemory (l r : Asm.Operand) (bits : Int64) (signed : Bool) : Emitter Asm.Operand :=
  match l, r with
  | .mem _, .mem _ => toScratch r bits signed
  | _, _ => return r

/-- Compares two operands and writes the result to the place of a temporary. -/
def compareTo (m : Mnemonic) (l r : Asm.Operand) : Asm.Operand → Emitter Unit
  | .reg d => do
    let d32 ← lift (d.sized 32)
    let d8 ← lift (d.sized 8)
    ins .xor [.reg d32, .reg d32]
    ins .cmp [l, r]
    ins m [.reg d8]
  | .mem d => do
    ins .cmp [l, r]
    ins m [.mem (d.resize 8)]
  | _ => return

/-- Emits a comparison of two operands that are not both known. -/
def emitCompareOf (env : Env) (op : Opcode) (l r : Ir.Operand) (i : Instr) : Emitter Unit := do
  let w := wider (← lift (work env.types l.type)) (← lift (work env.types r.type))
  let signed := isSigned l.type || isSigned r.type
  let lop ← within "left" (operand env l)
  let rop ← within "right" (operand env r)
  let lop ← within "left" (atWidth lop w (isSigned l.type))
  let rop ← within "right" (atWidth rop w (isSigned r.type))
  let rop ← besideMemory lop rop w (isSigned r.type)
  compareTo (setMnemonic op signed) lop rop (← dest env (← resultOf i))

/-- Emits a comparison. One of two known values is only remembered; otherwise a known value is the
right operand. -/
def emitCompare (env : Env) (i : Instr) : Emitter Unit := do
  let l ← argOf i 0
  let r ← argOf i 1
  match ← constOf l, ← constOf r with
  | some lc, some rc => do
    let t ← resultOf i
    let value := if fold i.op lc rc (isSigned l.type) then 1 else 0
    modify fun s => s.remember t.id ⟨value, t.type⟩
  | some _, none => emitCompareOf env (swapped i.op) r l i
  | none, _ => emitCompareOf env i.op l r i

/-- Puts base and offset into the address registers. -/
def address (env : Env) (base offset : Ir.Operand) (bits : Int64) : Emitter Mem := do
  let bop ← within "base" (operand env base)
  let oop ← within "offset" (operand env offset)
  within "base" (move Reg.r10.full bop false none)
  within "offset" (move Reg.r11.full oop (isSigned offset.type) none)
  return ⟨some .r10, some .r11, 0, bits, "", false⟩

/-- Emits a read of memory. -/
def emitLoad (env : Env) (i : Instr) : Emitter Unit := do
  let t ← resultOf i
  within "load" (lift (checkScalar env.types t.type))
  let base ← argOf i 0
  let offset ← argOf i 1
  let m ← address env base offset (env.types.bits t.type)
  let d ← dest env t
  move d (.mem m) (isSigned t.type) (some .rax)

/-- Emits a write to memory. -/
def emitStore (env : Env) (i : Instr) : Emitter Unit := do
  let v ← argOf i 2
  within "store" (lift (checkScalar env.types v.type))
  let vop ← within "value" (operand env v)
  let base ← argOf i 0
  let offset ← argOf i 1
  let m ← address env base offset (env.types.bits v.type)
  move (.mem m) vop (isSigned v.type) (some .rax)

/-- The memory whose address is taken. -/
def addressed (env : Env) : Ir.Operand → Outcome Mem
  | .var v =>
    match env.frame.localSlot? v with
    | some disp => .ok (slot disp 0)
    | none => .fail (.notInFrame (Operand.var v).render)
  | .outer name type => .fail (.notInFrame (Operand.outer name type).render)
  | .symbol name => .ok ⟨none, none, 0, 0, name, Asm.SysV.pic⟩
  | x => .fail (.badAddressOperand x.render)

/-- Puts an address into a place through the address register. -/
def addressThrough (src : Mem) (d : Asm.Operand) : Emitter Unit := do
  ins .lea [Reg.r10.full, .mem src]
  move d Reg.r10.full false none

/-- Puts an address into the place of a temporary. -/
def addressTo (src : Mem) : Asm.Operand → Emitter Unit
  | .reg r =>
    if src.symbol != "" && src.pic then do
      let r ← lift (r.sized 64)
      ins .lea [.reg r, .mem src]
    else addressThrough src (.reg r)
  | d => addressThrough src d

/-- Emits taking an address. -/
def emitAddrOf (env : Env) (i : Instr) : Emitter Unit := do
  let src ← lift (addressed env (← argOf i 0))
  addressTo src (← dest env (← resultOf i))

/-- Reads the arguments of a call, where the first has the number `n`. -/
def readArgs (env : Env) (n : Nat) : List Ir.Operand → Emitter (List Asm.Operand)
  | [] => return []
  | x :: rest => do
    let op ← within s!"arg {n}" (operand env x)
    let ops ← readArgs env (n + 1) rest
    return op :: ops

/-- Stores the result of a call. -/
def emitResult (env : Env) (t : Option Temp) : Emitter Unit := do
  match t with
  | none => return
  | some t => do
    let d ← dest env t
    move d (.reg ⟨.rax, workBits env.types t.type⟩) (isSigned t.type) none
    narrow env t d

/-- Emits a call. -/
def emitCall (env : Env) (i : Instr) : Emitter Unit := do
  let target ← within "target" (operand env (← argOf i 0))
  let args := i.args.drop 1
  let ops ← readArgs env 0 args
  write (Asm.SysV.call target ops (args.map fun x => isSigned x.type))
  emitResult env i.result

/-- Emits a system call. -/
def emitSyscall (env : Env) (i : Instr) : Emitter Unit := do
  let number ← within "number" (operand env (← argOf i 0))
  let args := i.args.drop 1
  let ops ← readArgs env 0 args
  let pool := (← get).pool
  write (Asm.SysV.syscall number ops (args.map fun x => isSigned x.type) pool.inUse)
  emitResult env i.result

/-- Puts the value that a function returns into its register: the first operand of a return, or
zero. -/
def returnValue (env : Env) : List Ir.Operand → Emitter Unit
  | [] => ins .xor [.reg ⟨.rax, 32⟩, .reg ⟨.rax, 32⟩]
  | v :: _ => do
    let op ← within "value" (operand env v)
    let w ← lift
      (work env.types (if env.types.isVoid env.func.ret then v.type else env.func.ret))
    move (.reg ⟨.rax, w⟩) op (isSigned v.type) none

/-- Emits a return. The last instruction of a function runs into its end. -/
def emitRet (env : Env) (bi : Nat) (last : Bool) (i : Instr) : Emitter Unit := do
  returnValue env i.args
  flush env bi
  onlyIf (!last) (ins .jmp [.label endLabel])

/-- Emits a jump, which is left out if it goes to the next block. -/
def emitJump (env : Env) (bi : Nat) (i : Instr) : Emitter Unit := do
  let label := (← lift i.target).getD ""
  flush env bi
  match env.func.blockIndex? label with
  | none => fail (.noLabel label)
  | some ti => onlyIf (ti != bi + 1) (ins .jmp [.label label])

/-- Emits a conditional jump. One whose condition is known is a jump or nothing. -/
def emitCJump (env : Env) (bi : Nat) (i : Instr) : Emitter Unit := do
  let cond ← argOf i 0
  let label := (← lift i.target).getD ""
  match ← argOf i 2 with
  | .int sentinel _ => do
    let onTrue := sentinel == 1
    match ← constOf cond with
    | some c => do
      flush env bi
      onlyIf ((c != 0) == onTrue) (ins .jmp [.label label])
    | none => do
      let op ← within "condition" (operand env cond)
      ins .cmp [op, .imm ⟨0, op.size, false⟩]
      flush env bi
      ins (if onTrue then .jne else .je) [.label label]
  | x => fail (.badSentinel x.render)

/-- Emits a label. -/
def emitLabel (i : Instr) : Emitter Unit := do
  match ← argOf i 0 with
  | .label name => write (Text.line (.label name))
  | x => fail (.badLabelOperand x.render)

/-- Gives back the registers taken for the instruction at hand, the latest first. -/
def releaseScratches : List Reg → Emitter Unit
  | [] => return
  | r :: rest => do
    within "scratch" (release r)
    releaseScratches rest

/-- Emits the operation of an instruction of block `bi`. `last` tells whether it is the last one of
the function. -/
def emitOp (env : Env) (bi : Nat) (last : Bool) (i : Instr) : Emitter Unit :=
  match i.op with
  | .move => emitMove env i
  | .add | .sub | .and => emitBinary env i
  | .mul => do
    if isSigned (← resultOf i).type then emitBinary env i else emitMulDiv env i
  | .div => emitMulDiv env i
  | .eq | .ne | .lt | .le | .gt | .ge => emitCompare env i
  | .load => emitLoad env i
  | .store => emitStore env i
  | .addrOf => emitAddrOf env i
  | .call => emitCall env i
  | .syscall => emitSyscall env i
  | .ret => emitRet env bi last i
  | .jump => emitJump env bi i
  | .cjump => emitCJump env bi i
  | .label => emitLabel i
  | .unknown code => fail (.unsupportedOpcode (Opcode.unknown code).render)

/-- Emits an instruction of block `bi`, and gives back the registers taken for it. -/
def emitInstr (env : Env) (bi : Nat) (last : Bool) (i : Instr) : Emitter Unit := do
  modify fun s => { s with scratches := [] }
  emitOp env bi last i
  releaseScratches (← get).scratches

/-- Whether an instruction mentions a temporary. -/
def mentions (i : Instr) (id : Nat) : Bool :=
  (i.args.any fun x => x.temp?.any (·.id == id)) || i.result.any (·.id == id)

/-- Gives back the register of a temporary that neither the rest of block `bi` nor later blocks
need. -/
def releaseTemp (env : Env) (bi : Nat) (rest : List Instr) (t : Temp) : Emitter Unit := do
  match ← boundAt t.id with
  | none => return
  | some r =>
    if (rest.any fun i => mentions i t.id) || isLiveOut env bi t.id then return
    else unbind t.id r

/-- Gives back the registers of temporaries that are not needed any more. -/
def releaseTemps (env : Env) (bi : Nat) (rest : List Instr) : List Temp → Emitter Unit
  | [] => return
  | t :: ts => do
    releaseTemp env bi rest t
    releaseTemps env bi rest ts

/-- The temporaries that an instruction mentions: its operands, then its result. -/
def mentioned (i : Instr) : List Temp := i.args.filterMap (·.temp?) ++ i.result.toList

end TreeAsm.Emit
