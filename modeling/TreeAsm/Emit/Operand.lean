import TreeAsm.Emit.State

/-!
# Operands of emitted code

How the operands of the intermediate code are read and where results go. Values are computed in
registers of 32 or 64 bits; narrower types are kept extended to that width.
-/

namespace TreeAsm.Emit

open Asm (Mem Reg Register Text)
open Ir

/-- The width at which values of a type are computed. -/
def workBits (u : Universe) (t : Ty) : Int64 := if u.bits t > 32 then 64 else 32

/-- The width at which values of a type are computed; there must be a type. -/
def work (u : Universe) (t : Ty) : Outcome Int64 :=
  if t = .untyped then .crash else .ok (workBits u t)

/-- Whether values of a type are extended by their sign. -/
def isSigned (t : Ty) : Bool := t.signed && !t.isPtr

/-- Refuses types whose values do not fit a register. -/
def checkScalar (u : Universe) (t : Ty) : Outcome Unit :=
  if u.isVoid t || t.isRecord || u.bits t == 0 || u.bits t > 64 then
    .fail (.notInRegisters (u.render t))
  else .ok ()

/-- The width of a slot for values of a type, 0 for those that do not fit a register. -/
def scalarBits (u : Universe) (t : Ty) : Int64 :=
  match checkScalar u t with
  | .ok _ => u.bits t
  | .error _ => 0

/-- The value of a type that a number is, by its lowest bits. -/
def truncate (u : Universe) (v : Int64) (t : Ty) : Int64 :=
  let bits := u.bits t
  if bits ≤ 0 || bits ≥ 64 then v
  else
    let low := v &&& ((1 <<< bits) - 1)
    if isSigned t && low &&& (1 <<< (bits - 1)) != 0 then low - (1 <<< bits) else low

/-- A place in the frame. -/
def slot (disp bits : Int64) : Mem := ⟨some .rbp, none, disp, bits, "", false⟩

/-- The slot of a temporary. -/
def tempSlot (env : Env) (t : Temp) : Mem := slot (env.frame.tempSlot t) (env.types.bits t.type)

/-- What a symbol stands for: a string, a function or a global variable. -/
def symbol (env : Env) (name : String) : Outcome Asm.Operand :=
  match env.module.stringByLabel? name with
  | some s => .ok (.ptr s.label Asm.SysV.pic)
  | none =>
    if (env.module.func? name).isSome then .ok (.label name)
    else match env.module.global? name with
      | some g => .ok (.mem ⟨none, none, 0, scalarBits env.types g.type, g.name, Asm.SysV.pic⟩)
      | none => .fail (.unknownSymbol name)

/-- Where a temporary is read from: a constant, its register, or its slot. One in its slot gets a
register if one can be spared. -/
def readTemp (env : Env) (t : Temp) : Emitter Asm.Operand := do
  match ← constAt t.id with
  | some c => return .imm ⟨c.value, ← Emitter.lift (work env.types t.type), false⟩
  | none => do
    Emitter.within s!"temp t{t.id}" (Emitter.lift (checkScalar env.types t.type))
    match ← boundAt t.id with
    | some r => return .reg ⟨r, workBits env.types t.type⟩
    | none => match ← takeSpare with
      | none => return .mem (tempSlot env t)
      | some r => do
        let d : Register := ⟨r, workBits env.types t.type⟩
        Emitter.within s!"reload t{t.id}"
          (Emitter.move (.reg d) (.mem (tempSlot env t)) (isSigned t.type) none)
        modify fun s => s.bind t.id (some r)
        return .reg d

/-- Where an operand is read from. -/
def operand (env : Env) : Ir.Operand → Emitter Asm.Operand
  | .var v =>
    match env.frame.localSlot? v with
    | some disp => return .mem (slot disp (scalarBits env.types v.type))
    | none => Emitter.fail (.notInFrame (Operand.var v).render)
  | .outer name type => Emitter.fail (.notInFrame (Operand.outer name type).render)
  | .temp t => readTemp env t
  | .int value type =>
    return .imm ⟨truncate env.types value type, workBits env.types type, false⟩
  | .str s => return .ptr s.label Asm.SysV.pic
  | .symbol name => Emitter.lift (symbol env name)
  | .label name => return .label name

/-- Where the result in a temporary goes: its register, or its slot. -/
def dest (env : Env) (t : Temp) : Emitter Asm.Operand := do
  Emitter.within s!"result t{t.id}" (Emitter.lift (checkScalar env.types t.type))
  modify fun s => s.forget t.id
  match ← boundAt t.id with
  | some r => return .reg ⟨r, workBits env.types t.type⟩
  | none => match ← takeSpare with
    | none => return .mem (tempSlot env t)
    | some r => do
      modify fun s => s.bind t.id (some r)
      return .reg ⟨r, workBits env.types t.type⟩

/-- Copies an operand into a register taken for the instruction at hand. -/
def toScratch (x : Asm.Operand) (bits : Int64) (signed : Bool) : Emitter Asm.Operand := do
  let r ← scratch bits
  Emitter.move (.reg r) x signed none
  return .reg r

/-- Makes an operand usable as the second one of an instruction of a width. A narrower register is
extended in place; narrower memory and wide numbers go through a register. -/
def atWidth (x : Asm.Operand) (bits : Int64) (signed : Bool) : Emitter Asm.Operand :=
  match x with
  | .imm i =>
    if bits < 64 || i.fits32 then return .imm { i with bits := bits }
    else toScratch x bits signed
  | .reg r =>
    if r.bits == bits then return x
    else do
      let d ← Emitter.lift (r.sized bits)
      Emitter.onlyIf (r.bits < bits) (Emitter.move (.reg d) x signed none)
      return .reg d
  | .mem m => if m.bits ≥ bits then return .mem (m.resize bits) else toScratch x bits signed
  | _ => toScratch x bits signed

/-- A register to compute a result in, and whether it has to be stored to the slot afterwards. -/
def resultRegister (env : Env) (t : Temp) (bits : Int64) : Emitter (Register × Bool) := do
  match ← dest env t with
  | .reg r => return (← Emitter.lift (r.sized bits), false)
  | _ => return (← scratch bits, true)

/-- Stores a result to the slot of its temporary. -/
def spill (env : Env) (t : Temp) (r : Register) : Emitter Unit :=
  Emitter.move (.mem (tempSlot env t)) (.reg r) (isSigned t.type) none

/-- Brings a register with the value of a narrower temporary back into the range of its type. -/
def narrow (env : Env) (t : Temp) (d : Asm.Operand) : Emitter Unit :=
  match d with
  | .reg r =>
    let bits := env.types.bits t.type
    if bits ≥ r.bits || bits == 0 then return
    else do
      let low ← Emitter.lift (r.sized bits)
      Emitter.ins (if isSigned t.type then .movsx else .movzx) [.reg r, .reg low]
  | _ => return

end TreeAsm.Emit
