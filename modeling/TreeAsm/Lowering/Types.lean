import TreeAsm.Lowering.State

/-!
# Types in lowering

How type references are resolved, which types values can have, and how a value is made to have a
type.
-/

namespace TreeAsm.Lowering

open Ir
open Program (TypeRef)

/-- The struct that a name stands for in a namespace: the namespace's own comes first. -/
def structIn (m : Module) (ns name : String) : Option Struct :=
  match if ns == "" then none else m.struct? (qualify ns name) with
  | some s => some s
  | none => m.struct? name

/-- The type that a reference stands for. A missing reference stands for `void`. -/
def resolveType (u : Universe) (m : Module) (ns : String) (ref : TypeRef) : Outcome Ty :=
  if ref.isMissing then .ok .void
  else if ref.name == "" then .fail .pointerToNothing
  else match u.named? ref.name with
    | some t => .ok (Ty.ptrs ref.stars t)
    | none => match structIn m ns ref.name with
      | some s => .ok (Ty.ptrs ref.stars (.record s.name))
      | none => .fail (.unknownType ref.name)

/-- The type that a reference stands for. -/
def typeOf (env : Env) (ref : TypeRef) : Lower Ty := fun s =>
  match resolveType env.types s.module env.ns ref with
  | .ok t => .ok (t, s)
  | .error e => .error e

/-- Refuses types that variables cannot have. -/
def checkValueType (u : Universe) (t : Ty) : Outcome Unit :=
  if u.fatStrings && t == .string then .fail .fatStringValue
  else if u.isVoid t then .fail .voidValue
  else .ok ()

/-- Whether an integer literal can have a type. -/
def isLiteralType (u : Universe) (t : Ty) : Bool := t != .untyped && !u.isVoid t && !t.isRecord

/-- Gives an integer literal a type that it can have. -/
def coerce (u : Universe) (x : Operand) (t : Ty) : Operand :=
  match x with
  | .int value _ => if isLiteralType u t then .int value t else x
  | _ => x

/-- Whether an operand is an integer literal. -/
def isLiteral : Operand → Bool
  | .int _ _ => true
  | _ => false

/-- Makes a value have a type: a literal gets it, a value of another type is moved to a temporary
that has it. -/
def convert (env : Env) (x : Operand) (t : Ty) : Lower Operand :=
  if isLiteral x || env.types.equal x.type t then return coerce env.types x t
  else do
    let r ← newTemp t
    emit .move none [.temp r, x]
    return .temp r

/-- Reads a variable into a new temporary; any other operand stays as it is. -/
def load (x : Operand) : Lower Operand :=
  match x with
  | .var v => do
    let t ← newTemp v.type
    emit .move none [.temp t, .var v]
    return .temp t
  | _ => return x

/-- The two operands of a binary operation, where a literal takes the type of the other one. -/
def balance (u : Universe) (l r : Operand) : Operand × Operand :=
  if isLiteral l && !isLiteral r then (coerce u l r.type, r)
  else if isLiteral r && !isLiteral l then (l, coerce u r l.type)
  else (l, r)

/-- The type of the result of a binary operation: truth values for comparisons, otherwise the type
of the left operand, unless only the right one is a pointer. -/
def resultType (op : Opcode) (l r : Operand) : Ty :=
  if op.isCompare then .bool
  else if r.type.isPtr && !l.type.isPtr then r.type
  else l.type

/-- Adds a binary operation. -/
def emitBinary (env : Env) (op : Opcode) (l r : Operand) : Lower Operand := do
  let (l, r) := balance env.types l r
  let t ← newTemp (resultType op l r)
  emit op (some t) [l, r]
  return .temp t

/-- Reads memory at an offset from a base. -/
def loadAt (base offset : Operand) (t : Ty) : Lower Operand := do
  let r ← newTemp t
  emit .load (some r) [base, offset]
  return .temp r

/-- The address of a symbol. -/
def symbolAddress (name : String) (t : Ty) : Lower Operand := do
  let a ← newTemp t
  emit .addrOf (some a) [.symbol name]
  return .temp a

end TreeAsm.Lowering
