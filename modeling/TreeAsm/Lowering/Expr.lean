import TreeAsm.Lowering.Types

/-!
# Lowering of expressions

An expression becomes instructions and an operand that holds its value; a call of a function that
returns nothing has none. Operands are evaluated from left to right.
-/

namespace TreeAsm.Lowering

open Ir
open Program (Expr)

/-- The value of a step that must have one. -/
def required (x : Lower (Option Operand)) : Lower Operand := do
  match ← x with
  | some v => return v
  | none => Lower.fail .voidValueUsed

/-- An integer literal: `int`, or `long` if it does not fit. -/
def literal (value : Int64) : Operand :=
  if value > 2147483647 || value < -2147483648 then .int value .long else .int value .int

/-- Reads what a name stands for: a variable, a global variable, or the address of a function. -/
def readName (env : Env) (name : String) : Lower Operand := do
  match ← lookup name with
  | some v => load (.var v)
  | none => match ← lookupGlobal env name with
    | some g => do
      let a ← symbolAddress g.name (.ptr g.type)
      loadAt a (.int 0 .u64) g.type
    | none => match ← lookupFunc env name with
      | some f => symbolAddress f.name (.ptr .void)
      | none => Lower.fail (.undefined name)

/-- Gives the variable of a name a value, and returns what the assignment itself is worth. -/
def assignName (env : Env) (name : String) (value : Operand) : Lower Operand := do
  match ← lookup name with
  | some v => do
    let value := coerce env.types value v.type
    emit .move none [.var v, value]
    return value
  | none => match ← lookupGlobal env name with
    | some g => do
      let value ← convert env value g.type
      let a ← symbolAddress g.name (.ptr g.type)
      emit .store none [a, .int 0 .u64, value]
      return value
    | none => Lower.fail (.undefined name)

/-- The variable whose value the last of some instructions moves to a temporary. -/
def movedVariable (code : List Instr) (x : Operand) : Option Local :=
  match x, code.getLast? with
  | .temp t, some ⟨.move, _, [.temp t', .var v]⟩ => if t = t' then some v else none
  | _, _ => none

/-- Turns the reading of a variable that has just been added into taking its address. -/
def takeAddress (x : Operand) : Lower (Option Operand) := do
  match movedVariable (← get).block.code x with
  | none => return none
  | some v => do
    modify fun s => { s with block := { s.block with code := s.block.code.dropLast } }
    let a ← newTemp (.ptr v.type)
    emit .addrOf (some a) [.var v]
    return some (.temp a)

/-- The address of what a name stands for. -/
def addressOfName (env : Env) (name : String) : Lower Operand := do
  let global ← match ← lookup name with
    | some _ => pure none
    | none => lookupGlobal env name
  match global with
  | some g => symbolAddress g.name (.ptr g.type)
  | none => do
    let x ← readName env name
    match ← takeAddress x with
    | some a => return a
    | none => Lower.fail (.noAddress name)

/-- A place in memory: an offset from a base, and the type of what is there. -/
structure Place where
  base : Operand
  offset : Operand
  type : Ty

/-- What messages call the type of something whose field is taken. -/
def fieldBaseName (u : Universe) (t : Ty) (indirect : Bool) : String :=
  if !indirect && t.isPtr then u.render t.elem else u.render t

/-- The place of a field of the struct that a base points to. -/
def fieldPlace (env : Env) (base : Operand) (name : String) (indirect : Bool) : Lower Place := do
  let t := base.type
  if !t.isPtr || !t.elem.isRecord then
    Lower.fail (.notAStruct name (fieldBaseName env.types t indirect))
  else match (← get).module.struct? t.elem.name with
    | none => Lower.fail (.unknownStruct name t.elem.name)
    | some s => do
      let (offset, type) ← Lower.lift (s.fieldOffset name)
      return ⟨base, .int offset .u64, type⟩

/-- Refuses bases that cannot be indexed. -/
def checkIndexable (u : Universe) (base : Operand) : Outcome Unit :=
  if !base.type.isPtr || u.isVoid base.type.elem then
    .fail (.indexOfNonPointer (u.render base.type))
  else .ok ()

/-- The place of an element of what a base points to. -/
def elementPlace (env : Env) (base index : Operand) : Lower Place := do
  let elem := base.type.elem
  let size := env.types.size elem
  match index with
  | .int value _ => return ⟨base, .int (value * size) .u64, elem⟩
  | _ =>
    if size == 1 then return ⟨base, index, elem⟩
    else do
      let offset ← emitBinary env .mul index (.int size .untyped)
      return ⟨base, offset, elem⟩

/-- Whether an operand is the literal zero. -/
def isZero : Operand → Bool
  | .int value _ => value == 0
  | _ => false

/-- The address of a place. -/
def placeAddress (env : Env) (p : Place) : Lower Operand := do
  let r ← newTemp (.ptr p.type)
  if isZero p.offset then emit .move none [.temp r, p.base]
  else emit .add (some r) [p.base, coerce env.types p.offset .u64]
  return .temp r

/-- Writes a value to a place, and returns what the assignment itself is worth. -/
def storeAt (env : Env) (p : Place) (value : Operand) : Lower Operand := do
  let value ← convert env value p.type
  emit .store none [p.base, p.offset, value]
  return value

/-- The arguments of a call, where literals take the types of the parameters. -/
def coerceArgs (u : Universe) : List Local → List Operand → List Operand
  | p :: params, x :: args => coerce u x p.type :: coerceArgs u params args
  | _, args => args

/-- Adds a call. A function without parameters takes any arguments. -/
def emitCall (env : Env) (callee : String) (ret : Ty) (params : List Local) (args : List Operand) :
    Lower (Option Operand) := do
  if params.length ≠ 0 && params.length ≠ args.length then
    Lower.fail (.argumentCount callee args.length params.length)
  else
    let operands := .symbol callee :: coerceArgs env.types params args
    if env.types.isVoid ret then
      emit .call none operands
      return none
    else
      let r ← newTemp ret
      emit .call (some r) operands
      return some (.temp r)

/-- Declares an outside function unless there is a function of that name. -/
def declareOutside (name : String) (ret : Ty) : Lower Func := fun s =>
  match h : s.module.func? name with
  | some f => .ok (f, s)
  | none =>
    let f : Func := ⟨name, ret, false, true, [], [], []⟩
    .ok (f, { s with module := { s.module with funcTable := s.module.funcTable.put f h } })

/-- The function that a call goes to. A name that stands for none is an outside function that
returns `int`. -/
def callee (env : Env) (name : String) : Lower Func := do
  match ← lookupFunc env name with
  | some f => return f
  | none => declareOutside name .int

mutual

/-- Lowers an expression to the operand that holds its value. -/
def lowerExpr (env : Env) : Expr → Lower (Option Operand)
  | .int _ value => return some (literal value)
  | .str _ value => return some (.str (← intern value))
  | .ident _ name => return some (← readName env name)
  | .binary _ op left right =>
    match Opcode.ofOperator? op with
    | none => Lower.fail (.badOperator op)
    | some op => do
      let l ← Lower.within "left" (required (lowerExpr env left))
      let r ← Lower.within "right" (required (lowerExpr env right))
      return some (← emitBinary env op l r)
  | .unary _ op x =>
    if op == "&" then return some (← lowerAddress env x)
    else if op == "-" then
      match x with
      | .int _ value => return some (literal (-value))
      | x => do
        let v ← required (lowerExpr env x)
        return some (← emitBinary env .sub (.int 0 v.type) v)
    else Lower.fail (.badUnaryOperator op)
  | .call _ name args => do
    let f ← callee env name
    let values ← lowerArgs env s!"call {f.name}: arg " 0 args
    emitCall env f.name f.ret f.params values
  | .assign _ target value =>
    match target with
    | .ident _ name => do
      let v ← Lower.within s!"assign {name}" (required (lowerExpr env value))
      return some (← assignName env name v)
    | .field _ x name indirect => do
      let base ← Lower.within s!"field {name}"
        (if indirect then required (lowerExpr env x) else lowerAddress env x)
      let p ← fieldPlace env base name indirect
      let v ← Lower.within "assign" (required (lowerExpr env value))
      return some (← storeAt env p v)
    | .index _ x index => do
      let base ← Lower.within "index base" (required (lowerExpr env x))
      Lower.lift (checkIndexable env.types base)
      let i ← Lower.within "index" (required (lowerExpr env index))
      let p ← elementPlace env base i
      let v ← Lower.within "assign" (required (lowerExpr env value))
      return some (← storeAt env p v)
    | target => Lower.fail (.notAssignable target.kind)
  | .index _ x index => do
    let base ← Lower.within "index base" (required (lowerExpr env x))
    Lower.lift (checkIndexable env.types base)
    let i ← Lower.within "index" (required (lowerExpr env index))
    let p ← elementPlace env base i
    return some (← loadAt p.base p.offset p.type)
  | .field _ x name indirect => do
    let base ← Lower.within s!"field {name}"
      (if indirect then required (lowerExpr env x) else lowerAddress env x)
    let p ← fieldPlace env base name indirect
    return some (← loadAt p.base p.offset p.type)
  | .cast _ type x => do
    let t ← Lower.within "cast" (typeOf env type)
    Lower.within "cast" (Lower.lift (checkValueType env.types t))
    let v ← Lower.within "cast" (required (lowerExpr env x))
    let r ← newTemp t
    emit .move none [.temp r, coerce env.types v t]
    return some (.temp r)
  | .syscall _ number args => do
    let n ← Lower.within "syscall number" (required (lowerExpr env number))
    let values ← lowerArgs env "syscall arg " 0 args
    let r ← newTemp .long
    emit .syscall (some r) ((n :: values).map fun x => coerce env.types x .long)
    return some (.temp r)
  | .foreign _ name ret args => do
    let t ← Lower.within s!"foreign {name}" (typeOf env ret)
    let f ← declareOutside name t
    Lower.within s!"foreign {name}" do
      let values ← lowerArgs env s!"call {f.name}: arg " 0 args
      emitCall env f.name t f.params values

/-- Lowers an expression that stands for a place to the address of the place. -/
def lowerAddress (env : Env) : Expr → Lower Operand
  | .ident _ name => addressOfName env name
  | .field _ x name indirect => do
    let base ← Lower.within s!"field {name}"
      (if indirect then required (lowerExpr env x) else lowerAddress env x)
    let p ← fieldPlace env base name indirect
    placeAddress env p
  | .index _ x index => do
    let base ← Lower.within "index base" (required (lowerExpr env x))
    Lower.lift (checkIndexable env.types base)
    let i ← Lower.within "index" (required (lowerExpr env index))
    let p ← elementPlace env base i
    placeAddress env p
  | e => Lower.fail (.noAddress e.kind)

/-- Lowers arguments in order, where the first has the number `n`. -/
def lowerArgs (env : Env) (step : String) (n : Nat) : List Expr → Lower (List Operand)
  | [] => return []
  | x :: rest => do
    let v ← Lower.within s!"{step}{n}" (required (lowerExpr env x))
    let vs ← lowerArgs env step (n + 1) rest
    return v :: vs

end

/-- Lowers an expression that must have a value. -/
def lowerValue (env : Env) (e : Expr) : Lower Operand := required (lowerExpr env e)

end TreeAsm.Lowering
