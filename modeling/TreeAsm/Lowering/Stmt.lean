import TreeAsm.Lowering.Expr

/-!
# Lowering of statements

Statements become instructions in the open block and further blocks. Lowering a statement tells
whether control cannot reach its end.
-/

namespace TreeAsm.Lowering

open Ir
open Program (Arm Expr Stmt TypeRef)

/-- Jumps to a label if a condition is false. -/
def emitUnless (cond : Operand) (label : String) : Lower Unit :=
  emit .cjump none [cond, .label label, .int 0 .bool]

/-- The type that is written for a variable, if any is. -/
def writtenType (env : Env) (name : String) (ref : TypeRef) : Lower Ty :=
  if ref.isMissing then pure .untyped else Lower.within s!"var {name}" (typeOf env ref)

/-- The initial value of a variable, if it has one. -/
def initialValue (env : Env) (name : String) : Option Expr → Lower (Option Operand)
  | none => pure none
  | some e => do
    let v ← Lower.within s!"var {name}" (lowerValue env e)
    return some v

/-- The type that a variable gets: the one written, or else that of its initial value, or else
`int`. -/
def variableType (written : Ty) (value : Option Operand) : Ty :=
  if written ≠ .untyped then written else
    match value with
    | some v => if v.type ≠ .untyped then v.type else .int
    | none => .int

/-- Adds a variable, and gives it its initial value. -/
def addVariable (env : Env) (name : String) (t : Ty) (value : Option Operand) : Lower Unit := do
  let v ← newLocal name t
  define name v
  match value with
  | some x => emit .move none [.var v, coerce env.types x t]
  | none => return

/-- Lowers the declaration of a variable. -/
def lowerVar (env : Env) (name : String) (ref : TypeRef) (init : Option Expr) : Lower Unit := do
  let written ← writtenType env name ref
  let value ← initialValue env name init
  let t := variableType written value
  Lower.within s!"var {name}" (Lower.lift (checkValueType env.types t))
  addVariable env name t value

/-- A text without one `=` at its end. -/
def trimEquals (op : String) : String :=
  match op.toList.reverse with
  | '=' :: rest => String.ofList rest.reverse
  | _ => op

/-- The operation of a compound assignment. -/
def setOpcode? (op : String) : Option Opcode :=
  match Opcode.ofOperator? (trimEquals op) with
  | some code => if code.isCompare then none else some code
  | none => none

/-- What an assignment assigns: the value itself, or the result of the operation on what the
variable holds and the value. -/
def setValue (env : Env) (name op : String) (v : Operand) : Lower Operand :=
  if op == "=" || op == "" then pure v else
    match setOpcode? op with
    | none => Lower.fail (.badSetOperator name op)
    | some code => do
      let cur ← readName env name
      emitBinary env code cur v

/-- Lowers an assignment, plain or with an operation. The value is computed before the variable is
read. -/
def lowerSet (env : Env) (name op : String) (value : Expr) : Lower Unit := do
  let v ← Lower.within s!"set {name}" (lowerValue env value)
  let v ← setValue env name op v
  let _ ← assignName env name v

/-- Lowers a return, with a value exactly if the function has a type. -/
def lowerReturn (env : Env) (value : Option Expr) : Lower Unit :=
  match value with
  | none =>
    if env.types.isVoid env.ret then emit .ret none [] else Lower.fail .missingReturnValue
  | some e =>
    if env.types.isVoid env.ret then Lower.fail .returnValueInVoid
    else do
      let v ← Lower.within "return" (lowerValue env e)
      emit .ret none [coerce env.types v env.ret]

/-- Puts a bound of a loop that is no literal into a variable of its own. -/
def keepBound (what : String) (t : Ty) (x : Operand) : Lower Operand :=
  if isLiteral x then return x
  else do
    let v ← hiddenLocal what t
    emit .move none [.var v, x]
    return .var v

/-- How a loop compares its variable with its end: a step known to be negative counts down. -/
def loopCompare : (step : Operand) → Opcode
  | .int value _ => if value < 0 then .gt else .lt
  | _ => .lt

/-- Opens a block for what follows the end of another one. -/
def ensureOpen : Lower Unit := do
  if ← terminated then openBlock (← freshLabel)

/-- Jumps from the end of a body that control can reach. -/
def jumpUnless (ends : Bool) (label : String) : Lower Unit :=
  if ends then pure () else emit .jump none [.label label]

/-- Opens a block if control can reach it. -/
def openIf (reached : Bool) (label : String) : Lower Unit :=
  if reached then openBlock label else pure ()

/-- The label of what follows an arm that is not taken. -/
def labelAfter (more : Bool) (stop : String) : Lower String :=
  if more then freshLabel else pure stop

/-- Lowers an arm of a conditional, which goes to `next` if its condition is false and to `stop`
after its body. -/
def lowerArm (env : Env) (cond : Expr) (next stop : String) (body : Lower Bool) : Lower Bool := do
  let c ← Lower.within "condition" (lowerValue env cond)
  emitUnless c next
  openBlock (← freshLabel)
  let ends ← body
  jumpUnless ends stop
  return ends

/-- Lowers a loop: `test` gives the condition under which `body` runs once more, and `advance` is
done after the body. -/
def lowerLoop (test : Lower Operand) (body : Lower Bool) (advance : Lower Unit) : Lower Bool := do
  let head ← freshLabel
  let inner ← freshLabel
  let stop ← freshLabel
  openBlock head
  let c ← test
  emitUnless c stop
  openBlock inner
  let ends ← body
  (if ends then pure () else advance)
  jumpUnless ends head
  openBlock stop
  return false

/-- The type of the variable of a counting loop. -/
def loopType (first : Operand) : Ty := if isLiteral first then .int else first.type

/-- The step of a counting loop. -/
def loopStep (env : Env) (t : Ty) : Option Expr → Lower Operand
  | none => pure (.int 1 t)
  | some e => do
    let x ← Lower.within "step" (lowerValue env e)
    keepBound "step" t x

/-- Compares the variable of a counting loop with its end. -/
def loopTest (env : Env) (i : Local) (t : Ty) (limit increment : Operand) : Lower Operand := do
  let cur ← load (.var i)
  let last ← load limit
  emitBinary env (loopCompare increment) cur (coerce env.types last t)

/-- Adds its step to the variable of a counting loop. -/
def loopAdvance (env : Env) (i : Local) (t : Ty) (increment : Operand) : Lower Unit := do
  let cur ← load (.var i)
  let amount ← load increment
  let next ← emitBinary env .add cur (coerce env.types amount t)
  emit .move none [.var i, next]

/-- Lowers a counting loop whose first value is there. Its end and its step are computed once, where
the variable is in scope already. -/
def lowerCounting (env : Env) (var : String) (first : Operand) (stop : Expr) (step : Option Expr)
    (body : Lower Bool) : Lower Bool := do
  let t := loopType first
  let i ← newLocal var t
  define var i
  emit .move none [.var i, coerce env.types first t]
  let limit ← Lower.within "end" (lowerValue env stop)
  let limit ← keepBound "end" t limit
  let increment ← loopStep env t step
  lowerLoop (loopTest env i t limit increment) body (loopAdvance env i t increment)

mutual

/-- Lowers a statement, and tells whether control cannot reach its end. -/
def lowerStmt (env : Env) : Stmt → Lower Bool
  | .block body => lowerBlock env body
  | .var _ name type init => do lowerVar env name type init; return false
  | .set _ name op value => do lowerSet env name op value; return false
  | .cond _ arms otherwise => do
    let stop ← freshLabel
    let reached ← lowerArms env stop otherwise.isSome false arms
    let ends ← lowerOptional env otherwise
    openIf (reached || !ends) stop
    return !(reached || !ends)
  | .while _ cond body =>
    lowerLoop (Lower.within "condition" (lowerValue env cond)) (lowerOptional env body) (pure ())
  | .for _ var start stop step body => do
    let first ← Lower.within "start" (lowerValue env start)
    inScope (lowerCounting env var first stop step (lowerOptional env body))
  | .call pos name args => do
    let _ ← lowerExpr env (.call pos name args)
    return false
  | .expr _ x => do
    let _ ← lowerExpr env x
    return false
  | .return _ value => do lowerReturn env value; return true
  | .space p n b => Lower.fail (.notInBody (Stmt.space p n b).kind)
  | .func p n v ps r b => Lower.fail (.notInBody (Stmt.func p n v ps r b).kind)
  | .outside p n v ps r => Lower.fail (.notInBody (Stmt.outside p n v ps r).kind)
  | .struct p n v k fs => Lower.fail (.notInBody (Stmt.struct p n v k fs).kind)

/-- Lowers a block in a scope of its own, and tells whether control cannot reach its end. -/
def lowerBlock (env : Env) : Program.Block → Lower Bool
  | .mk _ stmts => inScope (lowerStmts env false stmts)

/-- Lowers a block that may be missing. -/
def lowerOptional (env : Env) : Option Program.Block → Lower Bool
  | some body => lowerBlock env body
  | none => return false

/-- Lowers statements one after the other. What follows the end of a block gets a block of its own.
`ends` tells whether control cannot reach the end of the statement before. -/
def lowerStmts (env : Env) (ends : Bool) : List Stmt → Lower Bool
  | [] => return ends || (← terminated)
  | s :: rest => do
    ensureOpen
    let ends ← Lower.within s.pos.render (lowerStmt env s)
    lowerStmts env ends rest

/-- Lowers the arms of a conditional, and tells whether control can reach `stop` after one of them.
The block of what follows the arms is open after the last one, unless nothing but `stop` does. -/
def lowerArms (env : Env) (stop : String) (hasElse reached : Bool) : List Arm → Lower Bool
  | [] => return reached
  | .mk cond body :: rest => do
    let next ← labelAfter (!rest.isEmpty || hasElse) stop
    let ends ← lowerArm env cond next stop (lowerOptional env body)
    openIf (!rest.isEmpty || hasElse) next
    lowerArms env stop hasElse (reached || !ends) rest

end

end TreeAsm.Lowering
