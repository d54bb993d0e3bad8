import TreeAsm.Program.Basic

/-!
# What structured integer programs mean

The meaning of the functions that compute with values of type `int` only: variables, arithmetic,
conditionals, loops, returns. Arithmetic is that of 32 bit integers and wraps around; a division
rounds towards zero, and it faults if the divisor is zero or the quotient does not fit. Operands are
evaluated from left to right. A function whose end is reached returns 0.

The evaluator is structural in the program. A loop runs at most a given number of times, so that a
program means what it comes to for some bound (`Returns`, `Faults`).

`Stmt.isStructured` and its companions decide which statements belong to this part of the language,
where `vis` are the names of the variables that can be seen.
-/

namespace TreeAsm.Program

/-- What the names in scope stand for: the innermost scope and the latest name first. -/
abbrev Bindings (α : Type) := List (List (String × α))

namespace Bindings

variable {α β : Type}

/-- What a name stands for. -/
def get? (b : Bindings α) (name : String) : Option α := b.findSome? fun scope => scope.lookup name

/-- Lets the first name in a scope stand for something else. -/
def setFirst (name : String) (a : α) : List (String × α) → List (String × α)
  | [] => []
  | p :: rest => if name == p.1 then (p.1, a) :: rest else p :: setFirst name a rest

/-- Lets the innermost name stand for something else. -/
def set (b : Bindings α) (name : String) (a : α) : Bindings α :=
  match b with
  | [] => []
  | scope :: outer =>
    if (scope.lookup name).isSome then setFirst name a scope :: outer
    else scope :: set outer name a

/-- Adds a name to the innermost scope. -/
def declare (b : Bindings α) (name : String) (a : α) : Bindings α :=
  match b with
  | [] => [[(name, a)]]
  | scope :: outer => ((name, a) :: scope) :: outer

/-- The same names for what a function makes of the things they stand for. -/
def map (f : α → β) (b : Bindings α) : Bindings β := List.map (List.map fun p => (p.1, f p.2)) b

theorem lookup_map (f : α → β) (name : String) : ∀ scope : List (String × α),
    (scope.map fun p => (p.1, f p.2)).lookup name = (scope.lookup name).map f := by
  intro scope
  induction scope with
  | nil => rfl
  | cons p rest ih =>
    rw [List.map_cons, List.lookup_cons, List.lookup_cons]
    split
    · rfl
    · exact ih

theorem get?_map (f : α → β) (name : String) : ∀ b : Bindings α,
    (b.map f).get? name = (b.get? name).map f := by
  intro b
  induction b with
  | nil => rfl
  | cons scope outer ih =>
    have ih' : List.findSome? (List.lookup name) (map f outer)
        = (List.findSome? (List.lookup name) outer).map f := ih
    show List.findSome? (List.lookup name) ((scope.map fun p => (p.1, f p.2)) :: map f outer)
      = (List.findSome? (List.lookup name) (scope :: outer)).map f
    rw [List.findSome?_cons, List.findSome?_cons, lookup_map, ih']
    cases scope.lookup name <;> rfl

theorem setFirst_map (f : α → β) (name : String) (a : α) : ∀ scope : List (String × α),
    (setFirst name a scope).map (fun p => (p.1, f p.2))
      = setFirst name (f a) (scope.map fun p => (p.1, f p.2)) := by
  intro scope
  induction scope with
  | nil => rfl
  | cons p rest ih =>
    rw [setFirst, List.map_cons, setFirst]
    split
    · rfl
    · rw [List.map_cons, ih]

theorem set_map (f : α → β) (name : String) (a : α) : ∀ b : Bindings α,
    (b.set name a).map f = (b.map f).set name (f a) := by
  intro b
  induction b with
  | nil => rfl
  | cons scope outer ih =>
    show map f (if (scope.lookup name).isSome then setFirst name a scope :: outer
        else scope :: set outer name a)
      = if ((scope.map fun p => (p.1, f p.2)).lookup name).isSome
        then setFirst name (f a) (scope.map fun p => (p.1, f p.2)) :: map f outer
        else (scope.map fun p => (p.1, f p.2)) :: set (map f outer) name (f a)
    rw [lookup_map, Option.isSome_map]
    split
    · exact congrArg (· :: map f outer) (setFirst_map f name a scope)
    · exact congrArg (_ :: ·) ih

theorem declare_map (f : α → β) (name : String) (a : α) (b : Bindings α) :
    (b.declare name a).map f = (b.map f).declare name (f a) := by
  cases b <;> rfl

end Bindings

/-- The values of the variables in scope. -/
abbrev Vars := Bindings Int32

/-- Why the evaluation of a function stops before its end. -/
inductive Halt where
  | returned (v : Int32)
  | fault
  /-- A loop has not come to its end yet. -/
  | timeout
  /-- What is evaluated is not part of the language. -/
  | unsupported
  deriving DecidableEq, Repr

/-- A step of evaluation. -/
abbrev Eval (α : Type) := Except Halt α

/-- The value that must be there. -/
def expect {α : Type} : Option α → Eval α
  | some a => .ok a
  | none => .error .unsupported

/-- The quotient of two numbers, rounded towards zero. -/
def divide (a b : Int32) : Eval Int32 :=
  if b = 0 ∨ (a = Int32.minValue ∧ b = -1) then .error .fault else .ok (a / b)

/-- The result of an arithmetic operation. -/
def applyOp (op : String) (a b : Int32) : Eval Int32 :=
  match op with
  | "+" => .ok (a + b)
  | "-" => .ok (a - b)
  | "*" => .ok (a * b)
  | "/" => divide a b
  | "&" => .ok (a &&& b)
  | _ => .error .unsupported

/-- The result of a comparison. -/
def compareOp (op : String) (a b : Int32) : Option Bool :=
  match op with
  | "==" => some (decide (a = b))
  | "!=" => some (decide (a ≠ b))
  | "<" => some (decide (a < b))
  | "<=" => some (decide (a ≤ b))
  | ">" => some (decide (a > b))
  | ">=" => some (decide (a ≥ b))
  | _ => none

/-- The operations on numbers. -/
def arithOps : List String := ["+", "-", "*", "/", "&"]

/-- The comparisons of numbers. -/
def compareOps : List String := ["==", "!=", "<", "<=", ">", ">="]

/-- The assignments, plain or with an operation. -/
def setOps : List String := ["=", "+=", "-=", "*=", "/=", "&="]

/-- The operation of an assignment, which a plain one has not. -/
def compoundOp (op : String) : Option String :=
  match op with
  | "=" => none
  | "+=" => some "+"
  | "-=" => some "-"
  | "*=" => some "*"
  | "/=" => some "/"
  | "&=" => some "&"
  | op => some op

/-- The value that an assignment of `v` to a variable gives it. -/
def assigned (op name : String) (v : Int32) (vars : Vars) : Eval Int32 :=
  match compoundOp op with
  | none => .ok v
  | some op => do
    let old ← expect (vars.get? name)
    applyOp op old v

/-- The value of an expression, and the variables after it. -/
def evalExpr : Expr → Vars → Eval (Int32 × Vars)
  | .int _ value, vars => .ok (value.toInt32, vars)
  | .ident _ name, vars => do
    let v ← expect (vars.get? name)
    return (v, vars)
  | .binary _ op left right, vars => do
    let (a, vars) ← evalExpr left vars
    let (b, vars) ← evalExpr right vars
    let v ← applyOp op a b
    return (v, vars)
  | .unary _ op x, vars => do
    if op == "-" then
      let (v, vars) ← evalExpr x vars
      return (-v, vars)
    else .error .unsupported
  | .assign _ (.ident _ name) value, vars => do
    let (v, vars) ← evalExpr value vars
    return (v, vars.set name v)
  | _, _ => .error .unsupported

/-- Whether a condition holds, and the variables after it. -/
def evalCond (e : Expr) (vars : Vars) : Eval (Bool × Vars) :=
  match e with
  | .binary _ op left right =>
    if compareOps.contains op then do
      let (a, vars) ← evalExpr left vars
      let (b, vars) ← evalExpr right vars
      let c ← expect (compareOp op a b)
      return (c, vars)
    else do
      let (v, vars) ← evalExpr e vars
      return (v != 0, vars)
  | _ => do
    let (v, vars) ← evalExpr e vars
    return (v != 0, vars)

/-- Runs a body as long as a test holds, at most `n` times. -/
def iterate (test : Vars → Eval (Bool × Vars)) (body : Vars → Eval Vars) : Nat → Vars → Eval Vars
  | 0, _ => .error .timeout
  | n + 1, vars => do
    let (c, vars) ← test vars
    if c then
      let vars ← body vars
      iterate test body n vars
    else return vars

/-- The step of a counting loop, a literal. -/
def literalStep : Option Expr → Option Int64
  | none => some 1
  | some (.int _ k) => some k
  | some (.unary _ op (.int _ k)) => if op == "-" then some (-k) else none
  | _ => none

/-- The test of a counting loop. One with a negative step counts down. -/
def countTest (var : String) (limit k : Int32) (vars : Vars) : Eval (Bool × Vars) := do
  let i ← expect (vars.get? var)
  return (if k < 0 then decide (i > limit) else decide (i < limit), vars)

/-- What a counting loop does after its body. -/
def countAdvance (var : String) (k : Int32) (vars : Vars) : Eval Vars := do
  let i ← expect (vars.get? var)
  return vars.set var (i + k)

mutual

/-- The variables after a statement. -/
def evalStmt (n : Nat) : Stmt → Vars → Eval Vars
  | .block body, vars => evalBlock n body vars
  | .var _ name _ (some e), vars => do
    let (v, vars) ← evalExpr e vars
    return vars.declare name v
  | .set _ name op e, vars => do
    let (v, vars) ← evalExpr e vars
    let v ← assigned op name v vars
    return vars.set name v
  | .expr _ e, vars => do
    let (_, vars) ← evalExpr e vars
    return vars
  | .cond _ arms otherwise, vars => evalArms n (evalOptional n otherwise) arms vars
  | .while _ cond body, vars => iterate (evalCond cond) (evalOptional n body) n vars
  | .for _ var start stop step body, vars => do
    let (first, vars) ← evalExpr start vars
    let (limit, vars) ← evalExpr stop ([(var, first)] :: vars)
    let k ← expect (literalStep step)
    let vars ← iterate (countTest var limit k.toInt32) (fun vars => do
        let vars ← evalOptional n body vars
        countAdvance var k.toInt32 vars) n vars
    return vars.drop 1
  | .return _ (some e), vars => do
    let (v, _) ← evalExpr e vars
    .error (.returned v)
  | _, _ => .error .unsupported

/-- The variables after a block, whose own variables are gone. -/
def evalBlock (n : Nat) : Block → Vars → Eval Vars
  | .mk _ stmts, vars => do
    let vars ← evalStmts n stmts ([] :: vars)
    return vars.drop 1

/-- The variables after a block that may be missing. -/
def evalOptional (n : Nat) : Option Block → Vars → Eval Vars
  | some body, vars => evalBlock n body vars
  | none, vars => .ok vars

/-- The variables after statements. -/
def evalStmts (n : Nat) : List Stmt → Vars → Eval Vars
  | [], vars => .ok vars
  | s :: rest, vars => do
    let vars ← evalStmt n s vars
    evalStmts n rest vars

/-- The variables after the first arm whose condition holds, or else after what follows the arms. -/
def evalArms (n : Nat) (otherwise : Vars → Eval Vars) : List Arm → Vars → Eval Vars
  | [], vars => otherwise vars
  | .mk cond body :: rest, vars => do
    let (c, vars) ← evalCond cond vars
    if c then evalOptional n body vars else evalArms n otherwise rest vars

end

/-- The variables of a function that has been called with some arguments. -/
def arguments (params : List Param) (args : List Int32) : Vars :=
  [((params.map (·.name)).zip args).reverse]

/-- A function returns a value: a return statement is reached, or the end. -/
def Returns (params : List Param) (body : Block) (args : List Int32) (v : Int32) : Prop :=
  ∃ n, evalBlock n body (arguments params args) = .error (.returned v) ∨
    ∃ vars, evalBlock n body (arguments params args) = .ok vars ∧ v = 0

/-- A function comes to a division that faults. -/
def Faults (params : List Param) (body : Block) (args : List Int32) : Prop :=
  ∃ n, evalBlock n body (arguments params args) = .error .fault

/-! ## The language -/

/-- Whether a literal is a number of 32 bits that has a negative. -/
def isSmall (value : Int64) : Bool := decide (-2147483647 ≤ value) && decide (value ≤ 2147483647)

/-- Whether an expression computes a number from literals and variables. -/
def Expr.isArith (vis : List String) : Expr → Bool
  | .int _ value => isSmall value
  | .ident _ name => vis.contains name
  | .binary _ op left right => arithOps.contains op && left.isArith vis && right.isArith vis
  | .unary _ op x => op == "-" && x.isArith vis
  | .assign _ (.ident _ name) value => vis.contains name && value.isArith vis
  | _ => false

/-- Whether an expression is a number or a comparison of two. -/
def Expr.isCondition (vis : List String) (e : Expr) : Bool :=
  match e with
  | .binary _ op left right =>
    if compareOps.contains op then left.isArith vis && right.isArith vis else e.isArith vis
  | _ => e.isArith vis

/-- Whether a type is `int`. -/
def TypeRef.isInt (t : TypeRef) : Bool := (t.name == "int" || t.name == "i32") && t.stars == 0

/-- Whether the step of a counting loop is a literal other than zero. -/
def isStep (step : Option Expr) : Bool :=
  match literalStep step with
  | some k => isSmall k && k != 0
  | none => false

/-- The names that can be seen after a statement. -/
def Stmt.declares (vis : List String) : Stmt → List String
  | .var _ name _ _ => name :: vis
  | _ => vis

mutual

/-- Whether a statement belongs to the language. -/
def Stmt.isStructured (vis : List String) : Stmt → Bool
  | .block body => body.isStructured vis
  | .var _ _ ref (some e) => (ref.isMissing || ref.isInt) && e.isArith vis
  | .set _ name op e => vis.contains name && setOps.contains op && e.isArith vis
  | .expr _ e => e.isArith vis
  | .cond _ arms otherwise => armsStructured vis arms && optionStructured vis otherwise
  | .while _ cond body => cond.isCondition vis && optionStructured vis body
  | .for _ var start stop step body =>
    start.isArith vis && stop.isArith (var :: vis) && isStep step && optionStructured (var :: vis) body
  | .return _ (some e) => e.isArith vis
  | _ => false

/-- Whether a block belongs to the language. -/
def Block.isStructured (vis : List String) : Block → Bool
  | .mk _ stmts => stmtsStructured vis stmts

/-- Whether a block that may be missing belongs to the language. -/
def optionStructured (vis : List String) : Option Block → Bool
  | some body => body.isStructured vis
  | none => true

/-- Whether statements belong to the language. -/
def stmtsStructured (vis : List String) : List Stmt → Bool
  | [] => true
  | s :: rest => s.isStructured vis && stmtsStructured (s.declares vis) rest

/-- Whether the arms of a conditional belong to the language. -/
def armsStructured (vis : List String) : List Arm → Bool
  | [] => true
  | .mk cond body :: rest =>
    cond.isCondition vis && optionStructured vis body && armsStructured vis rest

end

/-- Whether a function belongs to the language. -/
def isStructuredFunction (params : List Param) (ret : TypeRef) (body : Block) : Bool :=
  params.all (·.type.isInt) && ret.isInt && body.isStructured (params.map (·.name))

end TreeAsm.Program
