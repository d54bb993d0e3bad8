import TreeAsm.Position

/-!
# Syntax trees

A program is a list of declarations; a function's body is a block of statements. Every node knows
where it stands in the source.
-/

namespace TreeAsm.Program

/-- A type as it is written: a name and how many stars follow it. -/
structure TypeRef where
  name : String
  stars : Nat
  deriving DecidableEq, Repr, Inhabited

/-- The reference that stands for no type at all. -/
def TypeRef.missing : TypeRef := ⟨"", 0⟩

/-- Whether nothing is written. -/
def TypeRef.isMissing (t : TypeRef) : Bool := t.name == "" && t.stars == 0

/-- A parameter of a function. -/
structure Param where
  name : String
  type : TypeRef
  deriving DecidableEq, Repr, Inhabited

/-- A field of a struct. -/
structure FieldDecl where
  pos : Position
  name : String
  type : TypeRef
  isPublic : Bool
  deriving DecidableEq, Repr, Inhabited

/-- Expressions. -/
inductive Expr where
  | int (pos : Position) (value : Int64)
  | str (pos : Position) (value : String)
  | ident (pos : Position) (name : String)
  | binary (pos : Position) (op : String) (left right : Expr)
  | unary (pos : Position) (op : String) (x : Expr)
  | call (pos : Position) (callee : String) (args : List Expr)
  | assign (pos : Position) (target value : Expr)
  | index (pos : Position) (x index : Expr)
  /-- A field of a struct, or through `indirect` access of the struct that a pointer points to. -/
  | field (pos : Position) (x : Expr) (name : String) (indirect : Bool)
  | cast (pos : Position) (type : TypeRef) (x : Expr)
  | syscall (pos : Position) (number : Expr) (args : List Expr)
  /-- A call of an outside symbol with an explicit return type. -/
  | foreign (pos : Position) (callee : String) (ret : TypeRef) (args : List Expr)
  deriving Inhabited

mutual

/-- Statements and declarations. -/
inductive Stmt where
  | block (body : Block)
  | space (pos : Position) (name : String) (body : List Stmt)
  | func (pos : Position) (name : String) (isPublic : Bool) (params : List Param) (ret : TypeRef)
      (body : Option Block)
  /-- An outside function, or an outside variable of type `ret` if `isVar`. -/
  | outside (pos : Position) (name : String) (isVar : Bool) (params : List Param) (ret : TypeRef)
  | struct (pos : Position) (name : String) (isPublic packed : Bool) (fields : List FieldDecl)
  | var (pos : Position) (name : String) (type : TypeRef) (init : Option Expr)
  | set (pos : Position) (name op : String) (value : Expr)
  | cond (pos : Position) (arms : List Arm) (otherwise : Option Block)
  | while (pos : Position) (cond : Expr) (body : Option Block)
  | for (pos : Position) (var : String) (start stop : Expr) (step : Option Expr) (body : Option Block)
  | call (pos : Position) (callee : String) (args : List Expr)
  | expr (pos : Position) (x : Expr)
  | return (pos : Position) (value : Option Expr)

/-- A list of statements with its own scope. -/
inductive Block where
  | mk (pos : Position) (stmts : List Stmt)

/-- A condition and what is done if it holds. -/
inductive Arm where
  | mk (cond : Expr) (body : Option Block)

end

instance : Inhabited Stmt := ⟨.return default none⟩
instance : Inhabited Block := ⟨.mk default []⟩
instance : Inhabited Arm := ⟨.mk default none⟩

/-- A program with the name of its file. -/
structure File where
  name : String
  stmts : List Stmt

/-- Where a block stands. -/
def Block.pos : Block → Position
  | mk p _ => p

/-- The statements of a block. -/
def Block.stmts : Block → List Stmt
  | mk _ ss => ss

/-- Where an expression stands. -/
def Expr.pos : Expr → Position
  | int p _ | str p _ | ident p _ | binary p .. | unary p .. | call p .. | assign p .. | index p ..
  | field p .. | cast p .. | syscall p .. | foreign p .. => p

/-- Where a statement stands. -/
def Stmt.pos : Stmt → Position
  | block b => b.pos
  | space p .. | func p .. | outside p .. | struct p .. | var p .. | set p .. | cond p ..
  | .while p .. | .for p .. | call p .. | expr p .. | .return p .. => p

/-- What messages call a kind of expression. -/
def Expr.kind : Expr → String
  | int .. => "*ast.Int"
  | str .. => "*ast.Str"
  | ident .. => "*ast.Ident"
  | binary .. => "*ast.Binary"
  | unary .. => "*ast.Unary"
  | call .. => "*ast.Call"
  | assign .. => "*ast.Assign"
  | index .. => "*ast.Index"
  | field .. => "*ast.Field"
  | cast .. => "*ast.Cast"
  | syscall .. => "*ast.Syscall"
  | foreign .. => "*ast.Foreign"

/-- What messages call a kind of statement. -/
def Stmt.kind : Stmt → String
  | block _ => "*ast.Block"
  | space .. => "*ast.Namespace"
  | func .. => "*ast.FuncDecl"
  | outside .. => "*ast.Extern"
  | struct .. => "*ast.StructDecl"
  | var .. => "*ast.VarDecl"
  | set .. => "*ast.Reassign"
  | cond .. => "*ast.If"
  | .while .. => "*ast.While"
  | .for .. => "*ast.For"
  | call .. => "*ast.CallStmt"
  | expr .. => "*ast.ExprStmt"
  | .return .. => "*ast.Return"

end TreeAsm.Program
