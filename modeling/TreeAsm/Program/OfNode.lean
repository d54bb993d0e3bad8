import TreeAsm.Failure
import TreeAsm.Program.Basic
import TreeAsm.Yaml.Document

/-!
# Reading a syntax tree from a document

A program is a sequence of statements, each a mapping that is known by the first of its keys that
names a kind of statement; the other keys give its parts. Expressions are scalars, or mappings of
the same form. Of several entries with one key the first counts, and unknown keys are ignored.
-/

namespace TreeAsm.Program

open Yaml (Node)

/-- Splits the stars off the end of a type's text. -/
def TypeRef.ofText (text : String) : TypeRef :=
  let stars := (text.toList.reverse.takeWhile (· == '*')).length
  ⟨String.ofList (text.toList.take (text.length - stars)), stars⟩

/-- The type that a node stands for; nothing for a missing node. -/
def TypeRef.ofNode? : Option Node → TypeRef
  | none => TypeRef.missing
  | some n => TypeRef.ofText n.text

/-- The text of a node, empty for a missing one. -/
def textOf : Option Node → String
  | none => ""
  | some n => n.text

/-- Whether a node reads `true`. -/
def flagOf (n : Option Node) : Bool := textOf n == "true"

/-- The nodes in a node: the items of a sequence, the keys and values of a mapping in turn. -/
def contentOf : Node → List Node
  | .sequence _ _ items => items
  | .mapping _ _ entries => entries.flatMap fun e => [e.1, e.2]
  | _ => []

/-- The value of the first entry whose key reads `key`. -/
def valueAt (key : String) (entries : List (Node × Node)) : Option Node :=
  (entries.find? fun e => e.1.text == key).map (·.2)

/-- The kinds of mappings that are expressions. -/
inductive ExprKind where
  | str | binary | unary | call | assign | index | field | cast | syscall | foreign
  deriving DecidableEq, Repr

/-- The kind of expression that a key stands for. -/
def ExprKind.ofKey? : String → Option ExprKind
  | "str" => some str
  | "op" => some binary
  | "unary" => some unary
  | "call" => some call
  | "assign" => some assign
  | "index" => some index
  | "field" => some field
  | "cast" => some cast
  | "syscall" => some syscall
  | "foreign" => some foreign
  | _ => none

/-- The kinds of statements. -/
inductive StmtKind where
  | space | func | outside | struct | var | set | cond | while | for | call | return | expr
  deriving DecidableEq, Repr

/-- The kind of statement that a key stands for. -/
def StmtKind.ofKey? : String → Option StmtKind
  | "namespace" => some space
  | "func" => some func
  | "extern" => some outside
  | "struct" => some struct
  | "var" => some var
  | "set" => some set
  | "if" => some cond
  | "while" => some .while
  | "for" => some .for
  | "call" => some call
  | "return" => some .return
  | "expr" => some expr
  | _ => none

/-- The expression that a scalar stands for: an integer, a truth value as an integer, or a name. -/
def Expr.ofScalar (file : String) (pos : Position) (tag value : String) : Outcome Expr :=
  if tag == "!!int" then
    match Text.Integer.read none value with
    | .ok v => .ok (.int pos (Int64.ofInt v))
    | .error fault => .fail (.source file pos (.badInteger value fault))
  else if tag == "!!bool" then
    .ok (.int pos (if value == "true" then 1 else 0))
  else if tag == "!!str" && value != "" then
    .ok (.ident pos value)
  else
    .fail (.source file pos (.unexpectedScalar value))

mutual

/-- The expression that a node stands for. -/
def Expr.ofNode (file : String) : Node → Outcome Expr
  | .scalar pos tag value => Expr.ofScalar file pos tag value
  | .mapping pos _ entries =>
    match entries.findSome? fun e => ExprKind.ofKey? e.1.text with
    | some .str => .ok (.str pos (textOf (valueAt "str" entries)))
    | some .binary => do
      let left ← Expr.ofEntry file "l" entries
      let right ← Expr.ofEntry file "r" entries
      return .binary pos (textOf (valueAt "op" entries)) left right
    | some .unary => do
      let x ← Expr.ofEntry file "x" entries
      return .unary pos (textOf (valueAt "unary" entries)) x
    | some .call => do
      let args ← Expr.listOfEntry file "args" entries
      return .call pos (textOf (valueAt "call" entries)) args
    | some .assign => do
      let target ← Expr.ofEntry file "assign" entries
      let value ← Expr.ofEntry file "value" entries
      return .assign pos target value
    | some .index => do
      let x ← Expr.ofEntry file "index" entries
      let index ← Expr.ofEntry file "at" entries
      return .index pos x index
    | some .field => do
      let x ← Expr.ofEntry file "of" entries
      return .field pos x (textOf (valueAt "field" entries)) (flagOf (valueAt "ptr" entries))
    | some .cast => do
      let x ← Expr.ofEntry file "x" entries
      return .cast pos (TypeRef.ofNode? (valueAt "cast" entries)) x
    | some .syscall => do
      let number ← Expr.ofEntry file "syscall" entries
      let args ← Expr.listOfEntry file "args" entries
      return .syscall pos number args
    | some .foreign => do
      let args ← Expr.listOfEntry file "args" entries
      return .foreign pos (textOf (valueAt "foreign" entries))
        (TypeRef.ofNode? (valueAt "ret" entries)) args
    | none => .fail (.source file pos .unknownExpression)
  | .sequence pos _ _ => .fail (.source file pos .expressionExpected)
  | .link pos _ _ _ => .fail (.source file pos .expressionExpected)

/-- The expression at a key, which must be there. -/
def Expr.ofEntry (file key : String) : List (Node × Node) → Outcome Expr
  | [] => .fail (.missingExpression file)
  | (k, v) :: rest => if k.text == key then Expr.ofNode file v else Expr.ofEntry file key rest

/-- The expressions in the node at a key; none if the key is missing. -/
def Expr.listOfEntry (file key : String) : List (Node × Node) → Outcome (List Expr)
  | [] => .ok []
  | (k, v) :: rest =>
    if k.text == key then Expr.listOfNode file v else Expr.listOfEntry file key rest

/-- The expressions in a node. -/
def Expr.listOfNode (file : String) : Node → Outcome (List Expr)
  | .sequence _ _ items => Expr.ofItems file items
  | .mapping _ _ entries => Expr.ofPairs file entries
  | _ => .ok []

/-- The expressions of the items of a sequence. -/
def Expr.ofItems (file : String) : List Node → Outcome (List Expr)
  | [] => .ok []
  | n :: rest => do
    let x ← Expr.ofNode file n
    let xs ← Expr.ofItems file rest
    return x :: xs

/-- The expressions of the keys and values of a mapping, in turn. -/
def Expr.ofPairs (file : String) : List (Node × Node) → Outcome (List Expr)
  | [] => .ok []
  | (k, v) :: rest => do
    let x ← Expr.ofNode file k
    let y ← Expr.ofNode file v
    let xs ← Expr.ofPairs file rest
    return x :: y :: xs

end

/-- The expression at a key; nothing if the key is missing or its value is null. -/
def Expr.ofEntry? (file key : String) (entries : List (Node × Node)) : Outcome (Option Expr) :=
  match valueAt key entries with
  | none => .ok none
  | some n =>
    if n.isNull then .ok none
    else do return some (← Expr.ofNode file n)

/-- The parameter that a node declares. -/
def Param.ofNode (file : String) (n : Node) : Outcome Param :=
  match n with
  | .mapping _ _ entries =>
    .ok ⟨textOf (valueAt "name" entries), TypeRef.ofNode? (valueAt "type" entries)⟩
  | _ => .fail (.source file n.pos .parameterNotMapping)

/-- The parameters in a node. -/
def Param.listOfNode (file : String) (n : Option Node) : Outcome (List Param) :=
  match n with
  | none => .ok []
  | some n => (contentOf n).mapM (Param.ofNode file)

/-- The field that a node declares. -/
def FieldDecl.ofNode (n : Node) : FieldDecl :=
  ⟨n.pos, textOf (n.get? "name"), TypeRef.ofNode? (n.get? "type"), flagOf (n.get? "public")⟩

/-- The fields in a node. -/
def FieldDecl.listOfNode (n : Option Node) : List FieldDecl :=
  match n with
  | none => []
  | some n => (contentOf n).map FieldDecl.ofNode

/-- What a `set` does: plain assignment unless an operator is given. -/
def setOperator (entries : List (Node × Node)) : String :=
  let op := textOf (valueAt "op" entries)
  if op == "" then "=" else op

mutual

/-- The statement that a node stands for. -/
def Stmt.ofNode (file : String) : Node → Outcome Stmt
  | .mapping pos _ entries =>
    match entries.findSome? fun e => StmtKind.ofKey? e.1.text with
    | some .space => do
      let body ← Stmt.listOfEntry file "body" entries
      return .space pos (textOf (valueAt "namespace" entries)) body
    | some .func => do
      let params ← Param.listOfNode file (valueAt "params" entries)
      let body ← Block.ofEntry? file "body" entries
      return .func pos (textOf (valueAt "func" entries)) (flagOf (valueAt "public" entries)) params
        (TypeRef.ofNode? (valueAt "ret" entries)) body
    | some .outside => do
      let isVar := flagOf (valueAt "var" entries)
      let params ← Param.listOfNode file (valueAt "params" entries)
      return .outside pos (textOf (valueAt "extern" entries)) isVar params
        (TypeRef.ofNode? (valueAt (if isVar then "type" else "ret") entries))
    | some .struct =>
      .ok (.struct pos (textOf (valueAt "struct" entries)) (flagOf (valueAt "public" entries))
        (flagOf (valueAt "packed" entries)) (FieldDecl.listOfNode (valueAt "fields" entries)))
    | some .var => do
      let init ← Expr.ofEntry? file "init" entries
      return .var pos (textOf (valueAt "var" entries)) (TypeRef.ofNode? (valueAt "type" entries)) init
    | some .set => do
      let value ← Expr.ofEntry file "value" entries
      return .set pos (textOf (valueAt "set" entries)) (setOperator entries) value
    | some .cond => do
      let cond ← Expr.ofEntry file "if" entries
      let body ← Block.ofEntry? file "then" entries
      let arms ← Arm.listOfEntry file "elif" entries
      let otherwise ← Block.ofEntry? file "else" entries
      return .cond pos (.mk cond body :: arms) otherwise
    | some .while => do
      let cond ← Expr.ofEntry file "while" entries
      let body ← Block.ofEntry? file "body" entries
      return .while pos cond body
    | some .for => do
      let start ← Expr.ofEntry file "from" entries
      let stop ← Expr.ofEntry file "to" entries
      let step ← Expr.ofEntry? file "step" entries
      let body ← Block.ofEntry? file "body" entries
      return .for pos (textOf (valueAt "for" entries)) start stop step body
    | some .call => do
      let args ← Expr.listOfEntry file "args" entries
      return .call pos (textOf (valueAt "call" entries)) args
    | some .return => do
      let value ← Expr.ofEntry? file "return" entries
      return .return pos value
    | some .expr => do
      let x ← Expr.ofEntry file "expr" entries
      return .expr pos x
    | none => .fail (.source file pos .unknownStatement)
  | .scalar pos _ _ => .fail (.source file pos .statementNotMapping)
  | .sequence pos _ _ => .fail (.source file pos .statementNotMapping)
  | .link pos _ _ _ => .fail (.source file pos .statementNotMapping)

/-- The statements of the items of a sequence. -/
def Stmt.ofItems (file : String) : List Node → Outcome (List Stmt)
  | [] => .ok []
  | n :: rest => do
    let s ← Stmt.ofNode file n
    let ss ← Stmt.ofItems file rest
    return s :: ss

/-- The statements of a sequence; null stands for none. -/
def Stmt.listOfNode (file : String) : Node → Outcome (List Stmt)
  | .sequence _ _ items => Stmt.ofItems file items
  | .scalar pos tag _ =>
    if tag == "!!null" then .ok [] else .fail (.source file pos .statementListExpected)
  | .mapping pos _ _ => .fail (.source file pos .statementListExpected)
  | .link pos _ _ _ => .fail (.source file pos .statementListExpected)

/-- The statements at a key; none if the key is missing. -/
def Stmt.listOfEntry (file key : String) : List (Node × Node) → Outcome (List Stmt)
  | [] => .ok []
  | (k, v) :: rest =>
    if k.text == key then Stmt.listOfNode file v else Stmt.listOfEntry file key rest

/-- The block at a key; nothing if the key is missing. -/
def Block.ofEntry? (file key : String) : List (Node × Node) → Outcome (Option Block)
  | [] => .ok none
  | (k, v) :: rest =>
    if k.text == key then do return some (.mk v.pos (← Stmt.listOfNode file v))
    else Block.ofEntry? file key rest

/-- The further arms of a conditional at a key; none if the key is missing. -/
def Arm.listOfEntry (file key : String) : List (Node × Node) → Outcome (List Arm)
  | [] => .ok []
  | (k, v) :: rest =>
    if k.text == key then Arm.listOfNode file v else Arm.listOfEntry file key rest

/-- The arms in a node. -/
def Arm.listOfNode (file : String) : Node → Outcome (List Arm)
  | .sequence _ _ items => Arm.ofItems file items
  | .mapping _ _ entries => Arm.ofPairs file entries
  | _ => .ok []

/-- The arm that a node stands for. -/
def Arm.ofNode (file : String) : Node → Outcome Arm
  | .mapping _ _ entries => do
    let cond ← Expr.ofEntry file "cond" entries
    let body ← Block.ofEntry? file "then" entries
    return .mk cond body
  | _ => .fail (.missingExpression file)

/-- The arms of the items of a sequence. -/
def Arm.ofItems (file : String) : List Node → Outcome (List Arm)
  | [] => .ok []
  | n :: rest => do
    let a ← Arm.ofNode file n
    let as ← Arm.ofItems file rest
    return a :: as

/-- The arms of the keys and values of a mapping, in turn. -/
def Arm.ofPairs (file : String) : List (Node × Node) → Outcome (List Arm)
  | [] => .ok []
  | (k, v) :: rest => do
    let a ← Arm.ofNode file k
    let b ← Arm.ofNode file v
    let as ← Arm.ofPairs file rest
    return a :: b :: as

end

/-- Reads the program of a file from its text. -/
def File.ofText (name text : String) : Outcome File :=
  match Node.ofText text with
  | .error e => .error (.report ["yaml"] (.notADocument e))
  | .ok none => .ok ⟨name, []⟩
  | .ok (some n) => do return ⟨name, ← Stmt.listOfNode name n⟩

end TreeAsm.Program
