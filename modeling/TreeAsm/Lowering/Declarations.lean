import TreeAsm.Lowering.Types

/-!
# Declarations of a program

Before any function body is lowered the declarations are collected: first the names of structs, so
that types can be resolved, then fields, signatures and global variables, then the layouts of
structs, each after those of the structs it holds.
-/

namespace TreeAsm.Lowering

open Ir
open Program (FieldDecl Param Stmt TypeRef)

mutual

/-- Adds the structs that a statement declares, without their fields. -/
def addStructs (ns : String) (m : Module) : Stmt → Outcome Module
  | .space _ name body => (addAllStructs (qualify ns name) m body).within s!"namespace {name}"
  | .struct _ name isPublic packed _ => m.addStruct ⟨qualify ns name, isPublic, packed, [], none⟩
  | _ => .ok m

/-- Adds the structs that statements declare, without their fields. -/
def addAllStructs (ns : String) (m : Module) : List Stmt → Outcome Module
  | [] => .ok m
  | s :: rest => do
    let m ← addStructs ns m s
    addAllStructs ns m rest

end

/-- A type that a value can have. -/
def valueType (u : Universe) (m : Module) (ns : String) (ref : TypeRef) : Outcome Ty := do
  let t ← resolveType u m ns ref
  checkValueType u t
  return t

/-- The fields of a struct. -/
def structFields (u : Universe) (m : Module) (ns struct : String) (decls : List FieldDecl) :
    Outcome (List Field) :=
  decls.mapM fun d => do
    let t ← (valueType u m ns d.type).within s!"struct {struct}: field {d.name}"
    return ⟨d.name, t, d.isPublic⟩

/-- The parameters of a function, where the first has the number `n`. -/
def paramLocals (u : Universe) (m : Module) (ns : String) (n : Nat) :
    List Param → Outcome (List Local)
  | [] => .ok []
  | p :: rest => do
    let t ← (valueType u m ns p.type).within s!"param {p.name}"
    let vs ← paramLocals u m ns (n + 1) rest
    return ⟨n, p.name, t, true⟩ :: vs

/-- A function with a signature and nothing else. -/
def signature (u : Universe) (m : Module) (ns name : String) (params : List Param) (ret : TypeRef) :
    Outcome Func := do
  let t ← (resolveType u m ns ret).within "return type"
  let locals ← paramLocals u m ns 0 params
  return ⟨name, t, false, false, locals, [], []⟩

/-- The constant that initialises a global variable. -/
def constantInit (m : Module) : Program.Expr → Outcome (Operand × Module)
  | .int _ value => .ok (.int value .untyped, m)
  | .unary _ op (.int _ value) =>
    if op == "-" then .ok (.int (-value) .untyped, m) else .fail .initializerNotConstant
  | .str _ value =>
    let (s, m) := m.intern value (.ptr .byte)
    .ok (.str s, m)
  | _ => .fail .initializerNotConstant

/-- The type of a global variable without a written one. -/
def inferredGlobalType : Option Operand → Ty
  | some (.str _) => .ptr .byte
  | _ => .int

/-- Gives an initial value the type of its variable, if it is a number. -/
def retypeInit (t : Ty) : Operand → Operand
  | .int value _ => .int value t
  | x => x

/-- The type that is written for a global variable, if any is. -/
def writtenGlobalType (u : Universe) (m : Module) (ns : String) (ref : TypeRef) : Outcome Ty :=
  if ref.isMissing then .ok .untyped else resolveType u m ns ref

/-- The initial value of a global variable, if it has one. -/
def globalInit (m : Module) : Option Program.Expr → Outcome (Option Operand × Module)
  | none => .ok (none, m)
  | some e => do
    let (x, m) ← constantInit m e
    return (some x, m)

/-- Adds a global variable. -/
def declareGlobal (u : Universe) (m : Module) (ns name : String) (ref : TypeRef)
    (init : Option Program.Expr) : Outcome Module := do
  let written ← writtenGlobalType u m ns ref
  let (value, m) ← globalInit m init
  let t := if written ≠ .untyped then written else inferredGlobalType value
  checkValueType u t
  m.addGlobal ⟨qualify ns name, t, value.map (retypeInit t), false⟩

/-- A function whose body is to be lowered, and where it is declared. -/
structure Pending where
  name : String
  ns : String
  pos : Position
  body : Program.Block

/-- The declarations found so far: the module and the bodies, in order. -/
structure Declared where
  module : Module
  bodies : List Pending

mutual

/-- Adds what a statement at top level declares. -/
def declare (u : Universe) (ns : String) (d : Declared) : Stmt → Outcome Declared
  | .space _ name body => (declareAll u (qualify ns name) d body).within s!"namespace {name}"
  | .struct _ name _ _ fields => do
    let name := qualify ns name
    let fs ← structFields u d.module ns name fields
    return { d with module := d.module.setFields name fs }
  | .func pos name isPublic params ret body => do
    let f ← (signature u d.module ns (qualify ns name) params ret).within s!"func {name}"
    let m ← d.module.addFunc { f with isPublic := isPublic, external := body.isNone }
    match body with
    | none => return { d with module := m }
    | some b => return ⟨m, d.bodies ++ [⟨f.name, ns, pos, b⟩]⟩
  | .outside _ name isVar params ret =>
    if isVar then do
      let t ← (resolveType u d.module ns ret).within s!"extern {name}"
      let m ← d.module.addGlobal ⟨name, t, none, true⟩
      return { d with module := m }
    else do
      let f ← (signature u d.module ns name params ret).within s!"extern {name}"
      let m ← d.module.addFunc { f with external := true }
      return { d with module := m }
  | .var _ name type init => do
    let m ← (declareGlobal u d.module ns name type init).within s!"var {name}"
    return { d with module := m }
  | s => .fail (.notAtTopLevel s.pos s.kind)

/-- Adds what statements at top level declare. -/
def declareAll (u : Universe) (ns : String) (d : Declared) : List Stmt → Outcome Declared
  | [] => .ok d
  | s :: rest => do
    let d ← declare u ns d s
    declareAll u ns d rest

end

/-- The structs, some of which are laid out, and the types so far. -/
structure LayoutState where
  module : Module
  types : Universe

/-- Lays out a struct after those that it holds. `path` are the structs that wait for this one; a
struct among them would hold itself. The fuel counts how many more may wait. -/
def layoutStruct : (fuel : Nat) → (path : List String) → LayoutState → (name : String) →
    Outcome LayoutState
  | fuel, path, st, name =>
    match st.module.struct? name with
    | none => .crash
    | some s =>
      if s.layout?.isSome then .ok st
      else if path.contains name then .fail (.recursiveLayout name)
      else match fuel with
        | 0 => .crash
        | fuel + 1 => do
          let st ← s.fields.foldlM (fun st f =>
            if !f.type.isRecord then .ok st
            else if (st.module.struct? f.type.name).isNone then
              .fail (.unknownFieldStruct name f.name f.type.name)
            else (layoutStruct fuel (name :: path) st f.type.name).within s!"struct {name}") st
          let l ← (Layout.compute st.types s.fields s.packed).within s!"struct {name}"
          return ⟨st.module.setLayout name l, st.types.setLayout name l.size l.align⟩

/-- Lays out all structs of a module. -/
def layoutAll (u : Universe) (m : Module) : Outcome LayoutState :=
  m.structs.foldlM (fun st s => layoutStruct m.structs.length [] st s.name) ⟨m, u⟩

end TreeAsm.Lowering
