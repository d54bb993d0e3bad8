import TreeAsm.Ir.Func
import TreeAsm.Types.Layout

/-!
# Modules

A module holds the string constants, structs, global variables and functions of a program, each
kind in the order of addition and with names of its own.
-/

namespace TreeAsm.Ir

/-- A struct; its layout is computed after all structs are known. -/
structure Struct where
  name : String
  isPublic : Bool
  packed : Bool
  fields : List Field
  layout? : Option Layout
  deriving DecidableEq, Repr

namespace Struct

/-- The layout of a struct, once there is one. -/
def layout (s : Struct) : Outcome Layout :=
  match s.layout? with
  | some l => .ok l
  | none => .fail (.layoutPending s.name)

/-- The place of the first field with a name, and the field. -/
def field? (s : Struct) (name : String) : Option (Nat × Field) :=
  match s.fields.findIdx? fun f => f.name == name with
  | some i => s.fields[i]?.map fun f => (i, f)
  | none => none

/-- The offset and type of a field. -/
def fieldOffset (s : Struct) (name : String) : Outcome (Int64 × Ty) :=
  match s.field? name with
  | none => .fail (.noField s.name name)
  | some (i, f) => do
    let l ← s.layout
    match l.offsets[i]? with
    | some off => return (off, f.type)
    | none => .crash

end Struct

/-- A global variable. -/
structure Global where
  name : String
  type : Ty
  init : Option Operand
  external : Bool
  deriving DecidableEq, Repr

/-- Things in the order of addition, and a map from names to their places in that order. What has a place is
found through the map and through the list alike, also after it has changed. -/
structure Entries (α : Type) where
  items : List α
  places : String → Option Nat

namespace Entries

variable {α : Type}

/-- Adds a thing under a name: the map is written, then the list grows. -/
def push (e : Entries α) (name : String) (x : α) : Entries α where
  places n := if n == name then some e.items.length else e.places n
  items := e.items ++ [x]

/-- The map finds what the list has first under each name. -/
def InStep (key : α → String) (e : Entries α) : Prop :=
  ∀ n, e.places n = e.items.findIdx? fun x => key x == n

theorem InStep.push {key : α → String} {e : Entries α} (h : e.InStep key) {x : α}
    (hnew : e.places (key x) = none) : (e.push (key x) x).InStep key := by
  intro n
  show (if n == key x then some e.items.length else e.places n) = (e.items ++ [x]).findIdx? _
  rw [List.findIdx?_append, ← h n, List.findIdx?_singleton]
  by_cases hn : n = key x
  · simp [hn, hnew]
  · simp [hn, Ne.symm hn]

/-- Things that change but keep their names stay in their places. -/
theorem InStep.map {key : α → String} {e : Entries α} (h : e.InStep key) {f : α → α}
    (hf : ∀ x, key (f x) = key x) : InStep key { e with items := e.items.map f } := by
  intro n
  show e.places n = (e.items.map f).findIdx? _
  rw [h n, List.findIdx?_map]
  simp only [Function.comp_def, hf]

end Entries

/-- A table of things with names, whose list and map are in step. -/
structure Table (α : Type) (key : α → String) extends Entries α where
  inStep : toEntries.InStep key

namespace Table

variable {α : Type} {key : α → String}

/-- The table of some things. -/
abbrev ofList (items : List α) : Table α key :=
  ⟨⟨items, fun n => items.findIdx? fun x => key x == n⟩, fun _ => rfl⟩

/-- What has a name. -/
def find? (t : Table α key) (name : String) : Option α :=
  match t.places name with
  | some i => t.items[i]?
  | none => none

theorem find?_eq (t : Table α key) (name : String) : t.find? name = t.items.find? fun x => key x == name := by
  rw [List.find?_eq_bind_findIdx?_getElem?, ← t.inStep name, find?]
  cases t.places name <;> rfl

theorem find?_some {t : Table α key} {name : String} {x : α} (h : t.find? name = some x) :
    x ∈ t.items ∧ key x = name := by
  rw [find?_eq] at h
  exact ⟨List.mem_of_find?_eq_some h, by simpa using List.find?_some h⟩

theorem places_eq_none {t : Table α key} {name : String} (h : t.find? name = none) : t.places name = none := by
  rw [find?_eq, List.find?_eq_none] at h
  rw [t.inStep name, List.findIdx?_eq_none_iff]
  simpa using h

/-- Adds a thing whose name is new. -/
def put (t : Table α key) (x : α) (h : t.find? (key x) = none) : Table α key :=
  ⟨t.push (key x) x, t.inStep.push (places_eq_none h)⟩

/-- Adds a thing, unless its name is taken. -/
def add (t : Table α key) (x : α) (taken : Cause) : Outcome (Table α key) :=
  if h : t.find? (key x) = none then .ok (t.put x h) else .fail taken

/-- Changes things of a table without their names. -/
def modify (t : Table α key) (f : α → α) (hf : ∀ x, key (f x) = key x) : Table α key :=
  ⟨{ t.toEntries with items := t.items.map f }, t.inStep.map hf⟩

end Table

/-- A whole program. -/
structure Module where
  stringTable : Table StringConst (·.value)
  structTable : Table Struct (·.name)
  globalTable : Table Global (·.name)
  funcTable : Table Func (·.name)

namespace Module

/-- The module with nothing in it. -/
def empty : Module := ⟨.ofList [], .ofList [], .ofList [], .ofList []⟩

instance : Inhabited Module := ⟨empty⟩

abbrev strings (m : Module) : List StringConst := m.stringTable.items

abbrev structs (m : Module) : List Struct := m.structTable.items

abbrev globals (m : Module) : List Global := m.globalTable.items

abbrev funcs (m : Module) : List Func := m.funcTable.items

/-- The constant for a string in a table, to which it is added on its first use. -/
def internIn (t : Table StringConst (·.value)) (value : String) (type : Ty) :
    StringConst × Table StringConst (·.value) :=
  match h : t.find? value with
  | some s => (s, t)
  | none =>
    let s : StringConst := ⟨value, s!"str{t.items.length}", type⟩
    (s, t.put s h)

/-- The constant for a string, which is added to the module on its first use. -/
def intern (m : Module) (value : String) (type : Ty) : StringConst × Module :=
  let r := internIn m.stringTable value type
  (r.1, { m with stringTable := r.2 })

/-- The string constant with a label. -/
def stringByLabel? (m : Module) (label : String) : Option StringConst :=
  m.strings.find? fun s => s.label == label

/-- The struct with a name. -/
def struct? (m : Module) (name : String) : Option Struct := m.structTable.find? name

/-- The function with a name. -/
def func? (m : Module) (name : String) : Option Func := m.funcTable.find? name

/-- The global variable with a name. -/
def global? (m : Module) (name : String) : Option Global := m.globalTable.find? name

/-- Adds a struct with a new name. -/
def addStruct (m : Module) (s : Struct) : Outcome Module :=
  (m.structTable.add s (.structRedefined s.name)).map fun t => { m with structTable := t }

/-- Adds a function with a new name. -/
def addFunc (m : Module) (f : Func) : Outcome Module :=
  (m.funcTable.add f (.funcRedefined f.name)).map fun t => { m with funcTable := t }

/-- Adds a global variable with a new name. -/
def addGlobal (m : Module) (g : Global) : Outcome Module :=
  (m.globalTable.add g (.globalRedefined g.name)).map fun t => { m with globalTable := t }

/-- Gives the struct with a name its layout. -/
def setLayout (m : Module) (name : String) (l : Layout) : Module :=
  { m with
    structTable := m.structTable.modify
      (fun s => if s.name == name then { s with layout? := some l } else s) (by intro s; split <;> rfl) }

/-- Gives the struct with a name its fields. -/
def setFields (m : Module) (name : String) (fields : List Field) : Module :=
  { m with
    structTable := m.structTable.modify
      (fun s => if s.name == name then { s with fields := fields } else s) (by intro s; split <;> rfl) }

/-- Puts a function in the place of the one with its name. -/
def setFunc (m : Module) (f : Func) : Module :=
  { m with
    funcTable := m.funcTable.modify
      (fun g => if g.name == f.name then f else g) (by intro g; split <;> simp_all) }

end Module

end TreeAsm.Ir
