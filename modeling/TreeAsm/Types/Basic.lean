import TreeAsm.Failure

/-!
# Types

A type is a scalar, a pointer or a record. Types are kept as descriptions: two types are the same
type exactly if they are equal terms. What a description amounts to (its size, its alignment)
depends on the universe of a compilation, which fixes the width of pointers, the form of strings and
the layout of each record.
-/

namespace TreeAsm

/-- The properties of a type that is described field by field. -/
structure Ty.Spec where
  name : String
  bits : Int64
  signed : Bool
  align : Int64
  deriving DecidableEq, Repr, Inhabited

/-- A type, or the lack of one. -/
inductive Ty where
  /-- No type: what a symbol or a label has. -/
  | untyped
  | void
  | byte
  | u16
  | int
  | u64
  | long
  | bool
  /-- A string that carries its length. -/
  | string
  | ptr (elem : Ty)
  | record (name : String)
  /-- A type described by hand; two of them are the same only if their numbers are. The element is
  `untyped` unless it is a pointer. -/
  | custom (id : Nat) (spec : Ty.Spec) (elem : Ty)
  deriving DecidableEq, Repr, Inhabited

/-- The size and alignment of a record. -/
structure RecordShape where
  name : String
  bits : Int64
  align : Int64
  deriving DecidableEq, Repr

/-- What the types of a compilation amount to. -/
structure Universe where
  ptrBits : Int64
  fatStrings : Bool
  /-- The records that have been laid out, the latest first. -/
  shapes : List RecordShape
  deriving DecidableEq, Repr

namespace Universe

/-- A universe without any record laid out. -/
def make (ptrBits : Int64) (fatStrings : Bool) : Universe := ⟨ptrBits, fatStrings, []⟩

/-- The shape of a record; one that has not been laid out has none. -/
def shape? (u : Universe) (name : String) : Option RecordShape :=
  u.shapes.find? fun s => s.name == name

/-- Gives a record its size in bytes and its alignment. -/
def setLayout (u : Universe) (name : String) (size align : Int64) : Universe :=
  { u with shapes := ⟨name, size * 8, align⟩ :: u.shapes.filter fun s => s.name != name }

/-- The type of string values. -/
def stringType (u : Universe) : Ty := if u.fatStrings then .string else .ptr .byte

/-- The built-in type of a name. -/
def named? (u : Universe) : String → Option Ty
  | "void" => some .void
  | "byte" | "u8" | "char" => some .byte
  | "u16" => some .u16
  | "int" | "i32" => some .int
  | "u64" | "uint" => some .u64
  | "long" | "i64" => some .long
  | "bool" => some .bool
  | "string" | "str" => some u.stringType
  | _ => none

/-- The width of a type's values in bits. -/
def bits (u : Universe) : Ty → Int64
  | .untyped | .void => 0
  | .byte | .bool => 8
  | .u16 => 16
  | .int => 32
  | .u64 | .long => 64
  | .string => 64 + u.ptrBits
  | .ptr _ => u.ptrBits
  | .record name => ((u.shape? name).map (·.bits)).getD 0
  | .custom _ spec _ => spec.bits

/-- The alignment of a type's values in bytes. -/
def align (u : Universe) : Ty → Int64
  | .untyped => 0
  | .void | .byte | .bool => 1
  | .u16 => 2
  | .int => 4
  | .u64 | .long => 8
  | .string | .ptr _ => u.ptrBits / 8
  | .record name => ((u.shape? name).map (·.align)).getD 0
  | .custom _ spec _ => spec.align

/-- The size of a type's values in whole bytes. -/
def size (u : Universe) (t : Ty) : Int64 := u.bits t / 8

end Universe

namespace Ty

/-- Whether a type's values have a sign. -/
def signed : Ty → Bool
  | int | long => true
  | custom _ spec _ => spec.signed
  | _ => false

/-- The name of a type, empty for those that are known by their width. -/
def name : Ty → String
  | void => "void"
  | bool => "bool"
  | string => "string"
  | record n => n
  | custom _ spec _ => spec.name
  | _ => ""

/-- What a pointer points to; `untyped` for a type that is no pointer. -/
def elem : Ty → Ty
  | ptr e => e
  | custom _ _ e => e
  | _ => untyped

/-- Whether a type points to something. -/
def isPtr (t : Ty) : Bool := t.elem != untyped

/-- Whether a type is a record. -/
def isRecord (t : Ty) : Bool :=
  !t.isPtr && t.name != "" && t.name != "void" && t.name != "bool" && t.name != "string"

/-- The type of pointers through `n` levels to values of a type. -/
def ptrs : (n : Nat) → Ty → Ty
  | 0, t => t
  | n + 1, t => ptrs n (ptr t)

end Ty

namespace Universe

/-- Whether a type has no values. A missing type has none either. -/
def isVoid (u : Universe) (t : Ty) : Bool :=
  t == .untyped || u.bits t == 0 && !t.isPtr && t.name == "void"

/-- The name of a scalar that is known by its width and sign. -/
def scalarName (bits : Int64) (signed : Bool) : String :=
  if bits == 8 && !signed then "byte"
  else if bits == 32 && signed then "int"
  else if bits == 64 && signed then "long"
  else if signed then s!"i{bits}"
  else s!"u{bits}"

/-- The name of a type that is no pointer. -/
def plainName (u : Universe) (t : Ty) : String :=
  if t.name != "" then t.name else scalarName (u.bits t) t.signed

/-- How a type is written. -/
def render (u : Universe) : Ty → String
  | .untyped => "<nil>"
  | .ptr e => if e = .untyped then u.plainName (.ptr e) else u.render e ++ "*"
  | .custom id spec e =>
    if e = .untyped then u.plainName (.custom id spec e) else u.render e ++ "*"
  | t => u.plainName t

/-- Whether two types agree in name, width, sign and alignment. -/
def alike (u : Universe) (a b : Ty) : Bool :=
  u.bits a == u.bits b && a.signed == b.signed && u.align a == u.align b && a.name == b.name

/-- Whether two types have the same structure, through all levels of pointers. A missing type is
like itself only. -/
def equal (u : Universe) (a b : Ty) : Bool :=
  a == b || a != .untyped && b != .untyped && u.alike a b &&
    match a with
    | .ptr e =>
      if e = .untyped then !b.isPtr else b.isPtr && u.equal e b.elem
    | .custom _ _ e =>
      if e = .untyped then !b.isPtr else b.isPtr && u.equal e b.elem
    | _ => !b.isPtr

end Universe

end TreeAsm
