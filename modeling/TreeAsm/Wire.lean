import TreeAsm.Asm.Register
import TreeAsm.BitSet
import TreeAsm.Ir.Func

/-!
# Values in log records

The binary form of types, registers, operands and sets: a tag byte with three bits of kind and five
bits of a length or number, which is continued in further bytes if it does not fit.
-/

namespace TreeAsm.Wire

/-- The last `n` bytes of a number, the highest first. -/
def bigEndian : (n : Nat) → Nat → List UInt8
  | 0, _ => []
  | n + 1, x => UInt8.ofNat (x / Nat.pow 256 n % 256) :: bigEndian n x

/-- A tag of a kind with a number. -/
def tag (kind : Nat) (x : Nat) : List UInt8 :=
  let head (small : Nat) : UInt8 := UInt8.ofNat (kind * 32 + small)
  if x < 24 then [head x]
  else if x < 256 then head 24 :: bigEndian 1 x
  else if x < 65536 then head 25 :: bigEndian 2 x
  else if x < 4294967296 then head 26 :: bigEndian 4 x
  else head 27 :: bigEndian 8 x

/-- Nothing. -/
def nil : List UInt8 := [0xf6]

/-- A natural number. -/
def number (n : Nat) : List UInt8 := tag 0 n

/-- A text. -/
def text (s : String) : List UInt8 :=
  let bytes := s.toUTF8.toList
  tag 3 bytes.length ++ bytes

/-- A type, by how it is written. -/
def type (u : Universe) (t : Ty) : List UInt8 := if t = .untyped then nil else text (u.render t)

/-- A register, by its name. -/
def register : Option Asm.Reg → List UInt8
  | none => nil
  | some r => text r.render

/-- An operand, by how it is written. -/
def operand (x : Ir.Operand) : List UInt8 := text x.render

/-- A set: its members between the start and the end of a list of unknown length. -/
def set (s : BitSet) : List UInt8 := 0x9f :: s.toList.flatMap number ++ [0xff]

end TreeAsm.Wire
