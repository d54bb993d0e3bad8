/-!
# Texts of bytes

How bytes that need not be UTF-8 are read as a text, and the bytes that base 64 stands for.
-/

namespace TreeAsm.Text

/-- The character that the first bytes of a list encode, and how many they are. -/
def firstChar? (bytes : List UInt8) : Option (Char × Nat) :=
  [1, 2, 3, 4].findSome? fun n =>
    match String.fromUTF8? ⟨(bytes.take n).toArray⟩ with
    | some s => match s.toList with
      | [c] => some (c, n)
      | _ => none
    | none => none

/-- Reads at most `fuel` characters. -/
def charsOfBytes : (fuel : Nat) → List UInt8 → List Char
  | 0, _ => []
  | _, [] => []
  | fuel + 1, b :: bytes =>
    match firstChar? (b :: bytes) with
    | some (c, n) => c :: charsOfBytes fuel ((b :: bytes).drop n)
    | none => '�' :: charsOfBytes fuel bytes

/-- The text of a list of bytes. A byte that is not part of a character counts as one that stands
for an error. -/
def ofBytes (bytes : List UInt8) : String := String.ofList (charsOfBytes bytes.length bytes)

/-- The first bytes of a text. -/
def takeBytes (n : Nat) (text : String) : String := ofBytes (text.toUTF8.toList.take n)

/-- The value of a digit of base 64. -/
def base64Digit? (c : Char) : Option Nat :=
  if 'A' ≤ c && c ≤ 'Z' then some (c.toNat - 'A'.toNat)
  else if 'a' ≤ c && c ≤ 'z' then some (c.toNat - 'a'.toNat + 26)
  else if '0' ≤ c && c ≤ '9' then some (c.toNat - '0'.toNat + 52)
  else if c == '+' then some 62
  else if c == '/' then some 63
  else none

/-- The bytes of groups of four digits; the last group may be padded. -/
def base64Groups : List Char → Option (List UInt8)
  | [] => some []
  | [a, b, '=', '='] => do
    let x := (← base64Digit? a) * 64 + (← base64Digit? b)
    return [UInt8.ofNat (x / 16)]
  | [a, b, c, '='] => do
    let x := ((← base64Digit? a) * 64 + (← base64Digit? b)) * 64 + (← base64Digit? c)
    return [UInt8.ofNat (x / 1024), UInt8.ofNat (x / 4)]
  | a :: b :: c :: d :: rest => do
    let x := (((← base64Digit? a) * 64 + (← base64Digit? b)) * 64 + (← base64Digit? c)) * 64
      + (← base64Digit? d)
    let bytes ← base64Groups rest
    return UInt8.ofNat (x / 65536) :: UInt8.ofNat (x / 256) :: UInt8.ofNat x :: bytes
  | _ => none

/-- The text whose bytes are written in base 64, where line breaks count for nothing. -/
def ofBase64? (text : String) : Option String :=
  (base64Groups (text.toList.filter fun c => c != '\n' && c != '\r')).map ofBytes

end TreeAsm.Text
