import TreeAsm.Text.Quoted

/-!
# Integer literals

Reading signed integers in a given base, or in the base a literal's own start names: `0b`, `0o` and
`0x` for bases two, eight and sixteen, a plain leading `0` for base eight, ten otherwise. Where the
base is named by the literal, underscores may separate its digits.

`read` and `readUnsigned` accept what fits sixty-four bits and tell a malformed literal from one
that is out of range.
-/

namespace TreeAsm.Text.Integer

/-- Why a text is no integer. -/
inductive Fault where
  /-- Some character is no digit of the base, or there is no digit at all. -/
  | malformed
  /-- The digits are fine and the number does not fit. -/
  | outOfRange
  deriving DecidableEq, Repr

/-- The wording of a fault. -/
def Fault.message : Fault → String
  | .malformed => "invalid syntax"
  | .outOfRange => "value out of range"

/-- How many numbers sixty-four bits can hold. -/
def wordCount : Nat := 18446744073709551616

/-- The least number that is too large for sixty-four bits with a sign. -/
def signedBound : Nat := 9223372036854775808

/-- The value of a digit, letters counting from ten in either case. -/
def digitValue? (c : Char) : Option Nat :=
  if '0' ≤ c ∧ c ≤ '9' then some (c.toNat - '0'.toNat)
  else if 'a' ≤ c ∧ c ≤ 'z' then some (c.toNat - 'a'.toNat + 10)
  else if 'A' ≤ c ∧ c ≤ 'Z' then some (c.toNat - 'A'.toNat + 10)
  else none

/-- Reads digits of `base` from the left onto `n`, which must stay below `2 ^ 64`. The first fault
from the left is the answer. -/
def foldDigits (base : Nat) (separated : Bool) : List Char → Nat → Except Fault Nat
  | [], n => .ok n
  | c :: cs, n =>
    if separated ∧ c = '_' then foldDigits base separated cs n
    else match digitValue? c with
      | none => .error .malformed
      | some d =>
        if base ≤ d then .error .malformed
        else if wordCount ≤ n * base + d then .error .outOfRange
        else foldDigits base separated cs (n * base + d)

/-- What the last character before the current one was, when underscores are checked. -/
inductive Seen where
  | start
  | digit
  | underscore
  | other
  deriving DecidableEq

/-- Every underscore stands right between two digits. -/
def separates (isDigit : Char → Bool) : Seen → List Char → Bool
  | seen, [] => seen != .underscore
  | seen, c :: cs =>
    if isDigit c then separates isDigit .digit cs
    else if c = '_' then seen == .digit && separates isDigit .underscore cs
    else seen != .underscore && separates isDigit .other cs

/-- Whether the underscores of an unsigned literal are in place; a base mark counts as a digit. -/
def wellSeparated : List Char → Bool
  | '0' :: m :: cs =>
    if m = 'x' ∨ m = 'X' then separates Char.isAlphanum .digit cs
    else if m = 'b' ∨ m = 'B' ∨ m = 'o' ∨ m = 'O' then separates Char.isDigit .digit cs
    else separates Char.isDigit .start ('0' :: m :: cs)
  | cs => separates Char.isDigit .start cs

/-- The base that an unsigned literal names and the digits that follow its mark. -/
def baseOf : List Char → Nat × List Char
  | '0' :: m :: d :: cs =>
    if m = 'b' ∨ m = 'B' then (2, d :: cs)
    else if m = 'o' ∨ m = 'O' then (8, d :: cs)
    else if m = 'x' ∨ m = 'X' then (16, d :: cs)
    else (8, m :: d :: cs)
  | '0' :: cs => (8, cs)
  | cs => (10, cs)

/-- Reads an unsigned number below `2 ^ 64`, in `base` or in the base that the literal names. -/
def magnitude (base : Option Nat) (literal : List Char) : Except Fault Nat :=
  if literal = [] then .error .malformed
  else match base with
    | some base => foldDigits base false literal 0
    | none =>
      match foldDigits (baseOf literal).1 true (baseOf literal).2 0 with
      | .error e => .error e
      | .ok n => if literal.contains '_' && !wellSeparated literal then .error .malformed else .ok n

/-- Reads a number from `-2 ^ 63` up to `2 ^ 63 - 1`, with an optional sign. -/
def read (base : Option Nat) (text : String) : Except Fault Int :=
  let (negative, digits) := match text.toList with
    | '-' :: cs => (true, cs)
    | '+' :: cs => (false, cs)
    | cs => (false, cs)
  match magnitude base digits with
  | .error e => .error e
  | .ok n =>
    if negative then
      if signedBound < n then .error .outOfRange else .ok (-(n : Int))
    else if signedBound ≤ n then .error .outOfRange else .ok n

/-- Reads an unsigned number below `2 ^ 64`. -/
def readUnsigned (base : Option Nat) (text : String) : Except Fault Nat :=
  magnitude base text.toList

end TreeAsm.Text.Integer
