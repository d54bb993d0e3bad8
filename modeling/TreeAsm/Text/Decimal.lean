import TreeAsm.Text.Integer

/-!
# Decimal numbers

Numbers in positional or scientific notation, kept exactly as digits and a power of ten, and their
nearest double-precision value as a binary mantissa and exponent.
-/

namespace TreeAsm.Text

/-- The number `digits * 10 ^ exponent`, negated if `negative`. -/
structure Decimal where
  negative : Bool
  digits : Nat
  exponent : Int
  deriving DecidableEq, Repr

namespace Decimal

/-- A run of digits in which single underscores may stand between two digits: its value, its length
and what follows it. -/
def digitRun : List Char → Nat → Nat → Nat × Nat × List Char
  | [], n, k => (n, k, [])
  | '_' :: d :: cs, n, k =>
    if 0 < k ∧ d.isDigit then digitRun cs (n * 10 + (d.toNat - '0'.toNat)) (k + 1)
    else (n, k, '_' :: d :: cs)
  | c :: cs, n, k =>
    if c.isDigit then digitRun cs (n * 10 + (c.toNat - '0'.toNat)) (k + 1) else (n, k, c :: cs)

/-- An optional exponent part that ends the text. -/
def exponentPart : List Char → Option Int
  | [] => some 0
  | e :: cs =>
    if e = 'e' ∨ e = 'E' then
      let (sign, ds) := match cs with
        | '-' :: ds => ((-1 : Int), ds)
        | '+' :: ds => (1, ds)
        | ds => (1, ds)
      match digitRun ds 0 0 with
      | (n, k, []) => if k = 0 then none else some (sign * n)
      | _ => none
    else none

/-- Reads a decimal: a sign, digits with at most one point, and an exponent part. -/
def read? (text : List Char) : Option Decimal :=
  let (negative, cs) := match text with
    | '-' :: cs => (true, cs)
    | '+' :: cs => (false, cs)
    | cs => (false, cs)
  let (whole, wholeLen, cs) := digitRun cs 0 0
  let (digits, len, fraction, cs) := match cs with
    | '.' :: cs =>
      let (part, partLen, cs) := digitRun cs 0 0
      (whole * Nat.pow 10 partLen + part, wholeLen + partLen, partLen, cs)
    | cs => (whole, wholeLen, 0, cs)
  if len = 0 then none
  else (exponentPart cs).map fun e => ⟨negative, digits, e - fraction⟩

/-- Divides and rounds to the nearest integer, a half going to the even neighbour. -/
def roundDiv (num den : Nat) : Nat :=
  let q := num / den
  let r := num % den
  if 2 * r < den then q
  else if den < 2 * r then q + 1
  else q + q % 2

/-- The nearest double to the absolute value, as `(m, q)` for `m * 2 ^ q` with `m ≤ 2 ^ 53`, or
nothing if that is beyond the largest double. -/
def nearestDouble (d : Decimal) : Option (Nat × Int) :=
  let size : Int := (Nat.toDigits 10 d.digits).length + d.exponent
  if d.digits = 0 ∨ size < -400 then some (0, 0)
  else if 400 < size then none
  else
    let num := d.digits * Nat.pow 10 d.exponent.toNat
    let den := Nat.pow 10 (-d.exponent).toNat
    let low : Int := max (Nat.log2 num - Nat.log2 den - 53 : Int) (-1074)
    let scaled (q : Int) : Nat × Nat := (num * Nat.pow 2 (-q).toNat, den * Nat.pow 2 q.toNat)
    let q := if Nat.pow 2 53 ≤ (scaled low).1 / (scaled low).2 then low + 1 else low
    let m := roundDiv (scaled q).1 (scaled q).2
    if 0 ≤ q ∧ Nat.pow 2 1024 ≤ m * Nat.pow 2 q.toNat then none else some (m, q)

/-- The nearest double cut off toward zero, or nothing if that is beyond the largest double. -/
def truncated (d : Decimal) : Option Int :=
  d.nearestDouble.map fun (m, q) =>
    let n : Int := (m * Nat.pow 2 q.toNat / Nat.pow 2 (-q).toNat : Nat)
    if d.negative then -n else n

end Decimal

end TreeAsm.Text
