import TreeAsm.Text.Decimal
import TreeAsm.Yaml.Timestamp

/-!
# What a plain scalar stands for

A scalar written without quotes and without a tag is null, a truth value, a number or a point in
time if it looks like one, and a string otherwise. `Resolved.ofText` decides this from the text.
-/

namespace TreeAsm.Yaml

open TreeAsm.Text (Decimal)

/-- A number with a fraction, or one of the values that are no decimal. -/
inductive Fractional where
  | finite (d : Decimal)
  | infinite (negative : Bool)
  | notANumber
  deriving DecidableEq, Repr

/-- What a scalar stands for. -/
inductive Resolved where
  | null
  | bool (b : Bool)
  | int (n : Int)
  | real (x : Fractional)
  | timestamp
  | str
  deriving DecidableEq, Repr

namespace Resolved

/-- The short tag of a resolved scalar. -/
def tag : Resolved → String
  | null => "!!null"
  | bool _ => "!!bool"
  | int _ => "!!int"
  | real _ => "!!float"
  | timestamp => "!!timestamp"
  | str => "!!str"

/-- The words that stand for something else than themselves. -/
def ofWord? (text : String) : Option Resolved :=
  if ["true", "True", "TRUE"].contains text then some (bool true)
  else if ["false", "False", "FALSE"].contains text then some (bool false)
  else if ["", "~", "null", "Null", "NULL"].contains text then some null
  else if [".nan", ".NaN", ".NAN"].contains text then some (real .notANumber)
  else if [".inf", ".Inf", ".INF", "+.inf", "+.Inf", "+.INF"].contains text then
    some (real (.infinite false))
  else if ["-.inf", "-.Inf", "-.INF"].contains text then some (real (.infinite true))
  else none

/-- A decimal that a double can hold. -/
def ofDecimal? (text : List Char) : Option Resolved :=
  (Decimal.read? text).bind fun d => d.nearestDouble.map fun _ => real (.finite d)

/-- A binary or octal number with a sign after its mark, or with more digits than `Integer.read`
takes after one. -/
def ofMarked? (text : String) : Option Resolved :=
  let digits (base : Nat) (cs : List Char) : Option Resolved :=
    match Text.Integer.read (some base) (String.ofList cs) with
    | .ok n => some (int n)
    | .error _ =>
      match Text.Integer.readUnsigned (some base) (String.ofList cs) with
      | .ok n => some (int n)
      | .error _ => none
  match text.toList with
  | '0' :: 'b' :: cs => digits 2 cs
  | '-' :: '0' :: 'b' :: cs => digits 2 ('-' :: cs)
  | '0' :: 'o' :: cs => digits 8 cs
  | '-' :: '0' :: 'o' :: cs => digits 8 ('-' :: cs)
  | _ => none

/-- A number that starts with a digit or a sign. Underscores count for nothing. -/
def ofNumber? (text : String) : Option Resolved :=
  let plain := String.ofList (text.toList.filter (· != '_'))
  match Text.Integer.read none plain with
  | .ok n => some (int n)
  | .error _ =>
    match Text.Integer.readUnsigned none plain with
    | .ok n => some (int n)
    | .error _ =>
      match ofDecimal? plain.toList with
      | some r => some r
      | none => ofMarked? plain

/-- What a plain scalar stands for. Its first character decides what is tried; points in time only
if `dates`. -/
def ofText (dates : Bool) (text : String) : Resolved :=
  match text.toList with
  | [] => null
  | c :: cs =>
    if c == '.' then (ofWord? text).getD ((ofDecimal? (c :: cs)).getD str)
    else if c == '+' || c == '-' || c.isDigit then
      match ofWord? text with
      | some r => r
      | none =>
        if dates && Timestamp.isTimestamp (c :: cs) then timestamp else (ofNumber? text).getD str
    else if "yYnNtTfFoO~".toList.contains c then (ofWord? text).getD str
    else str

end Resolved

end TreeAsm.Yaml
