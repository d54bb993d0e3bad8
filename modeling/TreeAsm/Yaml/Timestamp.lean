/-!
# Dates and times

The scalars that resolve to a point in time: a date, or a date and a time of day. Months, days,
hours, minutes and seconds have one or two digits and must exist in the calendar.
-/

namespace TreeAsm.Yaml.Timestamp

/-- A number of one or two digits. -/
def number? : List Char → Option (Nat × List Char)
  | a :: b :: cs =>
    if a.isDigit then
      if b.isDigit then some ((a.toNat - 48) * 10 + (b.toNat - 48), cs) else some (a.toNat - 48, b :: cs)
    else none
  | [a] => if a.isDigit then some (a.toNat - 48, []) else none
  | [] => none

/-- A number of one or two digits that lies below `limit`. -/
def below? (limit : Nat) (cs : List Char) : Option (Nat × List Char) :=
  (number? cs).bind fun (n, cs) => if n < limit then some (n, cs) else none

/-- The text after a given character. -/
def after? (c : Char) : List Char → Option (List Char)
  | [] => none
  | d :: cs => if d = c then some cs else none

/-- How many days a month has. -/
def daysIn (year month : Nat) : Nat :=
  if month = 2 then
    if year % 4 = 0 ∧ (year % 100 ≠ 0 ∨ year % 400 = 0) then 29 else 28
  else if month = 4 ∨ month = 6 ∨ month = 9 ∨ month = 11 then 30
  else 31

/-- A date that exists: four digits of the year, the month and the day, and what follows. -/
def date? : List Char → Option (List Char)
  | a :: b :: c :: d :: '-' :: cs => do
    guard (a.isDigit && b.isDigit && c.isDigit && d.isDigit)
    let year := (a.toNat - 48) * 1000 + (b.toNat - 48) * 100 + (c.toNat - 48) * 10 + (d.toNat - 48)
    let (month, cs) ← below? 13 cs
    let (day, cs) ← number? (← after? '-' cs)
    guard (0 < month ∧ 0 < day ∧ day ≤ daysIn year month)
    return cs
  | _ => none

/-- Drops the fraction of a second, if there is one. -/
def dropFraction : List Char → List Char
  | p :: d :: cs => if (p == '.' || p == ',') && d.isDigit then cs.dropWhile Char.isDigit else p :: d :: cs
  | cs => cs

/-- A time of day, and what follows. -/
def clock? (cs : List Char) : Option (List Char) := do
  let (_, cs) ← below? 24 cs
  let (_, cs) ← below? 60 (← after? ':' cs)
  let (_, cs) ← below? 60 (← after? ':' cs)
  return dropFraction cs

/-- A time zone that ends the text: `Z`, or hours and minutes ahead or behind. -/
def isZone : List Char → Bool
  | ['Z'] => true
  | [s, a, b, ':', c, d] =>
    (s == '+' || s == '-') && a.isDigit && b.isDigit && c.isDigit && d.isDigit &&
      (a.toNat - 48) * 10 + (b.toNat - 48) ≤ 24 && (c.toNat - 48) * 10 + (d.toNat - 48) ≤ 60
  | _ => false

/-- Whether a text is a date, a date and a time of day after blanks, or a date and a time of day
with its zone after `T`. -/
def isTimestamp (text : List Char) : Bool :=
  match date? text with
  | none => false
  | some [] => true
  | some (c :: cs) =>
    if c == 'T' || c == 't' then ((clock? cs).map isZone).getD false
    else if c == ' ' then (clock? (cs.dropWhile (· == ' '))).map List.isEmpty == some true
    else false

end TreeAsm.Yaml.Timestamp
