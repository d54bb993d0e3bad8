import TreeAsm.Text.Bytes
import TreeAsm.Yaml.Input
import TreeAsm.Yaml.Token

/-!
# Anchors, tags and directives

The scanners for what stands in front of a node or of a document. Each starts at the indicator.
-/

namespace TreeAsm.Yaml

open Read

/-- An anchor or alias name may be followed by these besides a word end. -/
def endsAnchor (c : Char) : Bool :=
  endsWord c || c == '?' || c == ':' || c == ',' || c == ']' || c == '\x7d' || c == '%' ||
    c == '@' || c == '\x60'

/-- The name of an anchor or an alias, after its indicator. -/
def scanAnchorName : Read String := do
  skip
  let name ← Read.takeWhile isNameChar
  if name.isEmpty || !endsAnchor (← look 0) then
    refuse "did not find expected alphabetic or numeric character"
  return name

/-- A character that a tag may hold; a percent sign starts an escape. -/
def isTagChar (c : Char) : Bool :=
  isNameChar c || ";/?:@&=+$,.!~*'()[]%".toList.contains c

/-- The value of a hexadecimal digit in either case. -/
def hexValue? (c : Char) : Option Nat :=
  if '0' ≤ c ∧ c ≤ '9' then some (c.toNat - '0'.toNat)
  else if 'a' ≤ c ∧ c ≤ 'f' then some (c.toNat - 'a'.toNat + 10)
  else if 'A' ≤ c ∧ c ≤ 'F' then some (c.toNat - 'A'.toNat + 10)
  else none

/-- One octet that is written as a percent sign and two hexadecimal digits. -/
def escapedOctet : Read Nat := do
  need 3
  let c ← look 0
  match hexValue? (← look 1), hexValue? (← look 2) with
  | some a, some b =>
    if c == '%' then
      skips 3
      return a * 16 + b
    else refuse "did not find URI escaped octet"
  | _, _ => refuse "did not find URI escaped octet"

/-- How many octets a character has that starts with this one. -/
def octetCount? (octet : Nat) : Option Nat :=
  if octet < 0x80 then some 1
  else if octet / 0x20 == 0x6 then some 2
  else if octet / 0x10 == 0xe then some 3
  else if octet / 0x08 == 0x1e then some 4
  else none

/-- The further octets of a character. -/
def trailingOctets : (n : Nat) → (octets : List UInt8) → Read (List UInt8)
  | 0, octets => return octets
  | n + 1, octets => do
    let octet ← escapedOctet
    if octet / 0x40 != 0x2 then refuse "found an incorrect trailing UTF-8 octet"
    trailingOctets n (octet.toUInt8 :: octets)

/-- The characters of a tag. A character may be written by the octets of its encoding; whether they
spell a character is not looked at. `octets` is reversed. -/
def tagOctets : (bound : Nat) → (octets : List UInt8) → Read (List UInt8)
  | 0, octets => return octets
  | bound + 1, octets => do
    let c ← look 0
    if !isTagChar c then return octets
    let octets ← if c == '%' then do
        let first ← escapedOctet
        match octetCount? first with
        | none => refuse "found an incorrect leading UTF-8 octet"
        | some n => trailingOctets (n - 1) (first.toUInt8 :: octets)
      else do
        skip
        pure (c.toNat.toUInt8 :: octets)
    need 1
    tagOctets bound octets

/-- The rest of a tag; `given` tells that something of it has been read already. -/
def scanTagText (given : Bool) : Read String := do
  need 1
  let octets ← tagOctets (← bound) []
  if octets.isEmpty && !given then refuse "did not find expected tag URI"
  return Text.ofBytes octets.reverse

/-- A tag handle: an exclamation mark, and a name and another one if there are such. A `strict` one
has the second unless it is a single mark. -/
def scanTagHandle (strict : Bool) : Read String := do
  need 1
  if (← look 0) != '!' then refuse "did not find expected '!'"
  skip
  let name ← Read.takeWhile isNameChar
  if (← look 0) == '!' then
    skip
    return "!" ++ name ++ "!"
  else
    if strict && !name.isEmpty then refuse "did not find expected '!'"
    return "!" ++ name

/-- A tag. It is verbatim in angle brackets, a handle that ends in `!` with a suffix, or a suffix of
the primary handle; `!` alone is the tag that asks for no resolution. -/
def scanTag : Read Token.Kind := do
  need 2
  let kind ← if (← look 1) == '<' then do
      skips 2
      let suffix ← scanTagText false
      if (← look 0) != '>' then refuse "did not find the expected '>'"
      skip
      pure (Token.Kind.tag "" suffix)
    else do
      let handle ← scanTagHandle false
      if handle.length > 1 && handle.endsWith "!" then
        pure (Token.Kind.tag handle (← scanTagText false))
      else
        let suffix := (handle.drop 1).toString ++ (← scanTagText true)
        pure (if suffix.isEmpty then Token.Kind.tag "" "!" else Token.Kind.tag "!" suffix)
  need 1
  if !endsWord (← look 0) then refuse "did not find expected whitespace or line break"
  return kind

/-! ## Directives -/

/-- One number of a version: one or two digits. -/
def scanVersionNumber : Read Nat := do
  let digits ← Read.takeWhile Char.isDigit
  if digits.isEmpty then refuse "did not find expected version number"
  if 2 < digits.length then refuse "found extremely long version number"
  return digits.toList.foldl (fun n c => n * 10 + (c.toNat - '0'.toNat)) 0

/-- The value of a version directive. -/
def scanVersion : Read Token.Kind := do
  skipWhile isBlank
  let major ← scanVersionNumber
  if (← look 0) != '.' then refuse "did not find expected digit or '.' character"
  skip
  return .versionDirective major (← scanVersionNumber)

/-- The value of a tag directive: a handle and what it stands for. -/
def scanTagDirective : Read Token.Kind := do
  skipWhile isBlank
  let handle ← scanTagHandle true
  need 1
  if !isBlank (← look 0) then refuse "did not find expected whitespace"
  skipWhile isBlank
  let uri ← scanTagText false
  need 1
  if !endsWord (← look 0) then refuse "did not find expected whitespace or line break"
  return .tagDirective handle uri

/-- A directive, to the end of its line. Also gives the end of its value. -/
def scanDirective : Read (Token.Kind × Mark) := do
  skip
  let name ← Read.takeWhile isNameChar
  if name.isEmpty then refuse "could not find expected directive name"
  if !endsWord (← look 0) then refuse "found unexpected non-alphabetical character"
  let kind ←
    if name == "YAML" then scanVersion
    else if name == "TAG" then scanTagDirective
    else refuse "found unknown directive name"
  let stop ← Read.mark
  restOfLine
  return (kind, stop)

end TreeAsm.Yaml
