import TreeAsm.Yaml.Token

/-!
# Tokens on their way from the scanner to the builder

The queue keeps tokens in a store of slots that is used again: a token that has been taken leaves
its slot as it was until another token is written there. `Queue.Slot` names a slot, and
`Queue.inSlot` tells what a slot holds now, which need not be what it held when it was named.
-/

namespace TreeAsm.Yaml

/-- Tokens in the order in which they will be taken. The slots from `head` up to `used` hold those
that wait; `passed` is the number of tokens that have been taken. A store has `room` slots; when it
is full of waiting tokens they move to a larger one, and it stays as it is among the `retired`. -/
structure Queue where
  slots : Array Token
  used : Nat
  room : Nat
  head : Nat
  passed : Nat
  retired : Array (Array Token)

/-- A slot of a store, and the number of that store. -/
structure Queue.Slot where
  store : Nat
  index : Nat

namespace Queue

/-- No tokens, and no store for any. -/
def empty : Queue := ⟨#[], 0, 0, 0, 0, #[]⟩

/-- The size of a token in bytes. -/
def tokenBytes : Nat := 144

/-- A large store takes whole pages of this size in bytes. -/
def pageBytes : Nat := 8192

/-- How many tokens the sizes of small stores hold. -/
def smallRooms : List Nat := [1, 2, 4, 8, 18, 37, 75, 151]

/-- The room of the store that follows one of `room` slots. It is at least twice that, or from 256
on a quarter and 192 more, and fills up the memory that it takes. -/
def grownRoom (room : Nat) : Nat :=
  let wanted := if room < 256 then max 1 (2 * room) else room + (room + 768) / 4
  match smallRooms.find? fun n => wanted ≤ n with
  | some n => n
  | none => (wanted * tokenBytes + (pageBytes - 1)) / pageBytes * pageBytes / tokenBytes

/-- How many tokens wait. -/
def size (q : Queue) : Nat := q.used - q.head

/-- The number that the next token to be appended gets, counted from the start of the text. -/
def nextNumber (q : Queue) : Nat := q.passed + q.size

/-- The `n`-th token from the end of what the store holds, taken or not. -/
def fromLast? (q : Queue) (n : Nat) : Option Token :=
  if n < q.used then q.slots[q.used - 1 - n]? else none

/-- Moves the waiting tokens to the front of a full store if that gains room. The slots behind them
keep what they hold. -/
def compact (q : Queue) : Queue :=
  if 0 < q.head && q.used == q.room then
    { q with
      slots := q.slots.extract q.head q.used ++ q.slots.extract (q.used - q.head) q.slots.size
      used := q.used - q.head
      head := 0 }
  else q

/-- Gives up a full store for a larger one. -/
def grow (q : Queue) : Queue :=
  if q.used == q.room then
    { q with room := grownRoom q.room, retired := q.retired.push q.slots }
  else q

/-- Appends a token. -/
def push (q : Queue) (t : Token) : Queue :=
  let q := q.compact.grow
  let slots :=
    if q.used < q.slots.size then q.slots.setIfInBounds q.used t else q.slots.push t
  { q with slots := slots, used := q.used + 1 }

/-- Puts a token in front of the one with the given number. If that has been taken the token is
appended. -/
def insertAt (q : Queue) (number : Nat) (t : Token) : Queue :=
  if number < q.passed then q.push t
  else
    let q := q.push t
    let at_ := q.head + (number - q.passed)
    { q with slots :=
        q.slots.extract 0 at_ ++ #[t] ++ q.slots.extract at_ (q.used - 1) ++
          q.slots.extract q.used q.slots.size }

/-- The token that is taken next. -/
def first? (q : Queue) : Option Token :=
  if q.head < q.used then q.slots[q.head]? else none

/-- Takes a token. -/
def pop (q : Queue) : Queue := { q with head := q.head + 1, passed := q.passed + 1 }

/-- The slot of the token that is taken next. -/
def firstSlot (q : Queue) : Slot := ⟨q.retired.size, q.head⟩

/-- What a slot holds now. -/
def inSlot (q : Queue) (s : Slot) : Option Token :=
  match q.retired[s.store]? with
  | some slots => slots[s.index]?
  | none => q.slots[s.index]?

end Queue

end TreeAsm.Yaml
