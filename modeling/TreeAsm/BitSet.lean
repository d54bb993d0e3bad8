import TreeAsm.Failure

/-!
# Sets of small numbers

A set is a list of words of 64 bits; bit `j` of word `i` says whether `64 * i + j` is a member.
Words beyond the end of the list are empty, so one set has many representations.
-/

namespace TreeAsm

/-- A finite set of natural numbers. -/
structure BitSet where
  words : List (BitVec 64)
  deriving Repr

namespace BitSet

/-- The set without members. -/
def empty : BitSet := ⟨[]⟩

instance : EmptyCollection BitSet := ⟨empty⟩
instance : Inhabited BitSet := ⟨empty⟩

/-- The word with only bit `j`. -/
def bit (j : Nat) : BitVec 64 := 1#64 <<< j

/-- Sets bit `j` of word `i`, with more words if there are too few. -/
def setBit : (words : List (BitVec 64)) → (i j : Nat) → List (BitVec 64)
  | [], 0, j => [bit j]
  | [], i + 1, j => 0 :: setBit [] i j
  | w :: ws, 0, j => (w ||| bit j) :: ws
  | w :: ws, i + 1, j => w :: setBit ws i j

/-- Clears bit `j` of word `i`. -/
def clearBit : (words : List (BitVec 64)) → (i j : Nat) → List (BitVec 64)
  | [], _, _ => []
  | w :: ws, 0, j => (w &&& ~~~ bit j) :: ws
  | w :: ws, i + 1, j => w :: clearBit ws i j

/-- Adds a number. -/
def insert (s : BitSet) (k : Nat) : BitSet := ⟨setBit s.words (k / 64) (k % 64)⟩

/-- Removes a number. -/
def erase (s : BitSet) (k : Nat) : BitSet := ⟨clearBit s.words (k / 64) (k % 64)⟩

/-- Adds all numbers of a list. -/
def insertAll (s : BitSet) (ks : List Nat) : BitSet := ks.foldl insert s

/-- The set of the numbers of a list. -/
def ofList (ks : List Nat) : BitSet := empty.insertAll ks

/-- Whether a number is a member. -/
def contains (s : BitSet) (k : Nat) : Bool :=
  match s.words[k / 64]? with
  | none => false
  | some w => w &&& bit (k % 64) != 0

/-- The union of two lists of words, and whether it has more than the first. -/
def mergeWords : (s x : List (BitVec 64)) → Bool × List (BitVec 64)
  | s, [] => (false, s)
  | [], x :: xs =>
    let (changed, ws) := mergeWords [] xs
    (x != 0 || changed, x :: ws)
  | w :: ws, x :: xs =>
    let (changed, rest) := mergeWords ws xs
    ((w ||| x) != w || changed, (w ||| x) :: rest)

/-- Adds all members of another set, and tells whether there was a new one. -/
def merge (s x : BitSet) : Bool × BitSet :=
  let (changed, words) := mergeWords s.words x.words
  (changed, ⟨words⟩)

/-- The members of either set. -/
def union (s x : BitSet) : BitSet := (s.merge x).2

/-- The first list of words without the bits of the second. -/
def subtractWords : (s x : List (BitVec 64)) → List (BitVec 64)
  | w :: ws, x :: xs => (w &&& ~~~ x) :: subtractWords ws xs
  | ws, _ => ws

/-- The members that are not in another set. -/
def subtract (s x : BitSet) : BitSet := ⟨subtractWords s.words x.words⟩

/-- The bits that both lists of words have, as many words as in the first. -/
def intersectWords : (s x : List (BitVec 64)) → List (BitVec 64)
  | w :: ws, x :: xs => (w &&& x) :: intersectWords ws xs
  | _ :: ws, [] => 0 :: intersectWords ws []
  | [], _ => []

/-- The members of both sets. -/
def intersect (s x : BitSet) : BitSet := ⟨intersectWords s.words x.words⟩

/-- Whether two lists of words agree, where missing words are empty. -/
def equalWords : (s x : List (BitVec 64)) → Bool
  | [], xs => xs.all (· == 0)
  | ws, [] => ws.all (· == 0)
  | w :: ws, x :: xs => w == x && equalWords ws xs

/-- Whether two sets have the same members. -/
def equal (s x : BitSet) : Bool := equalWords s.words x.words

/-- The set with no members that has as many words. -/
def reset (s : BitSet) : BitSet := ⟨s.words.map fun _ => 0⟩

/-- The places of the bits of a word, in ascending order. -/
def bitsOf (w : BitVec 64) : List Nat := (List.range 64).filter fun j => w.getLsbD j

/-- The number of members. -/
def size (s : BitSet) : Nat := (s.words.flatMap bitsOf).length

/-- Shows numbers to a visitor one after the other, until it has seen enough. The visitor tells whether
it wants more, and what it makes of a number on top of those it has seen. -/
def feed {α : Type} (f : α → Nat → Bool × α) : List Nat → α → Bool × α
  | [], a => (true, a)
  | k :: ks, a =>
    match f a k with
    | (true, a) => feed f ks a
    | (false, a) => (false, a)

/-- Shows a visitor the members that words stand for, where the first word starts at `base`. -/
def feedWords {α : Type} (f : α → Nat → Bool × α) : (base : Nat) → List (BitVec 64) → α → Bool × α
  | _, [], a => (true, a)
  | base, w :: ws, a =>
    match feed f ((bitsOf w).map (base + ·)) a with
    | (true, a) => feedWords f (base + 64) ws a
    | (false, a) => (false, a)

/-- What a visitor makes of the members, which it is shown in ascending order until it has seen
enough. -/
def visit {α : Type} (s : BitSet) (f : α → Nat → Bool × α) (a : α) : α := (feedWords f 0 s.words a).2

/-- The members in ascending order. -/
def toList (s : BitSet) : List Nat := (s.visit (fun seen k => (true, k :: seen)) []).reverse

/-- The members that a visitor has seen who leaves after `n` of them. -/
def first (s : BitSet) : (n : Nat) → List Nat
  | 0 => []
  | n + 1 => (s.visit (fun seen k => (decide (seen.length < n), k :: seen)) []).reverse

/-- The number that a key stands for. A negative key is no key. -/
def key (k : Int) : Outcome Nat := if k < 0 then .crash else .ok k.toNat

end BitSet

end TreeAsm
