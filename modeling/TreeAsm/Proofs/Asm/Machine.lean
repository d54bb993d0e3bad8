import TreeAsm.Asm.Line
import TreeAsm.Proofs.Words

/-!
# What the machine does

The part of the instruction set that computes with integers: copies between registers and memory of
8, 16, 32 and 64 bits, arithmetic in place, division, comparisons, and jumps. Writing 32 bits of a
register clears its upper half; writing fewer keeps the rest. Memory is a store of bytes, with the
lowest byte of a word first. A number in an instruction is cut to the width of the instruction; one
of 64 bits has to be the sign extension of 32 bits, unless it is copied to a register.

Flags are known after a comparison only. What arithmetic leaves in them is not used, so it is left
open here, and reading an unknown flag is stuck, as is every instruction that does not exist.
-/

namespace TreeAsm.Asm

/-! ## Memory -/

/-- The bytes of the memory. -/
abbrev Memory := BitVec 64 → BitVec 8

namespace Memory

/-- The lowest `n` bytes at an address as a word of `w` bits. -/
def loadBytes (mem : Memory) (w : Nat) (a : BitVec 64) : (n : Nat) → BitVec w
  | 0 => 0
  | n + 1 => (mem a).setWidth w ||| loadBytes mem w (a + 1) n <<< 8

/-- The word of `w` bits at an address. -/
def load (mem : Memory) (w : Nat) (a : BitVec 64) : BitVec w := mem.loadBytes w a (w / 8)

/-- Writes a word at an address. -/
def store (mem : Memory) {w : Nat} (a : BitVec 64) (v : BitVec w) : Memory := fun x =>
  if (x - a).toNat < w / 8 then v.extractLsb' (8 * (x - a).toNat) 8 else mem x

theorem getLsbD_loadBytes (mem : Memory) (w : Nat) : ∀ (n : Nat) (a : BitVec 64) (j : Nat),
    (mem.loadBytes w a n).getLsbD j = (decide (j < w) && decide (j < 8 * n) &&
          (mem (a + BitVec.ofNat 64 (j / 8))).getLsbD (j % 8)) := by
  intro n
  induction n with
  | zero => intro a j; simp [loadBytes]
  | succ n ih =>
    intro a j
    rw [loadBytes, BitVec.getLsbD_or, BitVec.getLsbD_setWidth, BitVec.getLsbD_shiftLeft, ih]
    by_cases hj : j < 8
    · -- the lowest byte
      have hdiv : j / 8 = 0 := Nat.div_eq_of_lt hj
      have hmod : j % 8 = j := Nat.mod_eq_of_lt hj
      simp [hj, hdiv, hmod, show j < 8 * (n + 1) by omega]
    · have hdiv : j / 8 = (j - 8) / 8 + 1 := by omega
      have hmod : (j - 8) % 8 = j % 8 := by omega
      have haddr : a + 1 + BitVec.ofNat 64 ((j - 8) / 8) = a + BitVec.ofNat 64 (j / 8) := by
        rw [hdiv, BitVec.ofNat_add, BitVec.add_assoc, BitVec.add_comm (1 : BitVec 64)]
        rfl
      have hlow : (mem a).getLsbD j = false := BitVec.getLsbD_of_ge _ _ (by omega)
      rw [hlow, haddr, hmod]
      by_cases hw : j < w
      · by_cases hn : j < 8 * (n + 1)
        · simp [hj, hw, hn, show j - 8 < w by omega, show j - 8 < 8 * n by omega]
        · simp [hj, hw, hn, show ¬ j - 8 < 8 * n by omega]
      · simp [hw]

/-- The bits of a word in memory are those of its bytes. -/
theorem getLsbD_load (mem : Memory) {w : Nat} (hw : 8 ∣ w) (a : BitVec 64) (j : Nat) :
    (mem.load w a).getLsbD j = (decide (j < w) && (mem (a + BitVec.ofNat 64 (j / 8))).getLsbD (j % 8)) := by
  rw [load, getLsbD_loadBytes, Nat.mul_div_cancel' hw, Bool.and_self]

/-- A narrower word at an address has the lowest bits of a wider one. -/
theorem setWidth_load (mem : Memory) {v w : Nat} (hv : 8 ∣ v) (hw : 8 ∣ w) (h : v ≤ w)
    (a : BitVec 64) : (mem.load w a).setWidth v = mem.load v a := by
  apply BitVec.eq_of_getLsbD_eq
  intro j hj
  rw [BitVec.getLsbD_setWidth, getLsbD_load mem hw, getLsbD_load mem hv]
  simp [hj, show j < w by omega]

theorem load_store (mem : Memory) {w : Nat} (hw : 8 ∣ w) (hw' : w ≤ 64) (a : BitVec 64)
    (v : BitVec w) : (mem.store a v).load w a = v := by
  apply BitVec.eq_of_getLsbD_eq
  intro j hj
  have hoff : (a + BitVec.ofNat 64 (j / 8) - a).toNat = j / 8 := by
    rw [BitVec.add_comm, BitVec.add_sub_cancel, BitVec.toNat_ofNat]
    exact Nat.mod_eq_of_lt (by omega)
  have hbyte : j / 8 < w / 8 := by omega
  rw [getLsbD_load _ hw, store, hoff, if_pos hbyte, BitVec.getLsbD_extractLsb']
  simp [hj, Nat.mod_lt, Nat.div_add_mod]

/-- A word is kept by a write that touches none of its bytes. -/
theorem load_store_of_apart (mem : Memory) {v w : Nat} (hv : 8 ∣ v) (a b : BitVec 64)
    (x : BitVec w) (h : ∀ i, i < v / 8 → w / 8 ≤ (b + BitVec.ofNat 64 i - a).toNat) :
    (mem.store a x).load v b = mem.load v b := by
  apply BitVec.eq_of_getLsbD_eq
  intro j hj
  have hapart := h (j / 8) (by omega)
  rw [getLsbD_load _ hv, getLsbD_load _ hv, store, if_neg (by omega)]

end Memory

/-! ## Machine states -/

/-- What a comparison leaves behind. -/
structure Flags where
  zero : Bool
  carry : Bool
  sign : Bool
  overflow : Bool
  deriving DecidableEq, Repr

/-- The flags after `y` is subtracted from `x`. -/
def Flags.ofSub {w : Nat} (x y : BitVec w) : Flags where
  zero := x == y
  carry := x.ult y
  sign := (x - y).msb
  overflow := x.msb != y.msb && (x - y).msb != x.msb

/-- The registers, the memory and the flags, if they are known. -/
structure Machine where
  regs : Reg → BitVec 64
  mem : Memory
  flags : Option Flags

/-- The number of bits of an access. -/
def width (bits : Int64) : Nat := bits.toNatClampNeg

/-- The content of a register after some of its bits are written. -/
def merge {w : Nat} (old : BitVec 64) (v : BitVec w) : BitVec 64 :=
  if w < 32 then (old >>> w) <<< w ||| v.setWidth 64 else v.setWidth 64

namespace Machine

/-- Writes bits of a register. -/
def setReg {w : Nat} (m : Machine) (r : Reg) (v : BitVec w) : Machine :=
  { m with regs := fun r' => if r' = r then merge (m.regs r) v else m.regs r' }

/-- Writes memory. -/
def setMem {w : Nat} (m : Machine) (a : BitVec 64) (v : BitVec w) : Machine :=
  { m with mem := m.mem.store a v }

/-- Forgets the flags. -/
def clearFlags (m : Machine) : Machine := { m with flags := none }

variable {w : Nat} (m : Machine) (r : Reg) (a : BitVec 64) (v : BitVec w)

@[simp] theorem setReg_mem : (m.setReg r v).mem = m.mem := rfl
@[simp] theorem setReg_flags : (m.setReg r v).flags = m.flags := rfl
@[simp] theorem setMem_regs : (m.setMem a v).regs = m.regs := rfl
@[simp] theorem setMem_flags : (m.setMem a v).flags = m.flags := rfl
@[simp] theorem clearFlags_regs : m.clearFlags.regs = m.regs := rfl
@[simp] theorem clearFlags_mem : m.clearFlags.mem = m.mem := rfl

@[simp] theorem setReg_self : (m.setReg r v).regs r = merge (m.regs r) v := if_pos rfl

theorem setReg_of_ne {r' : Reg} (h : r' ≠ r) : (m.setReg r v).regs r' = m.regs r' := if_neg h

end Machine

/-! ## Operands -/

/-- The address of a place in memory; one of a symbol is not known here. -/
def Mem.address (x : Mem) (m : Machine) : Option (BitVec 64) :=
  if x.symbol ≠ "" then none
  else some ((x.base.map m.regs).getD 0 + (x.index.map m.regs).getD 0 + x.disp.toBitVec)

namespace Operand

/-- The number of bits of an operand. -/
def bits (x : Operand) : Nat := width x.size

/-- Whether an operand is in memory. -/
def isMem : Operand → Bool
  | mem _ => true
  | _ => false

/-- Whether an operand is a number. -/
def isImm : Operand → Bool
  | imm _ => true
  | _ => false

/-- The word of `w` bits that an operand is. -/
def read (m : Machine) (w : Nat) : Operand → Option (BitVec w)
  | reg r => if width r.bits = w then some ((m.regs r.reg).setWidth w) else none
  | mem x => if width x.bits = w then (x.address m).map (m.mem.load w) else none
  | imm i => some (BitVec.ofInt w i.value.toInt)
  | _ => none

/-- Whether an operand can be part of an instruction of `w` bits that is no copy to a register. -/
def isEncodable (w : Nat) : Operand → Bool
  | imm i => w < 64 || i.fits32
  | _ => true

/-- The word that an operand is as the source of an instruction of `w` bits. -/
def source (m : Machine) (w : Nat) (x : Operand) : Option (BitVec w) :=
  if x.isEncodable w then x.read m w else none

/-- Writes a word of `w` bits to an operand. -/
def write {w : Nat} (m : Machine) (v : BitVec w) : Operand → Option Machine
  | reg r => if width r.bits = w then some (m.setReg r.reg v) else none
  | mem x => if width x.bits = w then (x.address m).map fun a => m.setMem a v else none
  | _ => none

end Operand

/-! ## Instructions -/

/-- What an instruction leads to. -/
inductive Exit where
  /-- The next instruction follows. -/
  | next (m : Machine)
  /-- The instruction after a label follows. -/
  | goto (l : String) (m : Machine)
  | fault
  | stuck

/-- The next instruction follows, if there is a state for it. -/
def Exit.ofOption : Option Machine → Exit
  | some m => .next m
  | none => .stuck

/-- The result of arithmetic in place. -/
def arithmetic {w : Nat} (op : Mnemonic) (x y : BitVec w) : Option (BitVec w) :=
  match op with
  | .add => some (x + y)
  | .sub => some (x - y)
  | .and => some (x &&& y)
  | .xor => some (x ^^^ y)
  | .imul => some (x * y)
  | _ => none

/-- Whether a copy fills up `v` bits to `w` bits, and with the sign. -/
def extension (op : Mnemonic) (v w : Nat) : Option Bool :=
  match op with
  | .movsx => if (v = 8 ∨ v = 16) ∧ v < w then some true else none
  | .movzx => if (v = 8 ∨ v = 16) ∧ v < w then some false else none
  | .movsxd => if v = 32 ∧ w = 64 then some true else none
  | _ => none

/-- The condition whose truth an instruction writes. -/
def condition (op : Mnemonic) (f : Flags) : Option Bool :=
  match op with
  | .sete => some f.zero
  | .setne => some !f.zero
  | .setl => some (f.sign != f.overflow)
  | .setle => some (f.zero || f.sign != f.overflow)
  | .setg => some (!f.zero && f.sign == f.overflow)
  | .setge => some (f.sign == f.overflow)
  | .setb => some f.carry
  | .setbe => some (f.carry || f.zero)
  | .seta => some (!f.carry && !f.zero)
  | .setae => some !f.carry
  | _ => none

namespace Machine

/-- Copies an operand. -/
def copy (m : Machine) (d s : Operand) : Option Machine := do
  let v ← if d.isMem then s.source m d.bits else s.read m d.bits
  d.write m v

/-- Copies an operand that is filled up. -/
def extend (m : Machine) (op : Mnemonic) (d s : Operand) : Option Machine := do
  let signed ← extension op s.bits d.bits
  let v ← s.read m s.bits
  d.write m (resize signed d.bits v)

/-- Does arithmetic in place. -/
def compute (m : Machine) (op : Mnemonic) (d s : Operand) : Option Machine := do
  let x ← d.read m d.bits
  let y ← s.source m d.bits
  let v ← arithmetic op x y
  d.write m.clearFlags v

/-- Compares two operands. -/
def compare (m : Machine) (x y : Operand) : Option Machine := do
  let a ← x.read m x.bits
  let b ← y.source m x.bits
  return { m with flags := some (.ofSub a b) }

/-- Writes whether a condition holds. -/
def setIf (m : Machine) (op : Mnemonic) (d : Operand) : Option Machine := do
  let f ← m.flags
  let c ← condition op f
  d.write m (if c then 1#8 else 0#8)

/-- Jumps if a condition holds. -/
def jumpIf (m : Machine) (op : Mnemonic) (l : String) : Exit :=
  match m.flags.bind (condition op) with
  | some true => .goto l m
  | some false => .next m
  | none => .stuck

/-- Puts two words into `rdx` and `rax`. -/
def setPair {w : Nat} (m : Machine) (high low : BitVec w) : Machine :=
  (m.clearFlags.setReg .rax low).setReg .rdx high

/-- Fills `rdx` with the sign of `rax`. -/
def signFill (m : Machine) (w : Nat) : Machine :=
  m.setReg .rdx (if ((m.regs .rax).setWidth w).msb then BitVec.allOnes w else 0)

/-- Multiplies `rax` by a word. -/
def multiply (m : Machine) {w : Nat} (y : BitVec w) : Machine :=
  let x := (m.regs .rax).setWidth w
  m.setPair (BitVec.ofNat w (x.toNat * y.toNat / 2 ^ w)) (x * y)

/-- Divides `rdx` and `rax` by a word without a sign. -/
def divide (m : Machine) {w : Nat} (y : BitVec w) : Exit :=
  let x := ((m.regs .rdx).setWidth w ++ (m.regs .rax).setWidth w).toNat
  if y = 0 ∨ 2 ^ w ≤ x / y.toNat then .fault
  else .next (m.setPair (BitVec.ofNat w (x % y.toNat)) (BitVec.ofNat w (x / y.toNat)))

/-- Divides `rdx` and `rax` by a word with a sign. -/
def divideSigned (m : Machine) {w : Nat} (y : BitVec w) : Exit :=
  let x := ((m.regs .rdx).setWidth w ++ (m.regs .rax).setWidth w).toInt
  let q := x.tdiv y.toInt
  if y = 0 ∨ q < -2 ^ (w - 1) ∨ 2 ^ (w - 1) ≤ q then .fault
  else .next (m.setPair (BitVec.ofInt w (x.tmod y.toInt)) (BitVec.ofInt w q))

/-- Whether an operand can be multiplied or divided by. -/
def isFactor (x : Operand) : Bool := !x.isImm && (x.bits == 32 || x.bits == 64)

/-- What an instruction does. -/
def exec (m : Machine) (op : Mnemonic) (args : List Operand) : Exit :=
  match op, args with
  | .mov, [d, s] => if d.isMem && s.isMem then .stuck else .ofOption (m.copy d s)
  | .movsx, [.reg d, s] | .movzx, [.reg d, s] | .movsxd, [.reg d, s] =>
    if s.isImm then .stuck else .ofOption (m.extend op (.reg d) s)
  | .add, [d, s] | .sub, [d, s] | .and, [d, s] | .xor, [d, s] =>
    if d.isMem && s.isMem then .stuck else .ofOption (m.compute op d s)
  | .imul, [.reg d, s] => .ofOption (m.compute .imul (.reg d) s)
  | .cdq, [] => .next (m.signFill 32)
  | .cqo, [] => .next (m.signFill 64)
  | .mul, [x] =>
    if isFactor x then .ofOption ((x.read m x.bits).map m.multiply) else .stuck
  | .div, [x] =>
    if isFactor x then ((x.read m x.bits).map m.divide).getD .stuck else .stuck
  | .idiv, [x] =>
    if isFactor x then ((x.read m x.bits).map m.divideSigned).getD .stuck else .stuck
  | .cmp, [x, y] =>
    if x.isImm || x.isMem && y.isMem then .stuck else .ofOption (m.compare x y)
  | .jmp, [.label l] => .goto l m
  | .je, [.label l] => m.jumpIf .sete l
  | .jne, [.label l] => m.jumpIf .setne l
  | _, [d] => .ofOption (m.setIf op d)
  | _, _ => .stuck

end Machine

/-- What a line does. Labels and comments do nothing. -/
def Line.exec (l : Line) (m : Machine) : Exit :=
  match l with
  | .label _ | .comment _ => .next m
  | .ins op args => m.exec op args
  | _ => .stuck

/-- What lines do one after the other, until one leads elsewhere. -/
def runLines : List Line → Machine → Exit
  | [], m => .next m
  | l :: rest, m =>
    match l.exec m with
    | .next m' => runLines rest m'
    | e => e

/-- Lines after others that lead on to them. -/
theorem runLines_append {lines : List Line} : ∀ {m m' : Machine}, runLines lines m = .next m' →
    ∀ more, runLines (lines ++ more) m = runLines more m' := by
  induction lines with
  | nil =>
    intro m m' h more
    cases h
    rfl
  | cons l rest ih =>
    intro m m' h more
    rw [runLines] at h
    rw [List.cons_append, runLines]
    split at h
    next m1 h1 => exact ih h more
    next hne => exact absurd h (hne m')

/-- Lines after one that leads elsewhere are not run. -/
theorem runLines_append_of_ne {lines : List Line} : ∀ {m : Machine},
    (∀ m', runLines lines m ≠ .next m') → ∀ more, runLines (lines ++ more) m = runLines lines m := by
  induction lines with
  | nil => intro m h; exact absurd rfl (h m)
  | cons l rest ih =>
    intro m h more
    rw [runLines] at h
    rw [List.cons_append, runLines, runLines]
    split
    next m1 h1 =>
      rw [h1] at h
      exact ih h more
    next => rfl

end TreeAsm.Asm
