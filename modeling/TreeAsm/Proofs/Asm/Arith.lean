import TreeAsm.Proofs.Asm.Move
import TreeAsm.Proofs.Ir.Exec

/-!
# What arithmetic and comparisons do

The machine's operations on words agree with operations on integers: sums, differences, products and
conjunctions in place (`compute_runs`), the product and the quotient in `rax` (`multiply_runs`,
`divide_runs`, `divideSigned_runs`), and comparisons (`sign_ne_overflow`, `compare_runs`). A division faults exactly
where the quotient of the integers is not defined.
-/

namespace TreeAsm.Asm

open Ir (compares quotient)
open BitVec (ofInt)

variable {m : Machine} {x : Operand} {a b : Int}

/-! ## Arithmetic in place -/

/-- The operations that work on a register in place. -/
def Mnemonic.isArithmetic (op : Mnemonic) : Prop := op = .add ∨ op = .sub ∨ op = .and ∨ op = .imul

theorem compute_runs {op : Mnemonic} {d : Register} {c : Int} (hop : op.isArithmetic)
    (hw : IsWork d.bits) (hd : (m.regs d.reg).setWidth (width d.bits) = ofInt (width d.bits) a)
    (hx : x.source m (width d.bits) = some (ofInt (width d.bits) b))
    (hc : arithmetic op (ofInt (width d.bits) a) (ofInt (width d.bits) b)
      = some (ofInt (width d.bits) c)) :
    ∃ m', runLines [.ins op [.reg d, x]] m = .next m' ∧ m.SameBut (· = d.reg) m' ∧
      (m'.regs d.reg).setWidth (width d.bits) = ofInt (width d.bits) c := by
  have hcompute : m.compute op (.reg d) x
      = some (m.clearFlags.setReg d.reg (ofInt (width d.bits) c)) := by
    have hread : (Operand.reg d).read m (width d.bits) = some (ofInt (width d.bits) a) :=
      (if_pos rfl).trans (congrArg some hd)
    show ((Operand.reg d).read m (width d.bits)).bind _ = _
    rw [hread]
    show (x.source m (width d.bits)).bind _ = _
    rw [hx]
    show (arithmetic op (ofInt (width d.bits) a) (ofInt (width d.bits) b)).bind _ = _
    rw [hc]
    exact if_pos rfl
  have hexec : (Line.ins op [.reg d, x]).exec m = Exit.ofOption (m.compute op (.reg d) x) := by
    rcases hop with rfl | rfl | rfl | rfl <;> rfl
  refine ⟨m.clearFlags.setReg d.reg (ofInt (width d.bits) c), ?_, ⟨rfl, ?_⟩, ?_⟩
  · rw [runLines, hexec, hcompute]
    rfl
  · exact fun r' h => Machine.setReg_of_ne _ _ _ h
  · rw [Machine.setReg_self, setWidth_merge hw.bounds.2]

variable {w : Nat} {c : Int64}

/-- The lowest bits of a conjunction. -/
theorem ofInt_and (hw : w ≤ 64) (a b : Int) :
    ofInt w a &&& ofInt w b
      = ofInt w (ofInt 64 a &&& ofInt 64 b).toInt := by
  rw [← setWidth_ofInt hw a, ← setWidth_ofInt hw b, ← BitVec.setWidth_and, ← setWidth_ofInt hw,
    BitVec.ofInt_toInt]

/-! ## Products and quotients in `rax` -/

/-- The registers that products and quotients are computed in. -/
def Reg.isPair (r : Reg) : Prop := r = .rax ∨ r = .rdx

theorem Machine.setPair_same (m : Machine) (high low : BitVec w) :
    m.SameBut Reg.isPair (m.setPair high low) := by
  refine ⟨rfl, fun r hr => ?_⟩
  rw [Machine.setPair, Machine.setReg_of_ne _ _ _ fun h => hr (Or.inr h),
    Machine.setReg_of_ne _ _ _ fun h => hr (Or.inl h)]
  rfl

theorem Machine.setPair_low (hw : w ≤ 64) (m : Machine) (high low : BitVec w) :
    ((m.setPair high low).regs .rax).setWidth w = low := by
  rw [Machine.setPair, Machine.setReg_of_ne _ _ _ (by decide), Machine.setReg_self, setWidth_merge hw]

theorem isFactor_of {b : Int64} (hx : x.isImm = false) (hb : IsWork b) (hbits : x.bits = width b) :
    Machine.isFactor x := by
  rw [Machine.isFactor, hx, hbits]
  rcases hb with rfl | rfl <;> rfl

theorem multiply_runs (hc : IsWork c) (himm : x.isImm = false) (hbits : x.bits = width c)
    (hax : (m.regs .rax).setWidth (width c) = ofInt (width c) a)
    (hx : x.read m (width c) = some (ofInt (width c) b)) :
    ∃ m', runLines [.ins .mul [x]] m = .next m' ∧ m.SameBut Reg.isPair m' ∧
      (m'.regs .rax).setWidth (width c) = ofInt (width c) (a * b) := by
  have hexec : (Line.ins .mul [x]).exec m = .next (m.multiply (ofInt (width c) b)) := by
    show (if Machine.isFactor x then Exit.ofOption ((x.read m x.bits).map m.multiply) else .stuck) = _
    rw [if_pos (isFactor_of himm hc hbits), hbits, hx]
    rfl
  refine ⟨m.multiply (ofInt (width c) b), ?_, m.setPair_same _ _, ?_⟩
  · rw [runLines, hexec]
    rfl
  · rw [Machine.multiply, Machine.setPair_low hc.bounds.2, hax, BitVec.ofInt_mul]

/-- What a division leads to, if the quotient is a number or not. -/
def Divided (m : Machine) (c : Int64) (q : Option Int) (e : Exit) : Prop :=
  match q with
  | some q => ∃ m', e = .next m' ∧ m.SameBut Reg.isPair m' ∧
      (m'.regs .rax).setWidth (width c) = ofInt (width c) q
  | none => e = .fault

theorem runLines_factor {l : Line} {y : BitVec (width c)} (himm : x.isImm = false) (hc : IsWork c)
    (hbits : x.bits = width c) (hx : x.read m (width c) = some y) (f : ∀ w, BitVec w → Exit)
    (hexec : l.exec m
      = if Machine.isFactor x then ((x.read m x.bits).map (f _)).getD .stuck else .stuck) :
    runLines [l] m = f _ y := by
  rw [if_pos (isFactor_of himm hc hbits), hbits, hx] at hexec
  rw [runLines, hexec, Option.map_some, Option.getD_some]
  cases f _ y <;> rfl

theorem divide_runs (hc : IsWork c) (himm : x.isImm = false) (hbits : x.bits = width c)
    (hax : (m.regs .rax).setWidth (width c) = ofInt (width c) a)
    (hdx : (m.regs .rdx).setWidth (width c) = 0)
    (hx : x.read m (width c) = some (ofInt (width c) b)) :
    Divided m c (quotient (width c) false a b) (runLines [.ins .div [x]] m) := by
  -- without a sign the dividend is `rax`, and the quotient always fits
  have hdividend : ((m.regs .rdx).setWidth (width c) ++ (m.regs .rax).setWidth (width c)).toNat
      = (ofInt (width c) a).toNat := by
    rw [hdx, hax, BitVec.toNat_append]
    simp
  rw [runLines_factor himm hc hbits hx (fun _ => m.divide) rfl, Machine.divide, hdividend,
    quotient, wrapTo_false, wrapTo_false]
  by_cases hzero : ofInt (width c) b = 0
  · rw [if_pos (Or.inl hzero), hzero]
    rfl
  · have hpos : 0 < (ofInt (width c) b).toNat := by
      refine Nat.pos_of_ne_zero fun h => hzero (BitVec.eq_of_toNat_eq ?_)
      rw [h]
      rfl
    have hfits : ¬ 2 ^ width c ≤ (ofInt (width c) a).toNat / (ofInt (width c) b).toNat := by
      have hlt := (ofInt (width c) a).isLt
      have hle := Nat.div_le_self (ofInt (width c) a).toNat (ofInt (width c) b).toNat
      omega
    rw [if_neg (not_or.mpr ⟨hzero, hfits⟩), if_neg (by
      rintro (h | ⟨h, -⟩)
      · omega
      · exact absurd h (by simp))]
    refine ⟨_, rfl, m.setPair_same _ _, ?_⟩
    rw [Machine.setPair_low hc.bounds.2, ← BitVec.ofInt_natCast]
    rfl

/-- A word with its sign above it is the same integer. -/
theorem toInt_signFill (hw : 0 < w) (v : BitVec w) :
    ((if v.msb then BitVec.allOnes w else 0) ++ v).toInt = v.toInt := by
  rw [BitVec.toInt_append, if_neg (by simp; omega), BitVec.toInt_eq_msb_cond v]
  cases v.msb with
  | true =>
    rw [if_pos rfl, if_pos rfl, BitVec.toInt_allOnes, if_pos hw, Int.natCast_pow]
    show (2 : Int) ^ w * -1 + v.toNat = v.toNat - 2 ^ w
    omega
  | false =>
    rw [if_neg Bool.false_ne_true, if_neg Bool.false_ne_true]
    simp

/-- The quotient of two words with a sign is too great only for the least one divided by -1. -/
theorem tdiv_overflow {n : Int} {x y : Int} (hn : 0 < n) (hx : -n ≤ x ∧ x < n) (hy : y ≠ 0) :
    (x.tdiv y < -n ∨ n ≤ x.tdiv y) ↔ x = -n ∧ y = -1 := by
  have habs : (x.tdiv y).natAbs = x.natAbs / y.natAbs := Int.natAbs_tdiv x y
  have hle : x.natAbs / y.natAbs ≤ x.natAbs := Nat.div_le_self _ _
  constructor
  · intro h
    have hbig : n.natAbs ≤ x.natAbs / y.natAbs := by omega
    have hone : y.natAbs = 1 := by
      rcases Nat.lt_or_ge y.natAbs 2 with hlt | htwo
      · omega
      · have hhalf : x.natAbs / y.natAbs ≤ x.natAbs / 2 := Nat.div_le_div_left htwo (by decide)
        omega
    have hxn : x = -n := by
      rw [hone, Nat.div_one] at hbig
      omega
    refine ⟨hxn, ?_⟩
    rcases (by omega : y = 1 ∨ y = -1) with rfl | rfl
    · rw [Int.tdiv_one] at h
      omega
    · rfl
  · rintro ⟨rfl, rfl⟩
    right
    rw [Int.tdiv_neg, Int.tdiv_one]
    omega

theorem divideSigned_runs (hc : IsWork c) (himm : x.isImm = false) (hbits : x.bits = width c)
    (hax : (m.regs .rax).setWidth (width c) = ofInt (width c) a)
    (hdx : (m.regs .rdx).setWidth (width c)
      = if ((m.regs .rax).setWidth (width c)).msb then BitVec.allOnes (width c) else 0)
    (hx : x.read m (width c) = some (ofInt (width c) b)) :
    Divided m c (quotient (width c) true a b) (runLines [.ins .idiv [x]] m) := by
  have hpos : 0 < width c := by have := hc.bounds; omega
  have hdividend : ((m.regs .rdx).setWidth (width c) ++ (m.regs .rax).setWidth (width c)).toInt
      = (ofInt (width c) a).toInt := by
    rw [hdx, toInt_signFill hpos, hax]
  rw [runLines_factor himm hc hbits hx (fun _ => m.divideSigned) rfl, Machine.divideSigned,
    hdividend, quotient, wrapTo_true, wrapTo_true]
  by_cases hzero : ofInt (width c) b = 0
  · rw [if_pos (Or.inl hzero), hzero, if_pos (Or.inl (by simp))]
    exact rfl
  · have hne : (ofInt (width c) b).toInt ≠ 0 := by
      intro h
      refine hzero (BitVec.eq_of_toInt_eq ?_)
      rw [h]
      simp
    have hlow := BitVec.le_toInt (ofInt (width c) a)
    have hhigh := BitVec.toInt_lt (x := ofInt (width c) a)
    have hoverflow := tdiv_overflow (y := (ofInt (width c) b).toInt)
      (Int.pow_pos (by decide)) ⟨hlow, hhigh⟩ hne
    by_cases hfault : (ofInt (width c) a).toInt = -2 ^ (width c - 1) ∧
        (ofInt (width c) b).toInt = -1
    · rw [if_pos (Or.inr (hoverflow.mpr hfault)), if_pos (Or.inr ⟨rfl, hfault⟩)]
      exact rfl
    · rw [if_neg (not_or.mpr ⟨hzero, fun h => hfault (hoverflow.mp h)⟩),
        if_neg (not_or.mpr ⟨hne, fun h => hfault h.2⟩)]
      exact ⟨_, rfl, m.setPair_same _ _, Machine.setPair_low hc.bounds.2 _ _ _⟩

/-- The sign of `rax` is put into `rdx`. -/
theorem signFill_runs (m : Machine) (hc : IsWork c) :
    ∃ m', runLines [.ins (if c == 64 then .cqo else .cdq) []] m = .next m' ∧ m.SameBut (· = .rdx) m' ∧
      (m'.regs .rdx).setWidth (width c)
        = if ((m'.regs .rax).setWidth (width c)).msb then BitVec.allOnes (width c) else 0 := by
  have hax : (m.signFill (width c)).regs .rax = m.regs .rax := m.setReg_of_ne _ _ (by decide)
  refine ⟨m.signFill (width c), ?_, m.setReg_sameBut _ _, ?_⟩
  · rcases hc with rfl | rfl <;> rfl
  · rw [hax, Machine.signFill, Machine.setReg_self, setWidth_merge hc.bounds.2]

/-! ## Comparisons -/

/-- The integer that a word is, with or without a sign. -/
def asInt {w : Nat} (signed : Bool) (v : BitVec w) : Int := if signed then v.toInt else v.toNat

theorem asInt_ofInt (signed : Bool) (x : Int) : asInt signed (ofInt w x) = wrapTo w signed x := by
  cases signed with
  | true => exact (wrapTo_true w x).symm
  | false => exact (wrapTo_false w x).symm

theorem asInt_inj {signed : Bool} {x y : BitVec w} : asInt signed x = asInt signed y ↔ x = y := by
  cases signed with
  | true => exact BitVec.toInt_inj
  | false => exact Int.ofNat_inj.trans BitVec.toNat_inj

/-- The signs of a difference and of its overflow tell which word is less. -/
theorem sign_ne_overflow (hw : 0 < w) (x y : BitVec w) :
    ((Flags.ofSub x y).sign != (Flags.ofSub x y).overflow) = decide (x.toInt < y.toInt) := by
  obtain ⟨n, hn⟩ : ∃ n, 2 ^ (w - 1) = n := ⟨_, rfl⟩
  have hpow : 2 ^ w = 2 * n := by
    rw [← hn, ← Nat.pow_succ', Nat.succ_eq_add_one, Nat.sub_add_cancel hw]
  have hx := x.isLt
  have hy := y.isLt
  have hsub : (x - y).toNat = if y.toNat ≤ x.toNat then x.toNat - y.toNat
      else 2 * n - y.toNat + x.toNat := by
    rw [BitVec.toNat_sub, hpow]
    split
    · rw [show 2 * n - y.toNat + x.toNat = x.toNat - y.toNat + 2 * n by omega, Nat.add_mod_right]
      exact Nat.mod_eq_of_lt (by omega)
    · exact Nat.mod_eq_of_lt (by omega)
  have hint : ∀ v : BitVec w, v.toInt = if n ≤ v.toNat then (v.toNat : Int) - 2 * n else v.toNat := by
    intro v
    rw [BitVec.toInt_eq_toNat_cond, hpow]
    split <;> split <;> omega
  show ((x - y).msb != (x.msb != y.msb && (x - y).msb != x.msb)) = _
  rw [BitVec.msb_eq_decide, BitVec.msb_eq_decide, BitVec.msb_eq_decide, hn, hsub, hint, hint]
  by_cases hxn : n ≤ x.toNat <;> by_cases hyn : n ≤ y.toNat <;> by_cases hle : y.toNat ≤ x.toNat <;>
    simp [hxn, hyn, hle] <;> omega

/-- What a comparison of two operands leaves in the flags. -/
theorem compare_runs {y : Operand} (himm : x.isImm = false) (hmem : (x.isMem && y.isMem) = false)
    (hbits : x.bits = w) (hx : x.read m w = some (ofInt w a))
    (hy : y.source m w = some (ofInt w b)) :
    runLines [.ins .cmp [x, y]] m
      = .next { m with flags := some (.ofSub (ofInt w a) (ofInt w b)) } := by
  subst hbits
  have hcompare : m.compare x y
      = some { m with flags := some (.ofSub (ofInt x.bits a) (ofInt x.bits b)) } := by
    show (x.read m x.bits).bind _ = _
    rw [hx]
    rw [hy]
    rfl
  have hexec : (Line.ins .cmp [x, y]).exec m = Exit.ofOption (m.compare x y) := by
    show (if x.isImm || x.isMem && y.isMem then Exit.stuck else _) = _
    rw [himm, hmem]
    rfl
  rw [runLines, hexec, hcompare]
  rfl

end TreeAsm.Asm
