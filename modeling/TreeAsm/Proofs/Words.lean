import Mathlib.Algebra.Order.Ring.Int

/-!
# Words of different widths

The word of `w` bits that holds an integer is `BitVec.ofInt w`. Cutting a word to fewer bits gives the
narrower word of the same integer, and filling it up with its sign or with zeros gives the wider word
of the integer that the bits are with or without a sign (`wrapTo`). So a number that is in the range
of a width is kept by going to any greater one.
-/

namespace TreeAsm

open BitVec (ofInt)

/-- The integer that the lowest `w` bits of a number are, with or without a sign. -/
def wrapTo (w : Nat) (signed : Bool) (v : Int) : Int :=
  if signed then v.bmod (2 ^ w) else v % 2 ^ w

/-- A word at another width: cut, or filled up with its sign or with zeros. -/
def resize {v : Nat} (signed : Bool) (w : Nat) (x : BitVec v) : BitVec w :=
  if signed then x.signExtend w else x.setWidth w

/-- The lowest bits of the word of an integer. -/
theorem setWidth_ofInt {v w : Nat} (h : v ≤ w) (x : Int) : (ofInt w x).setWidth v = ofInt v x := by
  apply BitVec.eq_of_toInt_eq
  rw [← BitVec.signExtend_eq_setWidth_of_le _ h, BitVec.toInt_signExtend_eq_toInt_bmod_of_le _ h,
    BitVec.toInt_ofInt, BitVec.toInt_ofInt, Int.bmod_bmod_of_dvd (Nat.pow_dvd_pow 2 h)]

theorem wrapTo_false (w : Nat) (x : Int) : wrapTo w false x = ((ofInt w x).toNat : Int) := by
  have hpos : (0 : Int) < 2 ^ w := Int.pow_pos (by decide)
  rw [BitVec.toNat_ofInt, Int.toNat_of_nonneg]
  · rw [wrapTo, if_neg Bool.false_ne_true, Int.natCast_pow]
    rfl
  · rw [Int.natCast_pow]
    exact Int.emod_nonneg _ (Int.ne_of_gt hpos)

theorem wrapTo_true (w : Nat) (x : Int) : wrapTo w true x = (ofInt w x).toInt := by
  rw [BitVec.toInt_ofInt]
  rfl

/-- What the word of an integer is at another width. -/
theorem resize_ofInt (signed : Bool) (v w : Nat) (x : Int) :
    resize signed w (ofInt v x) = ofInt w (wrapTo v signed x) := by
  cases signed with
  | true => rw [wrapTo_true]; rfl
  | false =>
    rw [wrapTo_false, BitVec.ofInt_natCast]
    apply BitVec.eq_of_toNat_eq
    rw [resize, if_neg Bool.false_ne_true, BitVec.toNat_setWidth, BitVec.toNat_ofNat]

/-- Wrapping a number does not change its lowest bits. -/
theorem ofInt_wrapTo {v w : Nat} (h : v ≤ w) (signed : Bool) (x : Int) :
    ofInt v (wrapTo w signed x) = ofInt v x := by
  rw [← setWidth_ofInt h x, ← setWidth_ofInt h (wrapTo w signed x), ← resize_ofInt]
  cases signed with
  | true => rw [resize, if_pos rfl, BitVec.signExtend_eq]
  | false => rw [resize, if_neg Bool.false_ne_true, BitVec.setWidth_eq]

theorem wrapTo_wrapTo {v w : Nat} (h : v ≤ w) (s s' : Bool) (x : Int) :
    wrapTo v s (wrapTo w s' x) = wrapTo v s x := by
  cases s with
  | true => rw [wrapTo_true, wrapTo_true, ofInt_wrapTo h]
  | false => rw [wrapTo_false, wrapTo_false, ofInt_wrapTo h]

/-- A number in the range of a width is in the range of every greater one. -/
theorem wrapTo_of_le {v w : Nat} {signed : Bool} {x : Int} (h : v ≤ w)
    (hx : wrapTo v signed x = x) : wrapTo w signed x = x := by
  have hpow : (2 : Int) ^ v ≤ 2 ^ w := by
    exact_mod_cast Nat.pow_le_pow_right (n := 2) (by decide) h
  cases signed with
  | false =>
    have hv : (0 : Int) < 2 ^ v := Int.pow_pos (by decide)
    rw [wrapTo, if_neg Bool.false_ne_true] at hx ⊢
    have hlow := Int.emod_nonneg x (Int.ne_of_gt hv)
    have hhigh := Int.emod_lt_of_pos x hv
    exact Int.emod_eq_of_lt (by omega) (by omega)
  | true =>
    rw [wrapTo, if_pos rfl] at hx ⊢
    have hcast : ∀ k : Nat, ((2 ^ k : Nat) : Int) = 2 ^ k := fun k => by rw [Int.natCast_pow]; rfl
    have hlow := Int.le_bmod (x := x) (m := 2 ^ v) (Nat.two_pow_pos v)
    have hhigh := Int.bmod_lt (x := x) (m := 2 ^ v) (Nat.two_pow_pos v)
    rw [hcast] at hlow hhigh
    rw [← hx]
    apply Int.bmod_eq_of_le
    · rw [hcast]
      omega
    · rw [hcast]
      omega

/-- A number without a sign is in the range of every greater width with a sign. -/
theorem wrapTo_true_of_lt {k n : Nat} {x : Int} (h : k < n) (hx : wrapTo k false x = x) :
    wrapTo n true x = x := by
  have hk : (0 : Int) < 2 ^ k := Int.pow_pos (by decide)
  rw [wrapTo, if_neg Bool.false_ne_true] at hx
  have hlow := Int.emod_nonneg x (Int.ne_of_gt hk)
  have hhigh := Int.emod_lt_of_pos x hk
  have hpow : (2 : Int) ^ k * 2 ≤ ((2 ^ n : Nat) : Int) := by
    rw [← Int.pow_succ, Int.natCast_pow]
    exact_mod_cast Nat.pow_le_pow_right (n := 2) (by decide) h
  rw [wrapTo, if_pos rfl]
  exact Int.bmod_eq_of_le (by omega) (by omega)

/-- Wrapping gives the one number with the same lowest bits that is in the range of the width. -/
theorem wrapTo_eq_iff {k : Nat} (hk : 0 < k) (signed : Bool) (v x : Int) :
    wrapTo k signed v = x ↔ (2 : Int) ^ k ∣ x - v ∧
      if signed then -2 ^ (k - 1) ≤ x ∧ x < 2 ^ (k - 1) else 0 ≤ x ∧ x < 2 ^ k := by
  have hpos : (0 : Int) < 2 ^ k := Int.pow_pos (by decide)
  cases signed with
  | false =>
    rw [wrapTo, if_neg Bool.false_ne_true, if_neg Bool.false_ne_true]
    constructor
    · rintro rfl
      exact ⟨Int.dvd_emod_sub_self, Int.emod_nonneg _ (Int.ne_of_gt hpos), Int.emod_lt_of_pos _ hpos⟩
    · rintro ⟨⟨c, hc⟩, hrange⟩
      rw [show v = x - 2 ^ k * c by omega, Int.sub_mul_emod_self_left]
      exact Int.emod_eq_of_lt hrange.1 hrange.2
  | true =>
    have hcast : ((2 ^ k : Nat) : Int) = 2 * 2 ^ (k - 1) := by
      rw [Int.natCast_pow, Int.mul_comm, ← Int.pow_succ, Nat.succ_eq_add_one, Nat.sub_add_cancel hk]
      rfl
    have hcast' : ((2 ^ k : Nat) : Int) = 2 ^ k := by rw [Int.natCast_pow]; rfl
    rw [wrapTo, if_pos rfl, if_pos rfl]
    constructor
    · rintro rfl
      have hlow := Int.le_bmod (x := v) (m := 2 ^ k) (Nat.two_pow_pos k)
      have hhigh := Int.bmod_lt (x := v) (m := 2 ^ k) (Nat.two_pow_pos k)
      refine ⟨?_, by omega, by omega⟩
      rw [← hcast']
      exact Int.dvd_bmod_sub_self
    · rintro ⟨⟨c, hc⟩, hrange⟩
      rw [show v = x + ((2 ^ k : Nat) : Int) * -c by rw [hcast', Int.mul_neg]; omega,
        Int.add_mul_bmod_self_left]
      exact Int.bmod_eq_of_le (by omega) (by omega)

theorem ofInt_sub (w : Nat) (x y : Int) : ofInt w (x - y) = ofInt w x - ofInt w y := by
  rw [Int.sub_eq_add_neg, BitVec.ofInt_add, BitVec.ofInt_neg, BitVec.sub_eq_add_neg]

/-- The lowest bits of a number that is kept in 64 bits. -/
theorem ofInt_toInt_ofInt {w : Nat} (h : w ≤ 64) (x : Int) : ofInt w (Int64.ofInt x).toInt = ofInt w x := by
  rw [Int64.toInt_ofInt]
  exact ofInt_wrapTo h true x

end TreeAsm
