import TreeAsm.Proofs.Asm.Move
import TreeAsm.Proofs.Ir.Exec

/-!
# Values that fit a register

The numbers and addresses that a program can name have 8, 16, 32 or 64 bits (`Universe.isScalar`), and
those with a sign have 32 at least. Their values are computed at 32 or 64 bits, which is no less than
they have, and numbers are brought into the range of a type by their lowest bits (`truncate_eq`).
-/

namespace TreeAsm

open Asm (IsWidth IsWork width)
open Emit (checkScalar isSigned scalarBits truncate work workBits)

/-- Whether the values of a type are numbers or addresses that fit a register. -/
def Universe.isScalar (u : Universe) : Ty → Bool
  | .byte | .u16 | .int | .u64 | .long | .bool => true
  | .ptr _ => [8, 16, 32, 64].contains u.ptrBits
  | _ => false

/-- A value in the range of a type. -/
def Universe.InRange (u : Universe) (t : Ty) (v : Int) : Prop := u.wrap t v = v

namespace Emit

variable {u : Universe} {t : Ty}

theorem isWidth_of_scalar (h : u.isScalar t) : IsWidth (u.bits t) := by
  cases t with
  | byte | bool => exact .inl rfl
  | u16 => exact .inr (.inl rfl)
  | int => exact .inr (.inr (.inl rfl))
  | u64 | long => exact .inr (.inr (.inr rfl))
  | ptr e => simpa [IsWidth, Universe.isScalar, Universe.bits] using h
  | _ => exact absurd h Bool.false_ne_true

theorem typed_of_scalar (h : u.isScalar t) : t ≠ .untyped := by
  intro ht
  rw [ht] at h
  exact absurd h Bool.false_ne_true

/-- Values with a sign are not narrower than what they are computed at. -/
theorem bits_of_signed (h : u.isScalar t) (hsigned : isSigned t) : u.bits t = 32 ∨ u.bits t = 64 := by
  cases t with
  | int => exact .inl rfl
  | long => exact .inr rfl
  | byte | u16 | u64 | bool | ptr _ => exact absurd hsigned (by simp [isSigned, Ty.signed])
  | _ => exact absurd h Bool.false_ne_true

theorem workBits_isWork (u : Universe) (t : Ty) : IsWork (workBits u t) := by
  unfold workBits
  split
  · exact .inr rfl
  · exact .inl rfl

/-- A type has no more bits than its values are computed at, and these are no more than 64. -/
theorem width_le_work (h : u.isScalar t) : u.width t ≤ width (workBits u t) := by
  unfold Universe.width workBits
  rcases isWidth_of_scalar h with h | h | h | h <;> rw [h] <;> decide

theorem width_work (h : u.isScalar t) : width (workBits u t) = u.workWidth t := by
  unfold Universe.workWidth Universe.width workBits
  rcases isWidth_of_scalar h with h | h | h | h <;> rw [h] <;> decide

theorem width_bytes (h : u.isScalar t) : 8 ∣ u.width t ∧ u.width t ≤ 64 :=
  (isWidth_of_scalar h).bytes

theorem work_eq (h : u.isScalar t) : work u t = .ok (workBits u t) :=
  if_neg (typed_of_scalar h)

theorem eq_of_work {w : Int64} (h : work u t = .ok w) : w = workBits u t := by
  unfold work at h
  split at h
  · cases h
  · exact (Except.ok.inj h).symm

theorem checkScalar_eq (h : u.isScalar t) : checkScalar u t = .ok () := by
  have hrecord : t.isRecord = false := by
    cases t with
    | byte | u16 | int | u64 | long | bool | ptr _ => simp [Ty.isRecord, Ty.name]
    | _ => exact absurd h Bool.false_ne_true
  have htyped : (t == .untyped) = false := beq_eq_false_iff_ne.mpr (typed_of_scalar h)
  unfold checkScalar Universe.isVoid
  rw [hrecord, htyped]
  rcases isWidth_of_scalar h with h | h | h | h <;> rw [h] <;> rfl

theorem scalarBits_eq (h : u.isScalar t) : scalarBits u t = u.bits t := by
  rw [scalarBits, checkScalar_eq h]

/-! ## Ranges -/

theorem wrap_inRange (u : Universe) (t : Ty) (v : Int) : u.InRange t (u.wrap t v) :=
  wrapTo_wrapTo (Nat.le_refl _) _ _ v

/-- A value in the range of a type is in the range of the width that it is computed at. -/
theorem InRange.atWork (h : u.isScalar t) {v : Int} (hv : u.InRange t v) :
    wrapTo (width (workBits u t)) (isSigned t) v = v :=
  wrapTo_of_le (width_le_work h) hv

/-- The words of a value and of what it is brought into range from agree up to the width of the type. -/
theorem ofInt_wrap {w : Nat} (hw : w ≤ u.width t) (v : Int) :
    BitVec.ofInt w (u.wrap t v) = BitVec.ofInt w v := ofInt_wrapTo hw _ v

/-- A value may be cut to the width that it is computed at before it is brought into range. -/
theorem wrap_wrapTo_work (h : u.isScalar t) (signed : Bool) (v : Int) :
    u.wrap t (wrapTo (width (workBits u t)) signed v) = u.wrap t v :=
  wrapTo_wrapTo (width_le_work h) _ _ v

/-- The same for a number that is kept in 64 bits. -/
theorem wrap_toInt_ofInt (h : u.isScalar t) (v : Int) : u.wrap t (Int64.ofInt v).toInt = u.wrap t v := by
  rw [Int64.toInt_ofInt]
  exact wrapTo_wrapTo (width_bytes h).2 _ true v

/-- A value of a type that is no wider needs no more than its own bits at the width of computing. -/
theorem ofInt_wrap_work {t' : Ty} (h : u.isScalar t) (h' : u.isScalar t') {v : Int}
    (hv : u.InRange t' v) (hle : u.bits t' ≤ u.bits t) :
    BitVec.ofInt (width (workBits u t)) (u.wrap t v) = BitVec.ofInt (width (workBits u t)) v := by
  by_cases hwide : u.bits t = 32 ∨ u.bits t = 64
  · refine ofInt_wrap ?_ v
    unfold workBits Universe.width
    rcases hwide with h | h <;> rw [h] <;> decide
  · -- neither type has a sign
    have hbits := isWidth_of_scalar h
    have hbits' := isWidth_of_scalar h'
    have hsigned : isSigned t = false := by
      rw [← Bool.not_eq_true]
      exact fun hs => hwide (bits_of_signed h hs)
    have hnarrow : ¬ (u.bits t' = 32 ∨ u.bits t' = 64) := by
      intro hwide'
      rcases hbits with h | h | h | h <;> rcases hwide' with h' | h' <;> rw [h, h'] at hle <;>
        first
          | exact absurd hle (by decide)
          | exact hwide (by simp [h])
    have hsigned' : isSigned t' = false := by
      rw [← Bool.not_eq_true]
      exact fun hs => hnarrow (bits_of_signed h' hs)
    have hwidth : u.width t' ≤ u.width t := by
      unfold Universe.width
      rcases hbits with h | h | h | h <;> rcases hbits' with h' | h' | h' | h' <;>
        rw [h, h'] at hle ⊢ <;> revert hle <;> decide
    have hrange : wrapTo (u.width t') false v = v := by
      rw [← hsigned']
      exact hv
    have hsame : u.wrap t v = v := by
      show wrapTo (u.width t) (isSigned t) v = v
      rw [hsigned]
      exact wrapTo_of_le hwidth hrange
    rw [hsame]

/-! ## Truncation -/

/-- The lowest bits of a number of 64 bits. -/
theorem toInt_and_mask {k : Nat} (hk : k < 64) {mask : Int64} (hmask : mask.toBitVec.toNat = 2 ^ k - 1)
    (v : Int64) : (v &&& mask).toInt = wrapTo k false v.toInt := by
  have hnat : (v &&& mask).toBitVec.toNat = v.toBitVec.toNat % 2 ^ k := by
    rw [Int64.toBitVec_and, BitVec.toNat_and, hmask, Nat.and_two_pow_sub_one_eq_mod]
  have hlt : 2 * (v &&& mask).toBitVec.toNat < 2 ^ 64 := by
    have hmod : v.toBitVec.toNat % 2 ^ k < 2 ^ k := Nat.mod_lt _ (Nat.two_pow_pos k)
    have hpow : 2 ^ (k + 1) ≤ 2 ^ 64 := Nat.pow_le_pow_right (by decide) (by omega)
    rw [Nat.pow_succ] at hpow
    omega
  have hlow : BitVec.ofInt k v.toInt = v.toBitVec.setWidth k := by
    rw [← setWidth_ofInt (show k ≤ 64 by omega), ← Int64.toInt_toBitVec, BitVec.ofInt_toInt]
  rw [wrapTo_false, hlow, BitVec.toNat_setWidth, ← hnat, ← Int64.toInt_toBitVec,
    BitVec.toInt_eq_toNat_cond, if_pos hlt]

/-- The highest of the lowest `k` bits tells whether they are a negative number. -/
theorem and_sign_ne_zero {k : Nat} (hk : 0 < k) (hk' : k < 64) {sign low : Int64}
    (hsign : sign.toBitVec = BitVec.twoPow 64 (k - 1)) (hlow : 0 ≤ low.toInt) (hlow' : low.toInt < 2 ^ k) :
    (low &&& sign != 0) = decide ((2 : Int) ^ (k - 1) ≤ low.toInt) := by
  have hnat : low.toInt = low.toBitVec.toNat := by
    rw [← Int64.toInt_toBitVec, BitVec.toInt_eq_toNat_cond]
    rw [← Int64.toInt_toBitVec, BitVec.toInt_eq_toNat_cond] at hlow
    have hlt := low.toBitVec.isLt
    split at hlow
    · rw [if_pos ‹_›]
    · omega
  have hbound : low.toBitVec.toNat < 2 ^ (k - 1 + 1) := by
    rw [Nat.sub_add_cancel hk]
    rw [hnat] at hlow'
    exact_mod_cast hlow'
  have hand : (low &&& sign).toBitVec
      = if low.toBitVec.toNat.testBit (k - 1) then BitVec.twoPow 64 (k - 1) else 0 := by
    rw [Int64.toBitVec_and, hsign, BitVec.and_twoPow]
    rfl
  have htwoPow : BitVec.twoPow 64 (k - 1) ≠ 0 := by
    intro h
    have hval := congrArg BitVec.toNat h
    rw [BitVec.toNat_twoPow_of_lt (by omega)] at hval
    exact absurd hval (Nat.ne_of_gt (Nat.two_pow_pos _))
  have hzero : low &&& sign = 0 ↔ (low &&& sign).toBitVec = 0 := Int64.toBitVec_inj.symm
  have hle : (2 : Int) ^ (k - 1) ≤ low.toInt ↔ 2 ^ (k - 1) ≤ low.toBitVec.toNat := by
    rw [hnat]
    exact_mod_cast Iff.rfl
  rw [Bool.eq_iff_iff, bne_iff_ne, Ne, hzero, decide_eq_true_iff, hle, hand]
  by_cases hbit : 2 ^ (k - 1) ≤ low.toBitVec.toNat
  · rw [Nat.testBit_of_two_pow_le_and_two_pow_add_one_gt hbit hbound, if_pos rfl]
    exact iff_of_true htwoPow hbit
  · rw [Nat.testBit_lt_two_pow (by omega), if_neg Bool.false_ne_true]
    exact iff_of_false (fun h => h rfl) hbit

/-- Truncation to the lowest `k` bits, with a sign or without. -/
theorem truncate_bits {k : Nat} (hk : 0 < k) (hk' : k < 64) {mask sign modulus : Int64}
    (hmask : mask.toBitVec.toNat = 2 ^ k - 1) (hsign : sign.toBitVec = BitVec.twoPow 64 (k - 1))
    (hmod : modulus = Int64.ofInt (2 ^ k)) (signed : Bool) (v : Int64) :
    (if signed && v &&& mask &&& sign != 0 then (v &&& mask) - modulus else v &&& mask)
      = Int64.ofInt (wrapTo k signed v.toInt) := by
  have hlow := toInt_and_mask hk' hmask v
  have hpos : (0 : Int) < 2 ^ k := Int.pow_pos (by decide)
  have hrange : 0 ≤ (v &&& mask).toInt ∧ (v &&& mask).toInt < 2 ^ k := by
    rw [hlow, wrapTo, if_neg Bool.false_ne_true]
    exact ⟨Int.emod_nonneg _ (by omega), Int.emod_lt_of_pos _ hpos⟩
  cases signed with
  | false =>
    rw [Bool.false_and, if_neg Bool.false_ne_true, ← hlow, Int64.ofInt_toInt]
  | true =>
    have hhalf : (2 : Int) ^ k = 2 * 2 ^ (k - 1) := by
      rw [Int.mul_comm, ← Int.pow_succ, Nat.succ_eq_add_one, Nat.sub_add_cancel hk]
    have hbmod : wrapTo k true v.toInt = (v &&& mask).toInt.bmod (2 ^ k) := by
      rw [hlow]
      exact (wrapTo_wrapTo (Nat.le_refl k) true false v.toInt).symm
    have hself : (v &&& mask).toInt % ((2 ^ k : Nat) : Int) = (v &&& mask).toInt := by
      rw [Int.natCast_pow]
      exact Int.emod_eq_of_lt hrange.1 hrange.2
    have hcast : ((2 ^ k : Nat) : Int) = 2 ^ k := by
      rw [Int.natCast_pow]
      rfl
    rw [Bool.true_and, and_sign_ne_zero hk hk' hsign hrange.1 hrange.2, hbmod, Int.bmod_def, hself, hcast]
    by_cases hneg : (2 : Int) ^ (k - 1) ≤ (v &&& mask).toInt
    · rw [if_pos (decide_eq_true hneg), if_neg (by omega), Int64.ofInt_sub, Int64.ofInt_toInt, hmod]
    · rw [if_neg (by simpa using hneg), if_pos (by omega), Int64.ofInt_toInt]

/-- Shifts of one by fewer than 64 places; by 63 places it becomes the least number. -/
theorem one_shiftLeft : ∀ j : Fin 64, 0 < j.val →
    ((1 <<< Int64.ofNat j) - 1 : Int64).toBitVec.toNat = 2 ^ j.val - 1 ∧
    ((1 : Int64) <<< (Int64.ofNat j - 1)).toBitVec = BitVec.twoPow 64 (j - 1) ∧
    (1 : Int64) <<< Int64.ofNat j = Int64.ofInt (2 ^ j.val) := by
  decide

theorem truncate_of_64 (h : u.bits t = 64) (v : Int64) : truncate u v t = v := by
  unfold truncate
  rw [h]
  rfl

theorem truncate_eq_wrapTo {k : Nat} (hk : 0 < k) (hk' : k ≤ 64) (hbits : (u.bits t).toInt = k)
    (v : Int64) : truncate u v t = Int64.ofInt (wrapTo k (isSigned t) v.toInt) := by
  have hofNat : u.bits t = Int64.ofNat k := by
    rw [← Int64.ofInt_toInt (u.bits t), hbits, Int64.ofInt_eq_ofNat]
  rcases Nat.lt_or_eq_of_le hk' with hlt | rfl
  · have hin : ∀ j : Fin 64, 0 < j.val →
        (Int64.ofNat j ≤ 0 || Int64.ofNat j ≥ 64 : Bool) = false := by decide
    obtain ⟨hmask, hsign, hmod⟩ := one_shiftLeft ⟨k, hlt⟩ hk
    unfold truncate
    rw [hofNat, if_neg (ne_true_of_eq_false (hin ⟨k, hlt⟩ hk))]
    exact truncate_bits hk hlt hmask hsign hmod _ v
  · rw [truncate_of_64 hofNat]
    refine (Int64.ofInt_toInt v).symm.trans ?_
    rw [← Int64.toBitVec_inj, Int64.toBitVec_ofInt, Int64.toBitVec_ofInt]
    exact (ofInt_wrapTo (Nat.le_refl 64) _ _).symm

/-- Truncation brings a number into the range of a type. -/
theorem truncate_eq (h : u.isScalar t) (v : Int64) : truncate u v t = Int64.ofInt (u.wrap t v.toInt) := by
  have hwidth : (u.bits t).toInt = u.width t ∧ 0 < u.width t ∧ u.width t ≤ 64 := by
    unfold Universe.width
    rcases isWidth_of_scalar h with h | h | h | h <;> rw [h] <;> decide
  exact truncate_eq_wrapTo hwidth.2.1 hwidth.2.2 hwidth.1 v

/-- Truncation to a type of fewer than 64 bits gives the one number in the range of the type that has
the same lowest bits, and at 64 bits it changes nothing. Hence it changes nothing the second time, and
a truncation to a wider type before it makes no difference. -/
theorem truncate_wraps (u : Universe) (v : Int64) (t : Ty) :
    (∀ k : Nat, 0 < k → k < 64 → (u.bits t).toInt = k → ∀ x : Int,
      (truncate u v t).toInt = x ↔ (2 : Int) ^ k ∣ x - v.toInt ∧
        if t.signed && !t.isPtr then -2 ^ (k - 1) ≤ x ∧ x < 2 ^ (k - 1) else 0 ≤ x ∧ x < 2 ^ k) ∧
    (u.bits t = 64 → truncate u v t = v) ∧
    truncate u (truncate u v t) t = truncate u v t ∧
    ∀ t' : Ty, 0 < u.bits t → u.bits t ≤ u.bits t' → u.bits t' ≤ 64 →
      truncate u (truncate u v t') t = truncate u v t := by
  have hwider : ∀ t' : Ty, 0 < u.bits t → u.bits t ≤ u.bits t' → u.bits t' ≤ 64 →
      truncate u (truncate u v t') t = truncate u v t := by
    intro t' hpos hle hle'
    rw [Int64.lt_iff_toInt_lt, Int64.toInt_zero] at hpos
    rw [Int64.le_iff_toInt_le] at hle hle'
    have h64 : (64 : Int64).toInt = 64 := rfl
    obtain ⟨k, hbits⟩ := Int.eq_ofNat_of_zero_le (Int.le_of_lt hpos)
    obtain ⟨k', hbits'⟩ := Int.eq_ofNat_of_zero_le (Int.le_trans (Int.le_of_lt hpos) hle)
    rw [truncate_eq_wrapTo (by omega) (by omega) hbits, truncate_eq_wrapTo (by omega) (by omega) hbits,
      truncate_eq_wrapTo (by omega) (by omega) hbits', Int64.toInt_ofInt]
    -- the word that holds the wider number has 64 bits, so it is wrapped three times
    exact congrArg Int64.ofInt ((wrapTo_wrapTo (show k ≤ 64 by omega) _ true _).trans
      (wrapTo_wrapTo (by omega) _ _ _))
  refine ⟨fun k hk hlt hbits x => ?_, fun h => truncate_of_64 h v, ?_, hwider⟩
  · have hfits : wrapTo 64 true (wrapTo k (isSigned t) v.toInt) = wrapTo k (isSigned t) v.toInt := by
      have hself := wrapTo_wrapTo (Nat.le_refl k) (isSigned t) (isSigned t) v.toInt
      cases hsigned : isSigned t with
      | true => exact wrapTo_of_le (Nat.le_of_lt hlt) (hsigned ▸ hself)
      | false => exact wrapTo_true_of_lt hlt (hsigned ▸ hself)
    rw [truncate_eq_wrapTo hk (Nat.le_of_lt hlt) hbits, Int64.toInt_ofInt, ← wrapTo_eq_iff hk]
    exact ⟨fun h => hfits.symm.trans h, fun h => hfits.trans h⟩
  · by_cases hbits : 0 < u.bits t ∧ u.bits t ≤ 64
    · exact hwider t hbits.1 (Int64.le_refl _) hbits.2
    · have hout : (u.bits t ≤ 0 || u.bits t ≥ 64 : Bool) = true := by
        rw [Int64.lt_iff_toInt_lt, Int64.le_iff_toInt_le] at hbits
        rw [Bool.or_eq_true, decide_eq_true_iff, decide_eq_true_iff, ge_iff_le, Int64.le_iff_toInt_le,
          Int64.le_iff_toInt_le]
        omega
      have hsame : ∀ w, truncate u w t = w := fun w => by rw [truncate, if_pos hout]
      rw [hsame]

/-- One bit below the sign of a word: at 63 bits it is the sign, and eight bits are the lowest ones of
a number that has been cut to 63 already. -/
theorem truncate_wraps_signBit :
    let u := Universe.make 64 false
    let t : Ty := .custom 0 ⟨"", 63, true, 8⟩ .untyped
    (truncate u 4611686018427387904 t).toInt = -4611686018427387904 ∧
      truncate u (truncate u (-1) t) .byte = truncate u (-1) .byte :=
  ⟨((truncate_wraps _ _ _).1 63 (by decide) (by decide) (by decide) _).mpr (by decide),
    (truncate_wraps _ _ .byte).2.2.2 _ (by decide) (by decide) (by decide)⟩

end Emit

end TreeAsm
