import Mathlib.Algebra.Order.Ring.Int
import TreeAsm.Emit.Frame

/-!
# Sizes of frames

Every slot is a whole number of words, at least one. Slots are numbered, the variables first, and lie
one below the other: as natural numbers their ends are sums of their sizes (`slotEnd`), the size of a
frame is the sum of all (`frameBytes`), and the machine integers of a frame are these sums, cut to 64
bits (`ofFunc_slots`). The room that is reserved is the sum with padding to a multiple of 16 bytes,
counted with the saved registers.
-/

namespace TreeAsm.Emit

open Asm (Reg)
open Ir
open Frame (ofFunc placeSlots slotSize)

/-- The bytes of the slot for values of a type. -/
def slotBytes (u : Universe) (t : Ty) : Nat := (slotSize u t).toNatClampNeg

/-- The bytes of the slots for values of some types. -/
def slotsBytes (u : Universe) (ts : List Ty) : Nat := (ts.map (slotBytes u)).sum

/-- The bytes of the slots up to slot `k`. -/
def slotEnd (u : Universe) (ts : List Ty) (k : Nat) : Nat := slotsBytes u (ts.take (k + 1))

/-- The types of the slots of a function: those of its variables, then those of its temporaries. -/
def slotTypes (f : Func) : List Ty := f.locals.map (·.type) ++ f.temps.map (·.type)

/-- The bytes of the slots of a function. -/
def frameBytes (u : Universe) (f : Func) : Nat :=
  slotsBytes u (f.locals.map (·.type) ++ f.temps.map (·.type))

/-- Rounding a size up to words does not overflow, because it is a number of bits divided by 8. -/
theorem slotSize_toInt (u : Universe) (t : Ty) : 8 ≤ (slotSize u t).toInt ∧ (slotSize u t).toInt % 8 = 0 ∧
      (u.size t).toInt ≤ (slotSize u t).toInt := by
  have hsize : (u.size t).toInt ≤ 2 ^ 60 := by
    have hlt := (u.bits t).toInt_lt
    have hle := (u.bits t).le_toInt
    rw [Universe.size, Int64.toInt_div, show (8 : Int64).toInt = 8 from rfl]
    have hquot : -2 ^ 60 ≤ (u.bits t).toInt.tdiv 8 ∧ (u.bits t).toInt.tdiv 8 ≤ 2 ^ 60 := by
      rw [Int.tdiv_eq_ediv, show Int.sign 8 = 1 from rfl]
      split <;> omega
    rw [Int.bmod_eq_of_le (by omega) (by omega)]
    exact hquot.2
  have hround : ∀ n : Int64, 1 ≤ n.toInt → n.toInt ≤ 2 ^ 60 →
      8 ≤ (roundUp n 8).toInt ∧ (roundUp n 8).toInt % 8 = 0 ∧ n.toInt ≤ (roundUp n 8).toInt := by
    intro n hlow hhigh
    have hadd : (n + 8).toInt = n.toInt + 8 := by
      rw [Int64.toInt_add, show (8 : Int64).toInt = 8 from rfl, Int.bmod_eq_of_le (by omega) (by omega)]
    have hsub : (n + 8 - 1).toInt = n.toInt + 7 := by
      rw [Int64.toInt_sub, hadd, show (1 : Int64).toInt = 1 from rfl,
        Int.bmod_eq_of_le (by omega) (by omega)]
      omega
    have hdiv : ((n + 8 - 1) / 8).toInt = (n.toInt + 7) / 8 := by
      rw [Int64.toInt_div, hsub, show (8 : Int64).toInt = 8 from rfl,
        Int.tdiv_eq_ediv_of_nonneg (by omega), Int.bmod_eq_of_le (by omega) (by omega)]
    have hmul : (roundUp n 8).toInt = (n.toInt + 7) / 8 * 8 := by
      rw [roundUp, Int64.toInt_mul, hdiv, show (8 : Int64).toInt = 8 from rfl,
        Int.bmod_eq_of_le (by omega) (by omega)]
    omega
  unfold slotSize
  split
  next hone =>
    have hlow : (1 : Int64).toInt < (u.size t).toInt := Int64.lt_iff_toInt_lt.mp hone
    exact hround _ (Int.le_of_lt hlow) hsize
  next hone =>
    have hhigh := Int64.le_iff_toInt_le.mp (Int64.not_lt.mp hone)
    obtain ⟨hlow, hmod, hle⟩ := hround 1 (by decide) (by decide)
    exact ⟨hlow, hmod, Int.le_trans hhigh hle⟩

theorem slotSize_eq (u : Universe) (t : Ty) :
    slotSize u t = Int64.ofNat (slotBytes u t) ∧ 8 ≤ slotBytes u t ∧ slotBytes u t % 8 = 0 ∧
      (slotSize u t).toInt = slotBytes u t := by
  obtain ⟨hlow, hmod, -⟩ := slotSize_toInt u t
  have hcast : (slotBytes u t : Int) = (slotSize u t).toInt := by
    unfold slotBytes
    rw [Int64.toNatClampNeg]
    exact Int.toNat_of_nonneg (by omega)
  refine ⟨?_, by omega, by omega, hcast.symm⟩
  rw [← Int64.ofInt_eq_ofNat, hcast, Int64.ofInt_toInt]

variable {k l : Nat} {ts : List Ty}

theorem slotsBytes_cons (u : Universe) (t : Ty) (ts : List Ty) :
    slotsBytes u (t :: ts) = slotBytes u t + slotsBytes u ts := by
  simp [slotsBytes]

theorem slotsBytes_mod (u : Universe) (ts : List Ty) : slotsBytes u ts % 8 = 0 := by
  induction ts with
  | nil => rfl
  | cons t ts ih =>
    have hmod := (slotSize_eq u t).2.2.1
    rw [slotsBytes_cons]
    omega

theorem slotsBytes_take (u : Universe) (ts : List Ty) (k : Nat) :
    slotsBytes u (ts.take k) ≤ slotsBytes u ts := by
  have hsplit := congrArg (slotsBytes u) (List.take_append_drop k ts)
  rw [slotsBytes, List.map_append, List.sum_append] at hsplit
  exact Nat.le.intro hsplit

/-- A slot ends as many bytes after the slots before it as it has. -/
theorem slotEnd_eq (u : Universe) (hk : k < ts.length) :
    slotEnd u ts k = slotsBytes u (ts.take k) + slotBytes u (ts.get ⟨k, hk⟩) := by
  rw [slotEnd, List.take_add_one, List.getElem?_eq_getElem hk, slotsBytes, List.map_append, List.sum_append]
  rfl

theorem slotEnd_le_take (u : Universe) (ts : List Ty) (h : k < l) :
    slotEnd u ts k ≤ slotsBytes u (ts.take l) := by
  have hle := slotsBytes_take u (ts.take l) (k + 1)
  rwa [List.take_take, Nat.min_eq_left h] at hle

theorem slotEnd_ge (u : Universe) (hk : k < ts.length) : slotsBytes u (ts.take k) + 8 ≤ slotEnd u ts k := by
  rw [slotEnd_eq u hk]
  exact Nat.add_le_add_left (slotSize_eq u _).2.1 _

/-- Slots lie one below the other, from the size on that is already taken. -/
theorem placeSlots_eq (u : Universe) (ts : List Ty) (size : Nat) : placeSlots u ts (.ofNat size)
      = ((List.range ts.length).map fun k => -.ofNat (size + slotEnd u ts k),
        .ofNat (size + slotsBytes u ts)) := by
  induction ts generalizing size with
  | nil => simp [placeSlots, slotsBytes]
  | cons t ts ih =>
    have hnext : Int64.ofNat size + slotSize u t = Int64.ofNat (size + slotBytes u t) := by
      rw [(slotSize_eq u t).1, Int64.ofNat_add]
    have hslot : ∀ k, slotEnd u (t :: ts) (k + 1) = slotBytes u t + slotEnd u ts k :=
      fun _ => slotsBytes_cons u t _
    simp only [placeSlots, hnext, ih, slotsBytes_cons, List.length_cons,
      List.range_succ_eq_map, List.map_cons, List.map_map, Function.comp_def, hslot, Nat.add_assoc]
    rfl

theorem placeSlots_append (u : Universe) (xs ys : List Ty) (size : Int64) : placeSlots u (xs ++ ys) size
      = ((placeSlots u xs size).1 ++ (placeSlots u ys (placeSlots u xs size).2).1,
        (placeSlots u ys (placeSlots u xs size).2).2) := by
  induction xs generalizing size with
  | nil => rfl
  | cons x xs ih =>
    rw [List.cons_append, placeSlots, ih]
    rfl

section

variable (u : Universe) (f : Func) (align : Int64)

theorem ofFunc_slots : (ofFunc u f align).locals ++ (ofFunc u f align).temps
        = (List.range (slotTypes f).length).map (fun k => -.ofNat (slotEnd u (slotTypes f) k)) ∧
      (ofFunc u f align).size = .ofNat (frameBytes u f) := by
  have hall := placeSlots_eq u (slotTypes f) 0
  rw [slotTypes, placeSlots_append] at hall
  simp only [Nat.zero_add] at hall
  exact Prod.mk.inj hall

theorem ofFunc_locals_length : (ofFunc u f align).locals.length = f.locals.length := by
  show (placeSlots u (f.locals.map (·.type)) (.ofNat 0)).1.length = _
  rw [placeSlots_eq, List.length_map, List.length_range, List.length_map]

theorem ofFunc_temps_length : (ofFunc u f align).temps.length = f.temps.length := by
  have hall := congrArg List.length (ofFunc_slots u f align).1
  rw [List.length_append, ofFunc_locals_length, List.length_map, List.length_range] at hall
  simpa [slotTypes] using hall

/-- Every slot is a word or more below the base of the slots, and within the frame. -/
theorem ofFunc_slot {x : Int64} (hx : x ∈ (ofFunc u f align).locals ++ (ofFunc u f align).temps) :
    ∃ c, x = -Int64.ofNat c ∧ 8 ≤ c ∧ c ≤ frameBytes u f := by
  rw [(ofFunc_slots u f align).1] at hx
  obtain ⟨k, hk, rfl⟩ := List.mem_map.mp hx
  have hend := slotEnd_ge u (List.mem_range.mp hk)
  exact ⟨_, rfl, by omega, slotsBytes_take u (slotTypes f) (k + 1)⟩

end

/-- The padding brings a number, even a negative one, to a multiple of 16. -/
theorem padding_spec (n : Int64) :
    ∃ p : Nat, (16 - n % 16) % 16 = Int64.ofNat p ∧ p < 16 ∧ (n.toInt + p) % 16 = 0 := by
  have htmod : n.toInt.tmod 16 = n.toInt % 16 ∨ n.toInt.tmod 16 = n.toInt % 16 - 16 ∧ n.toInt % 16 ≠ 0 := by
    rw [Int.tmod_eq_emod]
    split
    · exact .inl (by omega)
    · exact .inr ⟨by omega, by omega⟩
  have hsub : (16 - n % 16).toInt = 16 - n.toInt.tmod 16 := by
    rw [Int64.toInt_sub, Int64.toInt_mod, show (16 : Int64).toInt = 16 from rfl,
      Int.bmod_eq_of_le (by omega) (by omega)]
  have hpad : ((16 - n % 16) % 16).toInt = (16 - n.toInt.tmod 16) % 16 := by
    rw [Int64.toInt_mod, hsub, show (16 : Int64).toInt = 16 from rfl, Int.tmod_eq_emod_of_nonneg (by omega)]
  refine ⟨((16 - n.toInt.tmod 16) % 16).toNat, ?_, by omega, by omega⟩
  rw [← Int64.ofInt_eq_ofNat, Int.toNat_of_nonneg (by omega), ← hpad, Int64.ofInt_toInt]

/-- The room for the slots: their bytes and at most one word of padding, so that with the saved
registers it is a multiple of 16. -/
theorem reserve_spec {fr : Frame} {bytes : Nat} (hsize : fr.size = Int64.ofNat bytes)
    (hmod : bytes % 8 = 0) (halign : fr.align = 16) :
    ∃ n, fr.reserve = .ok (Int64.ofNat n) ∧ bytes ≤ n ∧ n ≤ bytes + 8 ∧
      (n + 8 * fr.saved.length) % 16 = 0 := by
  obtain ⟨p, hp, hlt, hdvd⟩ := padding_spec (Int64.ofNat (bytes + 8 * fr.saved.length))
  have hused : fr.size + 8 * Int64.ofNat fr.saved.length = Int64.ofNat (bytes + 8 * fr.saved.length) := by
    rw [hsize, Int64.ofNat_add, Int64.ofNat_mul]
    rfl
  have hcongr : (Int64.ofNat (bytes + 8 * fr.saved.length)).toInt % 16
      = ((bytes + 8 * fr.saved.length : Nat) : Int) % 16 := by
    rw [← Int64.ofInt_eq_ofNat, Int64.toInt_ofInt]
    have hdvd : (16 : Int) ∣ (Int64.size : Nat) := by decide
    rw [← Int.emod_emod_of_dvd _ hdvd, Int.bmod_emod, Int.emod_emod_of_dvd _ hdvd]
  refine ⟨bytes + p, ?_, by omega, by omega, by omega⟩
  unfold Frame.reserve
  rw [halign, if_neg (by decide)]
  simp only [hused]
  rw [hp, hsize, Int64.ofNat_add]

end TreeAsm.Emit
