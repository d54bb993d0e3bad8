import TreeAsm.Emit.Operand
import TreeAsm.Proofs.Asm.Machine
import TreeAsm.Proofs.Emit.Slots
import TreeAsm.Proofs.Types.Layout

/-!
# Slots lie apart

Every variable and every temporary has a slot of at least eight bytes of its own. Slots are numbered,
the variables first: slot `k` starts as many bytes below the base pointer as the saved registers and
the slots up to `k` take (`Env.depth`). As long as there is room for all of them below the base pointer,
a write to one slot leaves the others as they are (`load_store_place`). Between the saved registers
and the end of the room that is reserved there is a place of its own for each (`ofFunc_separates`).
-/

namespace TreeAsm.Emit

open Asm (Mem Memory Reg)
open Ir

variable {k l : Nat} {base : BitVec 64}

/-! ## Places -/

/-- The number of the slot of a temporary. -/
def tempIndex (f : Func) (id : Nat) : Nat := f.locals.length + id

theorem length_slotTypes (f : Func) : (slotTypes f).length = f.locals.length + f.temps.length := by
  simp [slotTypes]

namespace Env

/-- The frame is that of the function, with some registers saved. -/
def Framed (env : Env) : Prop :=
  env.frame = { Frame.ofFunc env.types env.func Asm.SysV.stackAlign with saved := env.frame.saved }

/-- There is room for the saved registers and the slots below the base pointer. -/
def Fits (env : Env) (base : BitVec 64) : Prop :=
  8 * env.frame.saved.length + frameBytes env.types env.func ≤ base.toNat

/-- How many bytes below the base pointer slot `k` starts. -/
def depth (env : Env) (k : Nat) : Nat :=
  8 * env.frame.saved.length + slotEnd env.types (slotTypes env.func) k

/-- The displacement of slot `k`. -/
def slotAt (env : Env) (k : Nat) : Int64 := -Int64.ofNat (env.depth k)

/-- The address of slot `k`. -/
def place (env : Env) (base : BitVec 64) (k : Nat) : BitVec 64 := base + (env.slotAt k).toBitVec

end Env

variable {env : Env}

theorem biased_slot (env : Env) (c : Nat) :
    -Int64.ofNat c + env.frame.bias = -Int64.ofNat (8 * env.frame.saved.length + c) := by
  rw [Frame.bias, Int64.ofNat_add, Int64.ofNat_mul, Int64.neg_add, Int64.sub_eq_add_neg,
    Int64.add_comm, Int64.neg_mul]
  rfl

theorem Env.Framed.get (h : env.Framed) (hk : k < (slotTypes env.func).length) :
    (env.frame.locals ++ env.frame.temps)[k]?.map (· + env.frame.bias) = some (env.slotAt k) ∧
      env.frame.locals.length = env.func.locals.length := by
  have hslots : env.frame.locals ++ env.frame.temps = (List.range (slotTypes env.func).length).map
      fun k => -.ofNat (slotEnd env.types (slotTypes env.func) k) := by
    rw [h]
    exact (ofFunc_slots env.types env.func Asm.SysV.stackAlign).1
  rw [hslots, List.getElem?_map, List.getElem?_range hk]
  refine ⟨congrArg some (biased_slot env _), ?_⟩
  rw [h]
  exact ofFunc_locals_length env.types env.func Asm.SysV.stackAlign

theorem localSlot?_eq (h : env.Framed) {v : Local} (hv : v.index < env.func.locals.length) :
    env.frame.localSlot? v = some (env.slotAt v.index) := by
  obtain ⟨hget, hlength⟩ := h.get (k := v.index) (by rw [length_slotTypes]; omega)
  rwa [List.getElem?_append_left (by omega)] at hget

theorem tempSlot_eq (h : env.Framed) {t : Temp} (ht : t.id < env.func.temps.length) :
    env.frame.tempSlot t = env.slotAt (tempIndex env.func t.id) := by
  obtain ⟨hget, hlength⟩ := h.get (k := tempIndex env.func t.id)
    (by rw [length_slotTypes, tempIndex]; omega)
  rw [List.getElem?_append_right (by rw [tempIndex]; omega), tempIndex, hlength,
    Nat.add_sub_cancel_left] at hget
  obtain ⟨x, hx, hslot⟩ := Option.map_eq_some_iff.mp hget
  rw [Frame.tempSlot, hx]
  exact hslot

theorem slot_address (m : Asm.Machine) (k : Nat) (bits : Int64) :
    (slot (env.slotAt k) bits).address m = some (env.place (m.regs .rbp) k) := by
  simp [Mem.address, slot, Env.place]

/-! ## Writes -/

theorem depth_le (env : Env) (k : Nat) :
    env.depth k ≤ 8 * env.frame.saved.length + frameBytes env.types env.func :=
  Nat.add_le_add_left (slotsBytes_take env.types (slotTypes env.func) (k + 1)) _

theorem place_toNat (h : env.Fits base) (k : Nat) :
    (env.place base k).toNat = base.toNat - env.depth k := by
  have hdepth : env.depth k ≤ base.toNat := Nat.le_trans (depth_le env k) h
  have hbase := base.isLt
  have hslot : (env.slotAt k).toBitVec = -BitVec.ofNat 64 (env.depth k) := by
    rw [Env.slotAt, Int64.toBitVec_neg, Int64.toBitVec_ofNat']
  rw [Env.place, hslot, ← BitVec.sub_eq_add_neg, BitVec.toNat_sub, BitVec.toNat_ofNat]
  omega

/-- A slot is not touched by a write to another one. -/
theorem load_store_place (h : env.Fits base) (hk : k < (slotTypes env.func).length)
    (hl : l < (slotTypes env.func).length) (hne : k ≠ l) (mem : Memory) {v w : Nat} (hv : 8 ∣ v)
    (hv' : v ≤ 64) (hw : w ≤ 64) (x : BitVec w) :
    (mem.store (env.place base k) x).load v (env.place base l) = mem.load v (env.place base l) := by
  refine Memory.load_store_of_apart mem hv _ _ x fun i hi => ?_
  have hdepth : ∀ j, env.depth j ≤ base.toNat := fun j => Nat.le_trans (depth_le env j) h
  have hlow : ∀ j, j < (slotTypes env.func).length → 8 ≤ env.depth j := by
    intro j hj
    have hend := slotEnd_ge env.types hj
    unfold Env.depth
    omega
  -- the slot with the greater number is the lower one
  have hapart : env.depth k + 8 ≤ env.depth l ∨ env.depth l + 8 ≤ env.depth k := by
    unfold Env.depth
    rcases Nat.lt_or_gt_of_ne hne with hlt | hgt
    · have hends := slotEnd_le_take env.types (slotTypes env.func) hlt
      have hlater := slotEnd_ge env.types hl
      omega
    · have hends := slotEnd_le_take env.types (slotTypes env.func) hgt
      have hlater := slotEnd_ge env.types hk
      omega
  have hdk := hdepth k
  have hdl := hdepth l
  have hlk := hlow k hk
  have hll := hlow l hl
  have hbase := base.isLt
  rw [BitVec.toNat_sub, BitVec.toNat_add, BitVec.toNat_ofNat, place_toNat h k, place_toNat h l]
  omega

/-! ## Frames -/

/-- The slots of a function: one for each variable and one for each temporary. -/
abbrev Slot (f : Func) := Fin f.locals.length ⊕ Fin f.temps.length

namespace Slot

variable {f : Func}

/-- The type of the values in a slot. -/
def type : Slot f → Ty
  | .inl i => (f.locals.get i).type
  | .inr i => (f.temps.get i).type

/-- Where a slot starts. -/
def start? (fr : Frame) : Slot f → Option Int64
  | .inl i => fr.localSlot? { f.locals.get i with index := i }
  | .inr i => some (fr.tempSlot { f.temps.get i with id := i })

/-- The number of a slot. -/
def number : Slot f → Nat
  | .inl i => i
  | .inr i => tempIndex f i

theorem number_inj {p q : Slot f} (h : p.number = q.number) : p = q := by
  rcases p with ⟨i, hi⟩ | ⟨i, hi⟩ <;> rcases q with ⟨j, hj⟩ | ⟨j, hj⟩ <;>
    simp [number, tempIndex] at h ⊢ <;> omega

/-- A slot ends where the slots before it do, and its size further down. -/
theorem end_eq (u : Universe) (p : Slot f) : (slotEnd u (slotTypes f) p.number : Int)
      = slotsBytes u ((slotTypes f).take p.number) + (Frame.slotSize u p.type).toInt := by
  obtain ⟨hlt, htype⟩ : ∃ h, (slotTypes f).get ⟨p.number, h⟩ = p.type := by
    rcases p with ⟨i, hi⟩ | ⟨i, hi⟩
    · exact ⟨by simp [slotTypes, number]; omega, by simp [slotTypes, number, type, hi]⟩
    · exact ⟨by simp [slotTypes, number, tempIndex]; omega,
        by simp [slotTypes, number, tempIndex, type]⟩
  rw [slotEnd_eq u hlt, htype, (slotSize_eq u p.type).2.2.2]
  rfl

/-- Slots start as far below the base pointer as the saved registers and the slots up to them take. -/
theorem start?_eq (u : Universe) (saved : List Reg) (p : Slot f)
    (h : 8 * saved.length + frameBytes u f < 2 ^ 63) :
    ∃ o, p.start? { Frame.ofFunc u f Asm.SysV.stackAlign with saved } = some o ∧
      o.toInt = -(8 * saved.length + slotEnd u (slotTypes f) p.number : Int) := by
  let env : Env :=
    ⟨u, .empty, f, { Frame.ofFunc u f Asm.SysV.stackAlign with saved }, []⟩
  have hframed : env.Framed := rfl
  have hdepth := depth_le env p.number
  refine ⟨env.slotAt p.number, ?_, ?_⟩
  · rcases p with i | i
    · exact localSlot?_eq hframed i.isLt
    · exact congrArg some (tempSlot_eq hframed i.isLt)
  · have hlt : env.depth p.number < 2 ^ 63 := Nat.lt_of_le_of_lt hdepth h
    rw [Env.slotAt, Int64.toInt_neg, Int64.toInt_ofNat_of_lt hlt, Int.bmod_eq_of_le (by omega) (by omega)]
    rfl

end Slot

/-- The slots of a frame, from where they start on, lie in the room below the saved registers, apart
from each other, and hold values of their types. -/
structure Frame.Separates (u : Universe) (f : Func) (fr : Frame) (room : Int)
    (start : Emit.Slot f → Int) : Prop where
  located : ∀ p : Emit.Slot f, ∃ o, p.start? fr = some o ∧ o.toInt = start p
  aligned : ∀ p, 8 ∣ start p
  large : ∀ p : Emit.Slot f, (u.size p.type).toInt ≤ (Frame.slotSize u p.type).toInt
  below : ∀ p, start p + (Frame.slotSize u p.type).toInt ≤ -(8 * fr.saved.length)
  above : ∀ p, -(8 * fr.saved.length + room) ≤ start p
  apart : ∀ p q, p ≠ q → start p + (Frame.slotSize u p.type).toInt ≤ start q ∨
    start q + (Frame.slotSize u q.type).toInt ≤ start p

/-- The slots of a function lie apart, the stack is aligned below them, and each register that is saved
moves them down by a word. -/
theorem ofFunc_separates (u : Universe) (f : Func) (saved : List Reg)
    (hsmall : 8 * saved.length + frameBytes u f + 16 < 2 ^ 63) :
    let fr : Frame := { Frame.ofFunc u f Asm.SysV.stackAlign with saved }
    ∃ room total start, fr.reserve = .ok room ∧ fr.total = .ok total ∧ fr.Separates u f room.toInt start ∧
      (∀ r (p : Slot f), ∃ o, p.start? { fr with saved := saved ++ [r] } = some o ∧ o.toInt = start p - 8) ∧
      16 ∣ room.toInt + 8 * saved.length ∧ fr.size.toInt ≤ room.toInt ∧
      room.toInt < fr.size.toInt + 16 ∧
      IsLeast {n : Int | 16 ∣ n ∧ fr.size.toInt ≤ n} total.toInt := by
  intro fr
  have hsize : fr.size = .ofNat (frameBytes u f) := (ofFunc_slots u f Asm.SysV.stackAlign).2
  have hbytes : fr.size.toInt = frameBytes u f := by
    rw [hsize, Int64.toInt_ofNat_of_lt (by omega)]
  obtain ⟨n, hn, hlow, hhigh, hmod⟩ := reserve_spec hsize (slotsBytes_mod u _) rfl
  have hround := nextMultiple_bounds (frameBytes u f) (show 0 < 16 by decide)
  have htotal : fr.total = .ok (.ofNat (nextMultiple (frameBytes u f) 16)) := by
    rw [Frame.total, hsize, show fr.align = .ofNat 16 from rfl, alignUp_eq (by decide),
      roundUp_ofNat (by decide) (by omega)]
  have hroom : (Int64.ofNat n).toInt = n := Int64.toInt_ofNat_of_lt (by omega)
  refine ⟨.ofNat n, _, fun p => -(8 * saved.length + slotEnd u (slotTypes f) p.number), hn, htotal,
    ⟨fun p => p.start?_eq u saved (by omega), fun p => ?_, fun p => (slotSize_toInt u p.type).2.2,
      fun p => ?_, fun p => ?_, fun p q hne => ?_⟩, fun r p => ?_, ?_, ?_, ?_, ?_⟩
  · have hmod : slotEnd u (slotTypes f) p.number % 8 = 0 := slotsBytes_mod u _
    omega
  · have hend := p.end_eq u
    show _ ≤ -(8 * saved.length : Int)
    omega
  · have hle : slotEnd u (slotTypes f) p.number ≤ frameBytes u f := slotsBytes_take u _ _
    show -(8 * saved.length + _ : Int) ≤ _
    omega
  · -- the slot with the greater number is the lower one
    have hp := p.end_eq u
    have hq := q.end_eq u
    rcases Nat.lt_or_gt_of_ne fun h => hne (Slot.number_inj h) with hlt | hgt
    · have hends := slotEnd_le_take u (slotTypes f) hlt
      omega
    · have hends := slotEnd_le_take u (slotTypes f) hgt
      omega
  · obtain ⟨o, ho, hstart⟩ := p.start?_eq u (saved ++ [r]) (by simp; omega)
    rw [List.length_append, List.length_singleton] at hstart
    refine ⟨o, ho, hstart.trans ?_⟩
    show _ = -(8 * saved.length + slotEnd u (slotTypes f) p.number : Int) - 8
    omega
  · have hmod' : (n + 8 * saved.length) % 16 = 0 := hmod
    omega
  · omega
  · omega
  · rw [hbytes, Int64.toInt_ofNat_of_lt (by omega)]
    exact isLeast_nextMultiple _ (by decide)

/-- A byte, a long number and a temporary lie below a saved register. -/
theorem ofFunc_separates_three : ∃ start, Frame.Separates (.make 64 true) ⟨"f", .void, false, false,
        [⟨0, "a", .byte, false⟩, ⟨1, "b", .long, false⟩], [⟨0, .int⟩], []⟩
      ⟨[-8, -16], [-24], 24, 16, [.rbx]⟩ 24 start := by
  obtain ⟨room, -, start, hroom, -, hapart, -⟩ := ofFunc_separates (.make 64 true)
    ⟨"f", .void, false, false, [⟨0, "a", .byte, false⟩, ⟨1, "b", .long, false⟩], [⟨0, .int⟩], []⟩
    [.rbx] (by decide +kernel)
  cases hroom
  exact ⟨start, hapart⟩

end TreeAsm.Emit
