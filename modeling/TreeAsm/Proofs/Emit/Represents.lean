import TreeAsm.Proofs.Emit.Places
import TreeAsm.Proofs.Emit.Runs
import TreeAsm.Proofs.Emit.Values

/-!
# Values on the machine

While a block is emitted, the value of a temporary is its known constant, or it is in the register that
the temporary is bound to, at the width at which values of its type are computed, or else in its slot;
the value of a variable is in its slot (`Represents`). Operands are read from there, and a result is
put there: the lemmas here say so for each of the steps that instructions are made up of.
-/

namespace TreeAsm.Emit

open Asm (Carries IsWidth IsWork Memory Reg Register runLines width)
open Ir

/-! ## Temporaries and variables of a function -/

namespace Env

variable (env : Env)

/-- A temporary of the function whose values fit a register. -/
def HasTemp (t : Temp) : Prop :=
  env.func.temps[t.id]? = some t ∧ env.types.isScalar t.type = true

/-- A variable of the function whose values fit a register. -/
def HasVar (v : Local) : Prop :=
  env.func.locals[v.index]? = some v ∧ env.types.isScalar v.type = true

/-- A temporary, a variable or a number in the range of its type. -/
def Reads : Ir.Operand → Prop
  | .temp t => env.HasTemp t
  | .var v => env.HasVar v
  | .int value t => env.types.isScalar t = true ∧ Int64.ofInt (env.types.wrap t value.toInt) = value
  | _ => False

end Env

section

variable {env : Env}

theorem Env.HasTemp.lt {t : Temp} (h : env.HasTemp t) : t.id < env.func.temps.length :=
  (List.getElem?_eq_some_iff.mp h.1).1

theorem Env.HasVar.lt {v : Local} (h : env.HasVar v) : v.index < env.func.locals.length :=
  (List.getElem?_eq_some_iff.mp h.1).1

theorem Env.HasTemp.eq {t t' : Temp} (h : env.HasTemp t) (h' : env.HasTemp t')
    (hid : t.id = t'.id) : t = t' :=
  Option.some.inj (h.1.symm.trans (hid ▸ h'.1))

theorem Env.HasTemp.slot_lt {t : Temp} (h : env.HasTemp t) :
    tempIndex env.func t.id < (slotTypes env.func).length := by
  have hlt := h.lt
  rw [length_slotTypes, tempIndex]
  omega

theorem Env.HasVar.slot_lt {v : Local} (h : env.HasVar v) : v.index < (slotTypes env.func).length := by
  have hlt := h.lt
  rw [length_slotTypes]
  omega

theorem Env.HasVar.ne_temp {v : Local} (h : env.HasVar v) (i : Nat) : v.index ≠ tempIndex env.func i := by
  have hlt := h.lt
  rw [tempIndex]
  omega

theorem Env.Reads.scalar {x : Ir.Operand} (h : env.Reads x) : env.types.isScalar x.type := by
  cases x with
  | temp t => exact h.2
  | var v => exact h.2
  | int value t => exact h.1
  | _ => exact h.elim

end

/-! ## Registers and constants of a state -/

namespace State

variable (s : State) {i j : Nat}

theorem lookup_filter_ne (cs : List (Nat × Const)) (h : i ≠ j) :
    (cs.filter fun c => c.1 != i).lookup j = cs.lookup j := by
  induction cs with
  | nil => rfl
  | cons c cs ih =>
    obtain ⟨k, c⟩ := c
    by_cases hk : k = i
    · rw [List.filter_cons_of_neg (by simp [hk]), ih, List.lookup_cons,
        beq_eq_false_iff_ne.mpr (by omega : j ≠ k)]
    · rw [List.filter_cons_of_pos (by simp [hk]), List.lookup_cons, List.lookup_cons, ih]

theorem const?_forget_self : (s.forget i).const? i = none := by
  rw [const?, forget, List.lookup_eq_none_iff]
  intro c hc
  rw [bne_comm]
  exact (List.mem_filter.mp hc).2

theorem const?_forget_of_ne (h : i ≠ j) : (s.forget i).const? j = s.const? j :=
  lookup_filter_ne s.consts h

theorem const?_remember_self (c : Const) : (s.remember i c).const? i = some c :=
  List.lookup_cons_self

theorem const?_remember_of_ne (c : Const) (h : i ≠ j) : (s.remember i c).const? j = s.const? j := by
  have hj : (j == i) = false := beq_eq_false_iff_ne.mpr fun hji => h hji.symm
  rw [const?, remember, List.lookup_cons, hj]
  exact s.const?_forget_of_ne h

end State

/-- Registers are handed out as they should be, with some taken for something else than temporaries;
every temporary has its place in the table of registers, and those that have a register fit it. -/
structure Ordered (env : Env) (taken : List Reg) (s : State) : Prop where
  holds : Holds s taken
  length : s.bound.length = env.func.temps.length
  owner : ∀ i r, s.bound? i = some r → ∃ t, env.HasTemp t ∧ t.id = i

/-- While an instruction is emitted, its own registers are taken. -/
abbrev InOrder (env : Env) (s : State) : Prop := Ordered env s.scratches s

/-- The temporaries that have a register are those of the function that fit one. -/
theorem ordered_iff_owned {env : Env} {taken : List Reg} {s : State} :
    Ordered env taken s ↔ Owned env env.HasTemp taken s :=
  ⟨fun h => ⟨h.holds, h.length, h.owner⟩, fun h => ⟨h.holds, h.length, h.owner⟩⟩

theorem Ordered.boundAt {env : Env} {taken : List Reg} {s : State} {i : Nat}
    (h : Ordered env taken s) (hi : i < env.func.temps.length) : s.bound[i]? = some (s.bound? i) :=
  (ordered_iff_owned.mp h).boundAt hi

namespace InOrder

variable {env : Env} {s : State} {r : Reg} {i j : Nat}

theorem mem_scratch (h : InOrder env s) (hr : r ∈ s.pool.free ∨ r ∈ s.pool.used) : r ∈ Asm.SysV.scratch :=
  h.holds.stock.subset (List.mem_append.mpr hr)

theorem not_free (h : InOrder env s) (hr : r ∈ s.pool.used) : r ∉ s.pool.free :=
  fun hfree => (List.nodup_append.mp h.holds.nodup).2.2 r hfree r hr rfl

theorem used_of_bound (h : InOrder env s) (hr : s.bound? i = some r) : r ∈ s.pool.used :=
  h.holds.owned.subset (List.mem_append_left _ ((mem_filterMap_iff_bound? s r).mpr ⟨i, hr⟩))

theorem used_of_scratch (h : InOrder env s) (hr : r ∈ s.scratches) : r ∈ s.pool.used :=
  h.holds.owned.subset (List.mem_append_right _ hr)

/-- The base pointer belongs to no temporary. -/
theorem bound_ne_rbp (h : InOrder env s) (hr : s.bound? i = some r) : r ≠ .rbp := by
  have hscratch := h.mem_scratch (.inr (h.used_of_bound hr))
  intro hrbp
  rw [hrbp] at hscratch
  exact absurd hscratch (by decide)

theorem owned_nodup (h : InOrder env s) : (s.bound.filterMap id ++ s.scratches).Nodup :=
  h.holds.owned.nodup_iff.mpr (List.nodup_append.mp h.holds.nodup).2.1

/-- No register has two owners. -/
theorem bound_inj (h : InOrder env s) (hi : s.bound? i = some r) (hj : s.bound? j = some r) : i = j :=
  getElem?_inj_of_nodup (List.nodup_append.mp h.owned_nodup).1 (Option.join_eq_some_iff.mp hi)
    (Option.join_eq_some_iff.mp hj)

theorem scratch_not_bound (h : InOrder env s) (hr : r ∈ s.scratches) : s.bound? i ≠ some r :=
  fun hi => (List.nodup_append.mp h.owned_nodup).2.2 r ((mem_filterMap_iff_bound? s r).mpr ⟨i, hi⟩) r hr rfl

end InOrder

theorem general_of_scratch {r : Reg} (h : r ∈ Asm.SysV.scratch) : r ∈ Reg.general := by
  have hall : ∀ r ∈ Asm.SysV.scratch, r ∈ Reg.general := by decide
  exact hall r h

theorem InOrder.general (h : InOrder env s) {r : Reg} (hr : r ∈ s.pool.used) : r ∈ Reg.general :=
  general_of_scratch (h.mem_scratch (.inr hr))

/-! ## Values -/

/-- The value of a temporary is where the state says it is. -/
def Kept (env : Env) (base : BitVec 64) (s : State) (m : Asm.Machine) (t : Temp) (a : Int) : Prop :=
  match s.const? t.id, s.bound? t.id with
  | some c, _ => c = ⟨Int64.ofInt a, t.type⟩
  | none, some r => (m.regs r).setWidth (width (workBits env.types t.type))
      = BitVec.ofInt (width (workBits env.types t.type)) a
  | none, none => m.mem.load (env.types.width t.type) (env.place base (tempIndex env.func t.id))
      = BitVec.ofInt (env.types.width t.type) a

/-- The variables and those temporaries that count have their values where the state says they are,
with the frame below `base`. -/
structure Represents (env : Env) (base : BitVec 64) (N : Nat → Prop) (σ : Store) (s : State)
    (m : Asm.Machine) : Prop where
  rbp : m.regs .rbp = base
  temps : ∀ t a, env.HasTemp t → N t.id → σ.temps t.id = some a →
    env.types.InRange t.type a ∧ Kept env base s m t a
  locals : ∀ v, env.HasVar v → env.types.InRange v.type (σ.locals v.index) ∧
    m.mem.load (env.types.width v.type) (env.place base v.index)
      = BitVec.ofInt (env.types.width v.type) (σ.locals v.index)

/-- All slots but some have the same content. -/
def SameSlots (env : Env) (base : BitVec 64) (X : Nat → Prop) (mem mem' : Memory) : Prop :=
  ∀ k, k < (slotTypes env.func).length → ¬ X k → ∀ w, 8 ∣ w → w ≤ 64 →
    mem'.load w (env.place base k) = mem.load w (env.place base k)

section

variable {env : Env} {base : BitVec 64} {N N' : Nat → Prop} {σ : Store} {s s' : State}
  {m m' : Asm.Machine}

theorem SameSlots.of_eq {mem mem' : Memory} (X : Nat → Prop) (h : mem' = mem) :
    SameSlots env base X mem mem' := by
  intro k _ _ w _ _
  rw [h]

theorem sameSlots_store (hfits : env.Fits base) {j w : Nat} (hj : j < (slotTypes env.func).length)
    (hw : w ≤ 64) (mem : Memory) (x : BitVec w) :
    SameSlots env base (· = j) mem (mem.store (env.place base j) x) :=
  fun _ hk hne _ hv hv' => load_store_place hfits hj hk (fun h => hne h.symm) mem hv hv' hw x

/-- The values that still count are where they were. -/
theorem Represents.congr (h : Represents env base N σ s m) (hN : ∀ i, N' i → N i)
    (hrbp : m'.regs .rbp = m.regs .rbp) (hconst : ∀ i, N' i → s'.const? i = s.const? i)
    (hbound : ∀ i, N' i → s'.bound? i = s.bound? i)
    (hregs : ∀ t r, env.HasTemp t → N' t.id → s.bound? t.id = some r →
      (m'.regs r).setWidth (width (workBits env.types t.type))
        = (m.regs r).setWidth (width (workBits env.types t.type)))
    {X : Nat → Prop} (hslots : SameSlots env base X m.mem m'.mem)
    (hX : ∀ i, N' i → ¬ X (tempIndex env.func i)) (hX' : ∀ v, env.HasVar v → ¬ X v.index) :
    Represents env base N' σ s' m' := by
  refine ⟨hrbp.trans h.rbp, fun t a ht hNt ha => ?_, fun v hv => ?_⟩
  · obtain ⟨hrange, hkept⟩ := h.temps t a ht (hN _ hNt) ha
    refine ⟨hrange, ?_⟩
    have hwidth := width_bytes ht.2
    unfold Kept at hkept ⊢
    rw [hconst _ hNt, hbound _ hNt]
    cases hc : s.const? t.id with
    | some c =>
      rw [hc] at hkept
      exact hkept
    | none =>
      rw [hc] at hkept
      cases hr : s.bound? t.id with
      | some r =>
        rw [hr] at hkept
        exact (hregs t r ht hNt hr).trans hkept
      | none =>
        rw [hr] at hkept
        exact (hslots _ ht.slot_lt (hX _ hNt) _ hwidth.1 hwidth.2).trans hkept
  · obtain ⟨hrange, hload⟩ := h.locals v hv
    have hwidth := width_bytes hv.2
    exact ⟨hrange, (hslots _ hv.slot_lt (hX' v hv) _ hwidth.1 hwidth.2).trans hload⟩

/-- Registers are written that no temporary that counts is bound to. -/
theorem Represents.sameBut (h : Represents env base N σ s m) {X : Reg → Prop}
    (hsame : m.SameBut X m') (hrbp : ¬ X .rbp) (hX : ∀ r i, X r → N i → s.bound? i ≠ some r) :
    Represents env base N σ s m' := by
  refine h.congr (fun _ h => h) (hsame.regs _ hrbp) (fun _ _ => rfl) (fun _ _ => rfl)
    (fun t r _ hN hr => ?_) (.of_eq (fun _ => False) hsame.mem) (fun _ _ h => h) fun _ _ h => h
  rw [hsame.regs r fun hr' => hX r _ hr' hN hr]

/-- Fewer temporaries may count. -/
theorem Represents.weaken (h : Represents env base N σ s m) (hN : ∀ i, N' i → N i) :
    Represents env base N' σ s m :=
  ⟨h.rbp, fun t a ht hi ha => h.temps t a ht (hN _ hi) ha, h.locals⟩

/-- Only constants and the registers of temporaries matter. -/
theorem Represents.state (h : Represents env base N σ s m) (hconsts : s'.consts = s.consts)
    (hbound : s'.bound = s.bound) : Represents env base N σ s' m :=
  h.congr (fun _ h => h) rfl (fun _ _ => by rw [State.const?, hconsts]; rfl)
    (fun _ _ => by rw [State.bound?, hbound]; rfl) (fun _ _ _ _ _ => rfl)
    (.of_eq (fun _ => False) rfl) (fun _ _ h => h) fun _ _ h => h

/-- A temporary gets a value. -/
theorem Represents.setTemp {t : Temp} {a : Int} (h : Represents env base (fun i => N i ∧ i ≠ t.id) σ s m)
    (ht : env.HasTemp t) (hrange : env.types.InRange t.type a) (hkept : Kept env base s m t a) :
    Represents env base N (σ.setTemp t.id a) s m := by
  refine ⟨h.rbp, fun t' a' ht' hN ha' => ?_, h.locals⟩
  rw [Store.setTemp_temps] at ha'
  by_cases hid : t'.id = t.id
  · rw [if_pos hid] at ha'
    obtain rfl : a = a' := Option.some.inj ha'
    obtain rfl := ht'.eq ht hid
    exact ⟨hrange, hkept⟩
  · rw [if_neg hid] at ha'
    exact h.temps t' a' ht' ⟨hN, hid⟩ ha'

/-- A temporary keeps its value. -/
theorem Represents.insert {t : Temp} (h : Represents env base (fun i => N i ∧ i ≠ t.id) σ s m)
    (ht : env.HasTemp t) (hself : N t.id → ∀ a, σ.temps t.id = some a →
      env.types.InRange t.type a ∧ Kept env base s m t a) : Represents env base N σ s m := by
  refine ⟨h.rbp, fun t' a' ht' hN ha' => ?_, h.locals⟩
  by_cases hid : t'.id = t.id
  · obtain rfl := ht'.eq ht hid
    exact hself hN a' ha'
  · exact h.temps t' a' ht' ⟨hN, hid⟩ ha'

end

end TreeAsm.Emit
