import TreeAsm.Proofs.Emit.Pool
import TreeAsm.Proofs.Emit.Straight

/-!
# Registers in use

Between two instructions every register that is in use belongs to exactly one temporary, and two
registers are free (`Holds s []`). Within an instruction some registers are taken on top of that,
and none but the spare ones: reading an operand and placing a result take a register only if the
headroom stays, so the headroom is what an instruction's own needs are met from. No instruction
needs more than the headroom, which is why registers never run out.

Registers change hands in four ways: one is taken, given to a temporary, taken away from it or given
back. `Holds.take`, `Holds.bind`, `Holds.unbind` and `Holds.release` say what each does. `Owned` adds
that every temporary has its place in the table of registers, and which temporaries may have one.
-/

namespace TreeAsm.Emit

open Asm (Line Mem Mnemonic Reg Register SysV.scratch Text)
open Ir

/-! ## The four ways a register changes hands -/

/-- Changing one place of a list of options exchanges what is there for what was there. -/
theorem filterMap_set_perm {α : Type} {xs : List (Option α)} {n : Nat} {old : Option α}
    (h : xs[n]? = some old) (new : Option α) :
    ((xs.set n new).filterMap id ++ old.toList).Perm (new.toList ++ xs.filterMap id) := by
  induction xs generalizing n with
  | nil => cases h
  | cons x xs ih =>
    cases n with
    | zero =>
      obtain rfl : x = old := by simpa using h
      have hsplit : ∀ o : Option α, (o :: xs).filterMap id = o.toList ++ xs.filterMap id := by
        intro o
        cases o <;> rfl
      rw [List.set_cons_zero, hsplit, hsplit, List.append_assoc]
      exact List.Perm.append_left _ List.perm_append_comm
    | succ n =>
      have ih := ih (n := n) (by simpa using h)
      rw [List.set_cons_succ]
      cases x with
      | none => exact ih
      | some a =>
        exact (ih.cons a).trans List.perm_middle.symm

/-- The registers of the pool are those for values within a function, each one free or in use. The
ones in use belong to the temporaries that are bound to them, apart from those that are `taken` for
something else; the latter come out of the headroom. -/
structure Holds (s : State) (taken : List Reg) : Prop where
  stock : (s.pool.free ++ s.pool.used).Perm SysV.scratch
  owned : (s.bound.filterMap id ++ taken).Perm s.pool.used
  spare : Pool.headroom ≤ s.pool.free.length + taken.length

/-- Nothing is in use before anything is emitted. -/
theorem holds_start (f : Func) : Holds (State.start f) [] := by
  have hnone : (State.start f).bound.filterMap id = [] := by
    simp [State.start]
  refine ⟨?_, ?_, show Pool.headroom ≤ SysV.scratch.length from by decide⟩
  · show (SysV.scratch ++ []).Perm SysV.scratch
    rw [List.append_nil]
  · rw [hnone]
    exact List.Perm.refl _

namespace Holds

variable {s : State} {taken : List Reg} {r : Reg} {id : Nat}

/-- Only the pool and the registers of temporaries count. -/
theorem congr {s' : State} (h : Holds s taken) (hpool : s'.pool = s.pool)
    (hbound : s'.bound = s.bound) : Holds s' taken :=
  ⟨hpool ▸ h.stock, hpool ▸ hbound ▸ h.owned, hpool ▸ h.spare⟩

theorem nodup (h : Holds s taken) : (s.pool.free ++ s.pool.used).Nodup :=
  h.stock.nodup_iff.mpr (by decide)

theorem take {p : Pool} (h : Holds s taken) (ht : s.pool.take = some (r, p)) :
    Holds { s with pool := p } (r :: taken) := by
  unfold Pool.take at ht
  cases hf : s.pool.free with
  | nil =>
    rw [hf] at ht
    cases ht
  | cons r' free =>
    rw [hf] at ht
    obtain ⟨rfl, rfl⟩ : r' = r ∧ Pool.mk free (s.pool.used ++ [r']) = p := by simpa using ht
    have hstock := h.stock
    have hspare := h.spare
    rw [hf] at hstock hspare
    refine ⟨?_, ?_, ?_⟩
    · refine List.Perm.trans ?_ hstock
      rw [← List.append_assoc]
      exact List.perm_append_singleton _ _
    · exact List.perm_middle.trans ((h.owned.cons r').trans (List.perm_append_singleton _ _).symm)
    · show Pool.headroom ≤ free.length + (taken.length + 1)
      rw [List.length_cons] at hspare
      omega

theorem bind (h : Holds s (r :: taken)) (hid : s.bound[id]? = some none)
    (hfree : Pool.headroom ≤ s.pool.free.length) : Holds (s.bind id (some r)) taken := by
  refine ⟨h.stock, ?_, by show _ ≤ s.pool.free.length + _; omega⟩
  have hset := filterMap_set_perm hid (some r)
  rw [Option.toList_none, List.append_nil] at hset
  exact (hset.append_right taken).trans (List.perm_middle.symm.trans h.owned)

theorem unbind (h : Holds s taken) (hid : s.bound[id]? = some (some r)) :
    Holds (s.bind id none) (r :: taken) := by
  refine ⟨h.stock, ?_, ?_⟩
  · have hset := filterMap_set_perm hid none
    refine List.Perm.trans ?_ h.owned
    show ((s.bound.set id none).filterMap _ ++ ([r] ++ taken)).Perm _
    rw [← List.append_assoc]
    exact hset.append_right taken
  · have hspare := h.spare
    show _ ≤ s.pool.free.length + (taken.length + 1)
    omega

theorem release (h : Holds s (r :: taken)) :
    ∃ p, s.pool.release r = .ok p ∧ Holds { s with pool := p } taken := by
  have hmem : r ∈ s.pool.used := h.owned.subset (by simp)
  have hused : s.pool.used.Perm (r :: s.pool.used.erase r) := List.perm_cons_erase hmem
  refine ⟨⟨r :: s.pool.free, s.pool.used.erase r⟩, ?_, ?_, ?_, ?_⟩
  · unfold Pool.release
    rw [if_pos (by simpa using hmem)]
  · refine List.Perm.trans ?_ h.stock
    exact List.perm_middle.symm.trans (List.Perm.append_left _ hused.symm)
  · exact (List.perm_middle.symm.trans (h.owned.trans hused)).cons_inv
  · have hspare := h.spare
    show _ ≤ (s.pool.free.length + 1) + _
    rw [List.length_cons] at hspare
    omega

end Holds

/-! ## Registers and their owners -/

theorem take_free {p p' : Pool} {r : Reg} (h : p.take = some (r, p')) : p.free = r :: p'.free := by
  obtain ⟨free, hfree, rfl⟩ := Pool.take_eq_some h
  exact hfree

theorem takeSpare_eq {p p' : Pool} {r : Reg} (h : p.takeSpare = some (r, p')) :
    p.take = some (r, p') ∧ Pool.headroom ≤ p'.free.length := by
  obtain ⟨hmore, htake⟩ := Pool.takeSpare_eq_some h
  refine ⟨htake, ?_⟩
  rw [take_free htake, List.length_cons] at hmore
  exact Nat.le_of_lt_succ hmore

namespace State

variable (s : State) {i j : Nat}

theorem bound?_bind_self (r : Option Reg) (hi : i < s.bound.length) : (s.bind i r).bound? i = r := by
  rw [bound?, bind, List.getElem?_set_self hi]
  rfl

theorem bound?_bind_of_ne (r : Option Reg) (h : i ≠ j) : (s.bind i r).bound? j = s.bound? j := by
  rw [bound?, bind, List.getElem?_set_ne h]
  rfl

end State

/-- Registers are handed out as they should be, with some taken for something else than temporaries.
Every temporary has its place in the table of registers, and those that have a register may have
one. -/
structure Owned (env : Env) (owns : Temp → Prop) (taken : List Reg) (s : State) : Prop where
  holds : Holds s taken
  length : s.bound.length = env.func.temps.length
  owner : ∀ i r, s.bound? i = some r → ∃ t, owns t ∧ t.id = i

/-- Before anything is emitted, no temporary has a register. -/
theorem owned_start (env : Env) (owns : Temp → Prop) : Owned env owns [] (.start env.func) := by
  refine ⟨holds_start env.func, List.length_map _, fun i r hr => ?_⟩
  obtain ⟨t, -, ht⟩ := List.mem_map.mp (List.mem_of_getElem? (Option.join_eq_some_iff.mp hr))
  cases ht

namespace Owned

variable {env : Env} {owns : Temp → Prop} {taken : List Reg} {s : State} {r : Reg} {i : Nat}

/-- Only the pool and the registers of temporaries count. -/
theorem congr {s' : State} (h : Owned env owns taken s) (hpool : s'.pool = s.pool)
    (hbound : s'.bound = s.bound) : Owned env owns taken s' := by
  refine ⟨h.holds.congr hpool hbound, hbound ▸ h.length, fun i r hr => h.owner i r ?_⟩
  rw [State.bound?, ← hbound]
  exact hr

theorem boundAt (h : Owned env owns taken s) (hi : i < env.func.temps.length) :
    s.bound[i]? = some (s.bound? i) := by
  have hlt : i < s.bound.length := h.length ▸ hi
  rw [State.bound?, List.getElem?_eq_getElem hlt]
  rfl

/-- Every register in use is one of those for values. -/
theorem mem_scratch (h : Owned env owns taken s) (hr : r ∈ s.pool.used) : r ∈ SysV.scratch :=
  h.holds.stock.subset (List.mem_append_right _ hr)

theorem mem_scratch_of_bound (h : Owned env owns taken s) (hr : s.bound[i]? = some (some r)) :
    r ∈ SysV.scratch := by
  refine h.mem_scratch (h.holds.owned.subset (List.mem_append_left _ ?_))
  exact List.mem_filterMap.mpr ⟨some r, List.mem_of_getElem? hr, rfl⟩

theorem take {p : Pool} (h : Owned env owns taken s) (ht : s.pool.take = some (r, p)) :
    Owned env owns (r :: taken) { s with pool := p } :=
  ⟨h.holds.take ht, h.length, h.owner⟩

theorem bind {t : Temp} (h : Owned env owns (r :: taken) s) (hid : s.bound[t.id]? = some none)
    (hfree : Pool.headroom ≤ s.pool.free.length) (ht : owns t) :
    Owned env owns taken (s.bind t.id (some r)) := by
  refine ⟨h.holds.bind hid hfree, List.length_set.trans h.length, fun j q hq => ?_⟩
  by_cases hj : t.id = j
  · exact ⟨t, ht, hj⟩
  · exact h.owner j q ((State.bound?_bind_of_ne _ _ hj).symm.trans hq)

/-- A temporary that loses its register owns none, and the others keep theirs. -/
theorem unbind (h : Owned env owns taken s) (hr : s.bound[i]? = some (some r)) :
    Owned env owns (r :: taken) (s.bind i none) := by
  refine ⟨h.holds.unbind hr, List.length_set.trans h.length, fun j q hq => ?_⟩
  by_cases hj : i = j
  · subst hj
    rw [State.bound?_bind_self _ _ (List.getElem?_eq_some_iff.mp hr).1] at hq
    cases hq
  · exact h.owner j q ((State.bound?_bind_of_ne _ _ hj).symm.trans hq)

theorem release (h : Owned env owns (r :: taken) s) :
    ∃ p, Emit.release r s = ⟨[], .ok ((), { s with pool := p })⟩ ∧
      Owned env owns taken { s with pool := p } := by
  obtain ⟨p, hp, hholds⟩ := h.holds.release
  refine ⟨p, ?_, hholds, h.length, h.owner⟩
  show (Emitter.lift (s.pool.release r) >>= fun pool =>
    modify fun s : State => { s with pool := pool } : Emitter PUnit) s = _
  rw [hp]
  rfl

/-- The register of a temporary is given back. -/
theorem unbind_eq (h : Owned env owns taken s) (hr : s.bound[i]? = some (some r)) :
    ∃ p, Emit.unbind i r s = ⟨[], .ok ((), { s.bind i none with pool := p })⟩ ∧
      Owned env owns taken { s.bind i none with pool := p } :=
  (h.unbind hr).release

end Owned

end TreeAsm.Emit
