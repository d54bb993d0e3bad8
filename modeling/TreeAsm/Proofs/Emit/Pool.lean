import Mathlib.Data.List.Nodup
import Mathlib.Data.List.Perm.Basic
import TreeAsm.Emit.Pool

/-!
# What a pool of registers has handed out

A pool is asked for registers, given them back and asked about them in any order. What it has to answer
is said by the answers that it has given so far, the latest first: a register is in use if the last
answer about it was to hand it out (`lastOf`), and of the registers that came back the one with the
youngest answer (`age`) is handed out next. Before any comes back they go out in the order of the list.

`Kept` ties a pool to its answers: the free registers are those that came back, in the order of their
ages, and then those that nothing was ever said about, in the order of the list. Every call keeps it.
-/

namespace TreeAsm.Emit.Pool

open Asm (Reg)

/-- What a pool is asked. -/
inductive Call where
  | take
  | takeSpare
  | release (r : Reg)
  | inUse (r : Reg)
  deriving DecidableEq, Repr

/-- What a pool answers. -/
inductive Answer where
  | handed (r : Reg)
  | exhausted
  | released (r : Reg)
  | refused (e : Failure)
  | told (b : Bool)
  deriving DecidableEq, Repr

/-- The answer to a call, and the pool after it. -/
def call (p : Pool) : Call → Answer × Pool
  | .take => (p.take).elim (.exhausted, p) fun (r, p') => (.handed r, p')
  | .takeSpare => (p.takeSpare).elim (.exhausted, p) fun (r, p') => (.handed r, p')
  | .release r =>
    match p.release r with
    | .ok p' => (.released r, p')
    | .error e => (.refused e, p)
  | .inUse r => (.told (p.inUse r), p)

/-- The answers given so far, the latest first, and the pool, after one more call. -/
def serve (x : List Answer × Pool) (c : Call) : List Answer × Pool :=
  let (a, p) := x.2.call c
  (a :: x.1, p)

/-- The answers to some calls of a new pool, the latest first, and the pool after them. -/
def serveAll (regs : List Reg) (calls : List Call) : List Answer × Pool :=
  calls.foldl serve ([], ofList regs)

/-! ## What the answers say about a register -/

/-- The last answer that a register was handed out or taken back by. -/
def lastOf (h : List Answer) (r : Reg) : Option Answer :=
  h.find? fun a => a = .handed r ∨ a = .released r

/-- How many answers were given since a register was last taken back. -/
def age (h : List Answer) (r : Reg) : Nat := h.idxOf (.released r)

section

variable {h : List Answer} {a : Answer} {r r' : Reg}

theorem lastOf_handed (h : List Answer) (r r' : Reg) :
    lastOf (.handed r :: h) r' = if r = r' then some (.handed r) else lastOf h r' := by
  unfold lastOf
  rw [List.find?_cons]
  by_cases hr : r = r' <;> simp [hr]

theorem lastOf_released (h : List Answer) (r r' : Reg) :
    lastOf (.released r :: h) r' = if r = r' then some (.released r) else lastOf h r' := by
  unfold lastOf
  rw [List.find?_cons]
  by_cases hr : r = r' <;> simp [hr]

/-- An answer that no register changes hands by. -/
def Answer.Quiet (a : Answer) : Prop := ∀ r, a ≠ .handed r ∧ a ≠ .released r

theorem lastOf_quiet (ha : a.Quiet) (r : Reg) : lastOf (a :: h) r = lastOf h r := by
  unfold lastOf
  rw [List.find?_cons]
  simp [ha r]

theorem age_cons (hne : a ≠ .released r) : age (a :: h) r = age h r + 1 :=
  List.idxOf_cons_ne h hne

theorem age_released_self (h : List Answer) (r : Reg) : age (.released r :: h) r = 0 :=
  List.idxOf_cons_self

end

/-- The register that a pool has to hand out next: the one that came back last of those that came back
and did not go out again, or else the first of the list that never went out. -/
def Next (regs : List Reg) (h : List Answer) (r : Reg) : Prop :=
  (lastOf h r = some (.released r) ∧ ∀ r', lastOf h r' = some (.released r') → age h r ≤ age h r') ∨
  ((∀ r', lastOf h r' ≠ some (.released r')) ∧ regs.find? (fun r' => lastOf h r' = none) = some r)

/-! ## The pool and its answers -/

/-- The pool that some answers lead to: what is in use, and what is free in the order in which it will
be handed out. -/
structure Kept (regs : List Reg) (h : List Answer) (p : Pool) : Prop where
  stock : (p.free ++ p.used).Perm regs
  used : ∀ r, r ∈ p.used ↔ lastOf h r = some (.handed r)
  free : ∃ back, p.free = back ++ regs.filter (fun r => lastOf h r = none) ∧
    (∀ r, r ∈ back ↔ lastOf h r = some (.released r)) ∧ back.Pairwise fun r r' => age h r < age h r'

theorem kept_ofList (regs : List Reg) : Kept regs [] (ofList regs) := by
  refine ⟨?_, fun r => ?_, [], ?_, fun r => ?_, List.Pairwise.nil⟩
  · show (regs ++ []).Perm regs
    rw [List.append_nil]
  · simp [ofList, lastOf]
  · simp [ofList, lastOf]
  · simp [lastOf]

namespace Kept

variable {regs : List Reg} {h : List Answer} {p : Pool} {r : Reg}

theorem nodup (hk : Kept regs h p) (hregs : regs.Nodup) : (p.free ++ p.used).Nodup :=
  hk.stock.nodup_iff.mpr hregs

theorem quiet {a : Answer} (hk : Kept regs h p) (ha : a.Quiet) : Kept regs (a :: h) p := by
  obtain ⟨back, hfree, hback, hages⟩ := hk.free
  refine ⟨hk.stock, fun r => ?_, back, ?_, fun r => ?_, hages.imp fun {r r'} hlt => ?_⟩
  · rw [lastOf_quiet ha, hk.used]
  · rw [hfree]
    simp only [lastOf_quiet ha]
  · rw [lastOf_quiet ha, hback]
  · rw [age_cons (ha r).2, age_cons (ha r').2]
    exact Nat.succ_lt_succ hlt

/-- The first of the free registers goes out. -/
theorem handed {free : List Reg} (hk : Kept regs h p) (hregs : regs.Nodup)
    (hp : p.free = r :: free) : Kept regs (.handed r :: h) ⟨free, p.used ++ [r]⟩ := by
  have hnodup := hk.nodup hregs
  rw [hp, List.cons_append, List.nodup_cons] at hnodup
  have hr : r ∉ free := fun hmem => hnodup.1 (List.mem_append_left _ hmem)
  have hage : ∀ r', age (.handed r :: h) r' = age h r' + 1 := fun r' => age_cons (by simp)
  obtain ⟨back, hfree, hback, hages⟩ := hk.free
  refine ⟨?_, fun r' => ?_, ?_⟩
  · refine List.Perm.trans ?_ hk.stock
    rw [hp, ← List.append_assoc]
    exact List.perm_append_singleton r (free ++ p.used)
  · rw [lastOf_handed, List.mem_append, List.mem_singleton, hk.used]
    by_cases hrr : r = r'
    · simp [hrr]
    · simp [hrr, Ne.symm hrr]
  · rw [hp] at hfree
    cases back with
    | cons b back =>
      -- it had come back, so the registers that never went out stay what they are
      obtain ⟨rfl, hrest⟩ := List.cons.inj hfree
      have hold : lastOf h r = some (.released r) := (hback r).mp List.mem_cons_self
      refine ⟨back, ?_, fun r' => ?_, ?_⟩
      · rw [hrest]
        refine congrArg (back ++ ·) (List.filter_congr fun r' _ => ?_)
        rw [lastOf_handed]
        by_cases hrr : r = r'
        · simp [← hrr, hold]
        · simp [hrr]
      · rw [lastOf_handed]
        by_cases hrr : r = r'
        · rw [if_pos hrr]
          subst hrr
          have hnot : r ∉ back := fun hmem => hr (hrest ▸ List.mem_append_left _ hmem)
          simp [hnot]
        · rw [if_neg hrr, ← hback, List.mem_cons]
          simp [Ne.symm hrr]
      · refine (List.pairwise_cons.mp hages).2.imp fun {a b} hlt => ?_
        rw [hage, hage]
        exact Nat.succ_lt_succ hlt
    | nil =>
      -- none had come back, so it is the first that never went out
      rw [List.nil_append] at hfree
      have hnone : ∀ r', lastOf h r' ≠ some (.released r') :=
        fun r' hr' => List.not_mem_nil ((hback r').mpr hr')
      refine ⟨[], ?_, fun r' => ?_, List.Pairwise.nil⟩
      · have hsplit : regs.filter (fun r' => lastOf (.handed r :: h) r' = none)
            = (regs.filter fun r' => lastOf h r' = none).filter (fun r' => r' ≠ r) := by
          rw [List.filter_filter]
          refine List.filter_congr fun r' _ => ?_
          rw [lastOf_handed]
          by_cases hrr : r = r'
          · simp [hrr]
          · simp [hrr, Ne.symm hrr]
        rw [hsplit, ← hfree, List.nil_append, List.filter_cons_of_neg (by simp)]
        refine (List.filter_eq_self.mpr fun r' hr' => ?_).symm
        have hne : r' ≠ r := fun he => hr (he ▸ hr')
        simpa using hne
      · rw [lastOf_handed]
        by_cases hrr : r = r'
        · simp [hrr]
        · simp [hrr, hnone r']

/-- A register in use comes back. -/
theorem released (hk : Kept regs h p) (hregs : regs.Nodup) (hr : r ∈ p.used) :
    Kept regs (.released r :: h) ⟨r :: p.free, p.used.erase r⟩ := by
  have hout : lastOf h r = some (.handed r) := (hk.used r).mp hr
  have hnodup : p.used.Nodup := (List.nodup_append.mp (hk.nodup hregs)).2.1
  obtain ⟨back, hfree, hback, hages⟩ := hk.free
  have hnot : r ∉ back := by
    rw [hback, hout]
    simp
  refine ⟨?_, fun r' => ?_, r :: back, ?_, fun r' => ?_, ?_⟩
  · refine List.Perm.trans ?_ hk.stock
    exact List.perm_middle.symm.trans (List.Perm.append_left _ (List.perm_cons_erase hr).symm)
  · rw [lastOf_released, hnodup.mem_erase_iff, hk.used]
    by_cases hrr : r = r'
    · simp [hrr]
    · simp [hrr, Ne.symm hrr]
  · rw [List.cons_append, hfree]
    refine congrArg (r :: back ++ ·) (List.filter_congr fun r' _ => ?_)
    rw [lastOf_released]
    by_cases hrr : r = r'
    · simp [← hrr, hout]
    · simp [hrr]
  · rw [lastOf_released, List.mem_cons, hback]
    by_cases hrr : r = r'
    · simp [hrr]
    · simp [hrr, Ne.symm hrr]
  · -- it is younger than all that came back before
    have hage : ∀ r' ∈ back, age (.released r :: h) r' = age h r' + 1 := by
      intro r' hr'
      refine age_cons fun he => hnot ?_
      rw [Answer.released.inj he]
      exact hr'
    refine List.pairwise_cons.mpr ⟨fun r' hr' => ?_, hages.imp_of_mem fun {a b} ha hb hlt => ?_⟩
    · rw [age_released_self, hage r' hr']
      exact Nat.succ_pos _
    · rw [hage a ha, hage b hb]
      exact Nat.succ_lt_succ hlt

/-- What the pool hands out is what it has to. -/
theorem head_iff_next (hk : Kept regs h p) (r : Reg) : p.free.head? = some r ↔ Next regs h r := by
  obtain ⟨back, hfree, hback, hages⟩ := hk.free
  cases back with
  | nil =>
    have hnone : ∀ r', lastOf h r' ≠ some (.released r') :=
      fun r' hr' => List.not_mem_nil ((hback r').mpr hr')
    rw [hfree, List.nil_append, List.head?_filter]
    exact ⟨fun hfind => .inr ⟨hnone, hfind⟩,
      fun hnext => hnext.elim (fun hback => absurd hback.1 (hnone r)) (·.2)⟩
  | cons b back =>
    have hb : lastOf h b = some (.released b) := (hback b).mp List.mem_cons_self
    have hyounger := (List.pairwise_cons.mp hages).1
    rw [hfree, List.cons_append, List.head?_cons, Option.some_inj]
    constructor
    · rintro rfl
      refine Or.inl ⟨hb, fun r' hr' => ?_⟩
      rcases List.mem_cons.mp ((hback r').mpr hr') with rfl | hmem
      · exact Nat.le_refl _
      · exact Nat.le_of_lt (hyounger r' hmem)
    · rintro (⟨hr, hleast⟩ | ⟨hnone, -⟩)
      · rcases List.mem_cons.mp ((hback r).mpr hr) with rfl | hmem
        · rfl
        · exact absurd (hyounger r hmem) (Nat.not_lt.mpr (hleast b hb))
      · exact absurd hb (hnone b)

end Kept

/-! ## Calls -/

section

variable {regs : List Reg} {h : List Answer} {p : Pool}

theorem take_eq_some {r : Reg} {p' : Pool} (ht : p.take = some (r, p')) :
    ∃ free, p.free = r :: free ∧ p' = ⟨free, p.used ++ [r]⟩ := by
  unfold take at ht
  split at ht
  next => cases ht
  next r' free hfree =>
    cases ht
    exact ⟨free, hfree, rfl⟩

theorem takeSpare_eq_some {r : Reg} {p' : Pool} (ht : p.takeSpare = some (r, p')) :
    headroom < p.free.length ∧ p.take = some (r, p') := by
  unfold takeSpare at ht
  split at ht
  next => cases ht
  next hmore => exact ⟨Nat.lt_of_not_le hmore, ht⟩

theorem call_release_of_mem {r : Reg} (hr : r ∈ p.used) :
    p.call (.release r) = (.released r, ⟨r :: p.free, p.used.erase r⟩) := by
  have hrelease : p.release r = .ok ⟨r :: p.free, p.used.erase r⟩ :=
    if_pos (List.contains_iff_mem.mpr hr)
  rw [call, hrelease]

theorem call_release_of_not_mem {r : Reg} (hr : r ∉ p.used) :
    p.call (.release r) = (.refused (.report [] (.registerNotInUse r.render)), p) := by
  have hrelease : p.release r = .fail (.registerNotInUse r.render) :=
    if_neg fun hmem => hr (List.contains_iff_mem.mp hmem)
  rw [call, hrelease]
  rfl

/-- Every call keeps a pool what its answers say. -/
theorem Kept.call (hk : Kept regs h p) (hregs : regs.Nodup) (c : Call) :
    Kept regs ((p.call c).1 :: h) (p.call c).2 := by
  have hexhausted : Answer.exhausted.Quiet := fun r => ⟨by simp, by simp⟩
  have htaken : ∀ {x : Reg × Pool}, p.take = some x → Kept regs (.handed x.1 :: h) x.2 := by
    intro x ht
    obtain ⟨free, hfree, hp'⟩ := take_eq_some ht
    rw [hp']
    exact hk.handed hregs hfree
  cases c with
  | take =>
    rw [Pool.call]
    cases ht : p.take with
    | none => exact hk.quiet hexhausted
    | some x => exact htaken ht
  | takeSpare =>
    rw [Pool.call]
    cases ht : p.takeSpare with
    | none => exact hk.quiet hexhausted
    | some x => exact htaken (takeSpare_eq_some ht).2
  | release r =>
    by_cases hr : r ∈ p.used
    · rw [call_release_of_mem hr]
      exact hk.released hregs hr
    · rw [call_release_of_not_mem hr]
      exact hk.quiet fun r' => ⟨by simp, by simp⟩
  | inUse r =>
    rw [Pool.call]
    exact hk.quiet fun r' => ⟨by simp, by simp⟩

/-- So does any number of calls. -/
theorem Kept.serve (hregs : regs.Nodup) (calls : List Call) : ∀ {x : List Answer × Pool},
    Kept regs x.1 x.2 → Kept regs (calls.foldl Pool.serve x).1 (calls.foldl Pool.serve x).2 := by
  induction calls with
  | nil => exact fun hk => hk
  | cons c calls ih => exact fun hk => ih (hk.call hregs c)

end

/-- What holds of a pool after the answers that it has given. -/
structure Conserved (regs : List Reg) (h : List Answer) (p : Pool) : Prop where
  /-- Every register is free or in use. -/
  stock : (p.free ++ p.used).Perm regs
  /-- No register is there twice. -/
  distinct : (p.free ++ p.used).Nodup
  /-- The registers in use are those that were handed out and did not come back. -/
  inUse_iff : ∀ r, p.inUse r = true ↔ lastOf h r = some (.handed r)
  /-- A register in use can be given back. -/
  accepts : ∀ r, p.inUse r = true → (p.call (.release r)).1 = .released r
  /-- No other can, and trying changes nothing. -/
  refuses : ∀ r, p.inUse r = false →
    p.call (.release r) = (.refused (.report [] (.registerNotInUse r.render)), p)
  /-- A spare register is there if more than the headroom are free. -/
  spare_iff : p.takeSpare.isSome = true ↔ headroom < p.free.length
  /-- A spare register is no other than the one that is handed out next. -/
  spare_eq : p.takeSpare.isSome = true → p.takeSpare = p.take
  /-- The register that is handed out next. -/
  next_iff : ∀ r, (∃ p', p.take = some (r, p')) ↔ Next regs h r

theorem Kept.conserved {regs : List Reg} {h : List Answer} {p : Pool} (hk : Kept regs h p)
    (hregs : regs.Nodup) : Conserved regs h p := by
  have hinUse : ∀ r, p.inUse r ↔ r ∈ p.used := fun r => List.contains_iff_mem
  refine ⟨hk.stock, hk.nodup hregs, fun r => (hinUse r).trans (hk.used r), fun r hr => ?_,
    fun r hr => ?_, ?_, fun hs => ?_, fun r => ?_⟩
  · rw [call_release_of_mem ((hinUse r).mp hr)]
  · refine call_release_of_not_mem fun hmem => ?_
    rw [(hinUse r).mpr hmem] at hr
    cases hr
  · constructor
    · intro hs
      obtain ⟨x, hx⟩ := Option.isSome_iff_exists.mp hs
      exact (takeSpare_eq_some hx).1
    · intro hmore
      have hne : p.free ≠ [] := fun he => absurd hmore (by simp [he])
      obtain ⟨r, free, hfree⟩ := List.exists_cons_of_ne_nil hne
      rw [takeSpare, if_neg (Nat.not_le.mpr hmore), take, hfree]
      rfl
  · obtain ⟨x, hx⟩ := Option.isSome_iff_exists.mp hs
    rw [hx, (takeSpare_eq_some hx).2]
  · rw [← hk.head_iff_next r]
    constructor
    · rintro ⟨p', hp'⟩
      obtain ⟨free, hfree, -⟩ := take_eq_some hp'
      rw [hfree, List.head?_cons]
    · intro hhead
      obtain ⟨free, hfree⟩ := List.head?_eq_some_iff.mp hhead
      exact ⟨⟨free, p.used ++ [r]⟩, by rw [take, hfree]⟩

/-- A pool of distinct registers conserves them over any calls in any order, and hands them out by the
rule of `Next`. -/
theorem serveAll_conserved (regs : List Reg) (hregs : regs.Nodup) (calls : List Call) :
    Conserved regs (serveAll regs calls).1 (serveAll regs calls).2 :=
  (Kept.serve hregs calls (kept_ofList regs)).conserved hregs

/-- Of five registers three go out, the second and a stranger are given back, and the second is next. -/
theorem serveAll_conserved_outOfOrder : [Reg.rbx, .r12, .r13, .r14, .r15].Nodup ∧
    serveAll [.rbx, .r12, .r13, .r14, .r15]
        [.takeSpare, .take, .takeSpare, .takeSpare, .release .r12, .release .rax] =
      ([.refused (.report [] (.registerNotInUse "rax")), .released .r12, .exhausted, .handed .r13,
        .handed .r12, .handed .rbx], ⟨[.r12, .r14, .r15], [.rbx, .r13]⟩) ∧
    Conserved [.rbx, .r12, .r13, .r14, .r15]
      [.refused (.report [] (.registerNotInUse "rax")), .released .r12, .exhausted, .handed .r13,
        .handed .r12, .handed .rbx] ⟨[.r12, .r14, .r15], [.rbx, .r13]⟩ :=
  ⟨by decide, by decide, serveAll_conserved [.rbx, .r12, .r13, .r14, .r15] (by decide)
    [.takeSpare, .take, .takeSpare, .takeSpare, .release .r12, .release .rax]⟩

end TreeAsm.Emit.Pool
