import TreeAsm.Proofs.Emit.Accesses

/-!
# What computing instructions do

Moves, arithmetic and comparisons put the value into the place of their result that the intermediate
code gives it, and everything else that is represented stays so. The place is a register or a slot
(`Put`). A register may hold more bits than the type has until the result is narrowed there
(`Put.narrow_runs`), and only then does it represent the value. So the results of arithmetic, computed
in a register, all get to their places in one way (`settle_runs`).
-/

namespace TreeAsm.Emit

open Asm (Carries IsWidth IsWork Mem Reg Register Text runLines width)
open Ir
open BitVec (ofInt)

variable {env : Env} {base : BitVec 64} {N : Nat → Prop} {σ : Store} {s : State} {m m' : Asm.Machine}
  {F : Prop} {t : Temp} {c : Int} {K : Nat → Bool}

/-! ## What is known -/

/-- What counts is represented, and `K` tells which temporaries are known. -/
structure Faithful (env : Env) (base : BitVec 64) (N : Nat → Prop) (σ : Store) (K : Nat → Bool)
    (s : State) (m : Asm.Machine) : Prop where
  rep : Represents env base N σ s m
  order : InOrder env s
  known : ∀ i, (s.const? i).isSome = K i

variable {a b : Int} {x y : Ir.Operand} {s' s1 : State} {bits : Int64} {r : Reg} {v : Local}
  {op : Asm.Operand} {d : Register} {spilled signed : Bool} {Q : Unit → State → Asm.Machine → Prop}
  {q : Option Int}

theorem Faithful.isKnown_eq (h : Faithful env base N σ K s m) (hconsts : s'.consts = s.consts) :
    (fun i => (s'.const? i).isSome) = K := by
  funext i
  rw [State.const?, hconsts]
  exact h.known i

/-- What is known after temporary `i` gets a value. -/
def learn (K : Nat → Bool) (i : Nat) (b : Bool) : Nat → Bool := fun j => if j = i then b else K j

/-- Nothing is known of a temporary that a result is placed in. -/
theorem Cleared.known (h : Cleared env s1 t s') (hs : Faithful env base N σ K s m)
    (hconsts : s1.consts = s.consts) (i : Nat) : (s'.const? i).isSome = learn K t.id false i := by
  by_cases hi : i = t.id
  · rw [hi, h.const, learn, if_pos rfl]
    rfl
  · rw [h.consts i hi, learn, if_neg hi]
    exact congrFun (hs.isKnown_eq hconsts) i

/-! ## Results in place -/

/-- A temporary gets a value in its register. -/
theorem Represents.setReg (h : Represents env base (fun i => N i ∧ i ≠ t.id) σ s m)
    (ht : env.HasTemp t) (hconst : s.const? t.id = none) (hr : s.bound? t.id = some r)
    (hvalue : (m.regs r).setWidth (width (workBits env.types t.type))
      = ofInt (width (workBits env.types t.type)) (env.types.wrap t.type c)) :
    Represents env base N (σ.setTemp t.id (env.types.wrap t.type c)) s m := by
  refine h.setTemp ht (wrap_inRange _ _ _) ?_
  unfold Kept
  rw [hconst, hr]
  exact hvalue

/-- A temporary gets a value in its slot. -/
theorem Represents.setSlot (h : Represents env base (fun i => N i ∧ i ≠ t.id) σ s m)
    (hfits : env.Fits base) (ht : env.HasTemp t) (hconst : s.const? t.id = none)
    (hr : s.bound? t.id = none) (hrbp : m'.regs .rbp = m.regs .rbp)
    (hregs : ∀ t' r, env.HasTemp t' → s.bound? t'.id = some r →
      (m'.regs r).setWidth (width (workBits env.types t'.type))
        = (m.regs r).setWidth (width (workBits env.types t'.type)))
    (hmem : m'.mem = m.mem.store (env.place base (tempIndex env.func t.id))
      (ofInt (env.types.width t.type) c)) :
    Represents env base N (σ.setTemp t.id (env.types.wrap t.type c)) s m' := by
  have hwidth := width_bytes ht.2
  have hothers : Represents env base (fun i => N i ∧ i ≠ t.id) σ s m' := by
    refine h.congr (fun _ h => h) hrbp (fun _ _ => rfl) (fun _ _ => rfl)
      (fun t' r ht' _ hr' => hregs t' r ht' hr')
      (hmem ▸ sameSlots_store hfits ht.slot_lt hwidth.2 m.mem _) (fun i hi hX => hi.2 ?_)
      fun v hv => hv.ne_temp _
    unfold tempIndex at hX
    omega
  refine hothers.setTemp ht (wrap_inRange _ _ _) ?_
  unfold Kept
  rw [hconst, hr]
  rw [hmem, Asm.Memory.load_store _ hwidth.1 hwidth.2, ofInt_wrap (Nat.le_refl _)]

/-- A variable gets a value. -/
theorem Represents.setVar (h : Represents env base N σ s m) (hfits : env.Fits base)
    (hv : env.HasVar v) (hrbp : m'.regs .rbp = m.regs .rbp)
    (hregs : ∀ t' r, env.HasTemp t' → s.bound? t'.id = some r →
      (m'.regs r).setWidth (width (workBits env.types t'.type))
        = (m.regs r).setWidth (width (workBits env.types t'.type)))
    (hmem : m'.mem = m.mem.store (env.place base v.index) (ofInt (env.types.width v.type) c)) :
    Represents env base N (σ.setLocal v.index (env.types.wrap v.type c)) s m' := by
  have hwidth := width_bytes hv.2
  have hslots := sameSlots_store hfits hv.slot_lt hwidth.2 m.mem (ofInt (env.types.width v.type) c)
  rw [← hmem] at hslots
  -- a temporary is never in the slot of a variable
  have htemps : Represents env base N σ s { m' with mem := m.mem } :=
    h.congr (fun _ h => h) hrbp (fun _ _ => rfl) (fun _ _ => rfl)
      (fun t' r ht' _ hr' => hregs t' r ht' hr') (.of_eq (fun _ => False) rfl) (fun _ _ h => h)
      fun _ _ h => h
  refine ⟨hrbp.trans h.rbp, fun t' a ht' hN ha => ?_, fun v' hv' => ?_⟩
  · obtain ⟨hrange, hkept⟩ := htemps.temps t' a ht' hN ha
    have hwidth' := width_bytes ht'.2
    refine ⟨hrange, ?_⟩
    unfold Kept at hkept ⊢
    rw [hslots _ ht'.slot_lt (fun hX => hv.ne_temp _ hX.symm) _ hwidth'.1 hwidth'.2]
    exact hkept
  · rw [Store.setLocal_locals]
    by_cases hindex : v'.index = v.index
    · obtain rfl : v' = v := Option.some.inj (hv'.1.symm.trans (hindex ▸ hv.1))
      rw [if_pos rfl]
      refine ⟨wrap_inRange _ _ _, ?_⟩
      rw [hmem, Asm.Memory.load_store _ hwidth.1 hwidth.2, ofInt_wrap (Nat.le_refl _)]
    · rw [if_neg hindex]
      obtain ⟨hrange, hload⟩ := h.locals v' hv'
      have hwidth' := width_bytes hv'.2
      exact ⟨hrange, (hslots _ hv'.slot_lt hindex _ hwidth'.1 hwidth'.2).trans hload⟩

/-! ## Copies to slots -/

/-- The registers of temporaries still have their values. -/
def KeepsBound (env : Env) (s : State) (m m' : Asm.Machine) : Prop :=
  ∀ t r, env.HasTemp t → s.bound? t.id = some r → (m'.regs r).setWidth (width (workBits env.types t.type))
      = (m.regs r).setWidth (width (workBits env.types t.type))

/-- An operand is copied to a slot, through `rax` if need be. If it is a register of 32 bits, this may
be filled up, so a temporary that it belongs to has to be computed at 32 bits. -/
theorem slotMove_runs {k : Nat} {via : Option Reg} (hs : InOrder env s) (hrbp : m.regs .rbp = base)
    (hbits : IsWidth bits) (husable : op.Usable) (ha : Carries m op signed a)
    (hvia : via = some .rax ∨ via = none ∧ ∃ r, op = .reg r)
    (hwork : ∀ t r, env.HasTemp t → s.bound? t.id = some r → op = .reg ⟨r, 32⟩ →
      workBits env.types t.type = 32)
    (hQ : ∀ m', m'.regs .rbp = m.regs .rbp → KeepsBound env s m m' →
      m'.mem = m.mem.store (env.place base k) (ofInt (width bits) a) → Q () s m') :
    Runs F (Emitter.move (.mem (slot (env.slotAt k) bits)) op signed via) s m Q := by
  have hvia' : ∀ r, via = some r → r = .rax := by
    intro r hr
    rcases hvia with rfl | ⟨rfl, -⟩
    · exact (Option.some.inj hr).symm
    · cases hr
  -- the base pointer is no operand, so it is not filled up
  have hapart : ∀ r, op.Narrow bits r → r ≠ .rbp := fun r hr h =>
    absurd (h ▸ (husable.narrow hbits hr).2) (by decide)
  have hrax : ∀ r, via = some r → r.Whole ∧ r ∉ (Asm.Operand.mem (slot (env.slotAt k) bits)).regs := by
    intro r hr
    rw [hvia' r hr]
    exact ⟨by decide, fun h => absurd (List.mem_singleton.mp h) (by decide)⟩
  refine Runs.write fun _ hok => ?_
  obtain ⟨m', hm', hputs⟩ := (Asm.moveToMem_puts (L := default) (d := slot (env.slotAt k) bits) hbits.mem
    husable.source.1 hrax fun r hr hnarrow =>
      hapart r hnarrow (List.mem_singleton.mp hr)).plain ⟨husable.source.2, rfl⟩ hok m
  show (runLines (Text.moveToMem (slot (env.slotAt k) bits) op signed via).lines m).Meets F _
  rw [hm']
  refine hQ m' (hputs.regs _ (fun h => absurd (hvia' _ h) (by decide)) fun h => hapart _ h rfl)
    (fun t r ht hr => ?_) ?_
  · have hrax : via ≠ some r := fun h =>
      absurd (hvia' r h ▸ hs.mem_scratch (.inr (hs.used_of_bound hr))) (by decide)
    by_cases hop : op.Narrow bits r
    · obtain ⟨hreg, -⟩ := husable.narrow hbits hop
      rw [hwork t r ht hr hreg]
      exact hputs.low ⟨r, 32⟩ hreg hrax
    · rw [hputs.regs r hrax hop]
  · have haddress : (slot (env.slotAt k) bits).place default m = env.place base k := by
      have hlink := Asm.Mem.address_link default (slot (env.slotAt k) bits) m
      rw [Asm.Mem.link_eq rfl, slot_address, hrbp] at hlink
      exact (Option.some.inj hlink).symm
    rw [hputs.mem, haddress]
    exact congrArg (m.mem.store (env.place base k)) (ha.worth (.inl husable) hbits.bytes.2)

/-! ## Results narrower than registers -/

theorem narrow_runs (ht : env.HasTemp t) (hr : r ∈ Reg.general)
    (hvalue : (m.regs r).setWidth (width (workBits env.types t.type))
      = ofInt (width (workBits env.types t.type)) c) (hQ : ∀ m', m.SameBut (· = r) m' →
      (m'.regs r).setWidth (width (workBits env.types t.type))
        = ofInt (width (workBits env.types t.type)) (env.types.wrap t.type c) → Q () s m') :
    Runs F (narrow env t (.reg ⟨r, workBits env.types t.type⟩)) s m Q := by
  have hwork := workBits_isWork env.types t.type
  have hbits := isWidth_of_scalar ht.2
  refine Runs.ite (fun hwide => Runs.pure (hQ m (.refl _ m) ?_)) fun hnarrow => ?_
  · rw [hvalue, ofInt_wrap]
    show width (workBits env.types t.type) ≤ width (env.types.bits t.type)
    rcases hwork with h | h <;> rcases hbits with h' | h' | h' | h' <;>
      simp only [h, h'] at hwide ⊢ <;> revert hwide <;> decide
  · have hcarries : Carries m (.reg ⟨r, env.types.bits t.type⟩) (isSigned t.type)
        (env.types.wrap t.type c) := by
      refine ⟨?_, wrap_inRange _ _ _⟩
      have hle : width (env.types.bits t.type) ≤ width (workBits env.types t.type) :=
        width_le_work ht.2
      rw [← BitVec.setWidth_setWidth_of_le _ hle, hvalue, setWidth_ofInt hle]
      exact (ofInt_wrap (Nat.le_refl _) c).symm
    have hop : Asm.extension (if isSigned t.type then .movsx else .movzx)
        (width (env.types.bits t.type)) (width (workBits env.types t.type)) = some (isSigned t.type) := by
      unfold workBits at hnarrow ⊢
      rcases hbits with h | h | h | h <;> simp only [h] at hnarrow ⊢
      · cases isSigned t.type <;> rfl
      · cases isSigned t.type <;> rfl
      · exact absurd (by decide) hnarrow
      · exact absurd (by decide) hnarrow
    have hnameable : (Register.mk r (workBits env.types t.type)).Nameable :=
      ⟨Asm.Reg.whole_of_general r hr, hwork.isWidth.mem⟩
    refine runs_lift (Asm.Reg.at_eq hr hbits) (Runs.write fun _ hok => ?_)
    obtain ⟨m', hm', hfills⟩ := (Asm.Fills.extension (L := default) hnameable (.inl ⟨_, rfl⟩) hop).plain
      trivial hok m
    rw [hm']
    exact hQ m' hfills.same (hfills.value.trans (hcarries.worth (.inr ⟨_, rfl⟩) hwork.bounds.2))

/-! ## Putting a result into its place -/

/-- The result has been put into the place of its temporary. A register may hold more bits of it than
the type has. -/
def Put (env : Env) (base : BitVec 64) (N : Nat → Prop) (σ : Store) (t : Temp) (c : Int)
    (d : Asm.Operand) (s : State) (m : Asm.Machine) : Prop :=
  (∃ r, d = .reg ⟨r, workBits env.types t.type⟩ ∧ s.bound? t.id = some r ∧
    Represents env base (fun i => N i ∧ i ≠ t.id) σ s m ∧
    (m.regs r).setWidth (width (workBits env.types t.type)) = ofInt (width (workBits env.types t.type)) c) ∨
  ((∃ y, d = .mem y) ∧ Represents env base N (σ.setTemp t.id (env.types.wrap t.type c)) s m)

/-- The register of a result is written. -/
theorem Represents.writeOwn (h : Represents env base (fun i => N i ∧ i ≠ t.id) σ s m)
    (hs : InOrder env s) (hr : s.bound? t.id = some r) (hsame : m.SameBut (· = r) m') :
    Represents env base (fun i => N i ∧ i ≠ t.id) σ s m' := by
  have hscratch := hs.mem_scratch (.inr (hs.used_of_bound hr))
  refine h.sameBut hsame (fun h => absurd (h ▸ hscratch) (by decide)) fun q i hq hi hbound => ?_
  exact hi.2 (hs.bound_inj hbound (hq ▸ hr))

theorem slot_eq (hframed : env.Framed) (ht : env.HasTemp t) :
    tempSlot env t = slot (env.slotAt (tempIndex env.func t.id)) (env.types.bits t.type) := by
  rw [tempSlot, tempSlot_eq hframed ht.lt]

section

variable {s1 : State} {d : Asm.Operand}

theorem put_runs (hframed : env.Framed) (hfits : env.Fits base) (hplaced : Placed env s1 t d s)
    (hothers : Represents env base (fun i => N i ∧ i ≠ t.id) σ s m) (ht : env.HasTemp t)
    {op : Asm.Operand} {signed : Bool} {via : Option Reg} (husable : op.Usable)
    (hcarries : Carries m op signed c) (hvia : via = some .rax ∨ via = none ∧ ∃ r, op = .reg r)
    (hwork : ∀ t' q, env.HasTemp t' → s1.bound? t'.id = some q → op = .reg ⟨q, 32⟩ →
      workBits env.types t'.type = 32) :
    Runs F (Emitter.move d op signed via) s m fun _ s' m' =>
      s' = s ∧ Put env base N σ t c d s m' := by
  rcases hplaced.place with ⟨r, rfl, hr⟩ | ⟨rfl, hr⟩
  · have hgeneral := hplaced.order.general (hplaced.order.used_of_bound hr)
    refine runs_moveReg hgeneral (workBits_isWork _ _) husable hcarries fun m' hsame hvalue => ?_
    exact ⟨rfl, .inl ⟨r, rfl, hr, hothers.writeOwn hplaced.order hr hsame, hvalue⟩⟩
  · rw [slot_eq hframed ht]
    refine slotMove_runs hplaced.order hothers.rbp (isWidth_of_scalar ht.2) husable hcarries hvia
      (fun t' q ht' hq hop => ?_) fun m' hrbp hregs hmem => ⟨rfl, .inr ⟨⟨_, rfl⟩,
        hothers.setSlot hfits ht hplaced.const hr hrbp hregs hmem⟩⟩
    refine hwork t' q ht' ?_ hop
    rw [← hplaced.bound _ fun hid => by rw [hid, hr] at hq; cases hq]
    exact hq

theorem Put.represents (h : Put env base N σ t c d s m) (ht : env.HasTemp t) (hconst : s.const? t.id = none)
    (hwide : ofInt (width (workBits env.types t.type)) (env.types.wrap t.type c)
      = ofInt (width (workBits env.types t.type)) c) :
    Represents env base N (σ.setTemp t.id (env.types.wrap t.type c)) s m := by
  rcases h with ⟨r, -, hr, hothers, hvalue⟩ | ⟨-, hdone⟩
  · exact hothers.setReg ht hconst hr (hvalue.trans hwide.symm)
  · exact hdone

theorem Put.narrow_runs (h : Put env base N σ t c d s m) (ht : env.HasTemp t) (hs : InOrder env s)
    (hconst : s.const? t.id = none) :
    Runs F (narrow env t d) s m fun _ s' m' =>
      s' = s ∧ Represents env base N (σ.setTemp t.id (env.types.wrap t.type c)) s m' := by
  rcases h with ⟨r, rfl, hr, hothers, hvalue⟩ | ⟨⟨y, rfl⟩, hdone⟩
  · have hgeneral := hs.general (hs.used_of_bound hr)
    refine Emit.narrow_runs ht hgeneral hvalue fun m' hsame hvalue' => ⟨rfl, ?_⟩
    exact (hothers.writeOwn hs hr hsame).setReg ht hconst hr hvalue'
  · exact Runs.pure ⟨rfl, hdone⟩

end

/-! ## Moves -/

theorem moveConst_runs (h : Faithful env base N σ K s m) (ht : env.HasTemp t) {value : Int64}
    {type : Ty} (hvalue : value = Int64.ofInt a) :
    Runs F (emitMoveTemp env t (.int value type)) s m fun _ =>
      Faithful env base N (σ.setTemp t.id (env.types.wrap t.type a)) (learn K t.id true) := by
  refine Runs.bind (unbindAny_runs h.order ht.lt) ?_
  rintro _ s1 _ ⟨rfl, hs1, hconsts, hbound⟩
  have hconst : ∀ i, s1.const? i = s.const? i := fun i => by rw [State.const?, hconsts]; rfl
  refine Runs.modify ⟨?_, ⟨hs1.holds.congr rfl rfl, hs1.length, hs1.owner⟩, fun i => ?_⟩
  · have hothers : Represents env base (fun i => N i ∧ i ≠ t.id) σ
        (s1.remember t.id ⟨truncate env.types value t.type, t.type⟩) m := by
      refine h.rep.congr (fun _ h => h.1) rfl (fun i hi => ?_) (fun i hi => hbound i hi.2)
        (fun _ _ _ _ _ => rfl) (.of_eq (fun _ => False) rfl) (fun _ _ h => h) fun _ _ h => h
      rw [State.const?_remember_of_ne _ _ (Ne.symm hi.2), hconst]
    refine hothers.setTemp ht (wrap_inRange _ _ _) ?_
    unfold Kept
    rw [State.const?_remember_self]
    rw [truncate_eq ht.2, hvalue, wrap_toInt_ofInt ht.2]
  · by_cases hi : i = t.id
    · rw [hi, State.const?_remember_self, learn, if_pos rfl]
      rfl
    · rw [State.const?_remember_of_ne _ _ (Ne.symm hi), hconst, h.known, learn, if_neg hi]

theorem moveTemp_runs (hframed : env.Framed) (hfits : env.Fits base)
    (h : Faithful env base N σ K s m) (ht : env.HasTemp t) (hx : Valued env N σ x a) :
    Runs F (do
      let s ← Emitter.within "source" (operand env x)
      let d ← dest env t
      Emitter.move d s (isSigned x.type) (some .rax)
      if x.type ≠ .untyped && env.types.bits x.type ≤ env.types.bits t.type then return
      else narrow env t d) s m fun _ =>
      Faithful env base N (σ.setTemp t.id (env.types.wrap t.type a)) (learn K t.id false) := by
  have hrange := h.rep.inRange hx
  refine Runs.bind (Runs.within (operand_runs hframed h.rep h.order hx) _) ?_
  intro op s1 m1 hread
  refine Runs.bind (dest_runs hread.order ht) ?_
  rintro d s2 _ ⟨rfl, hplaced⟩
  have hwork : ∀ t' q, env.HasTemp t' → s1.bound? t'.id = some q → op = .reg ⟨q, 32⟩ →
      workBits env.types t'.type = 32 := by
    intro t' q ht' hq hop
    obtain ⟨tx, rfl, hbound, hbits⟩ := hread.temp _ hop
    obtain rfl := ht'.eq hx.reads (hread.order.bound_inj hq hbound)
    exact hbits.symm
  refine Runs.bind (put_runs hframed hfits hplaced (hplaced.represents hread.rep) ht hread.usable
    hread.carries (.inl rfl) hwork) ?_
  rintro _ _ m2 ⟨rfl, hput⟩
  refine Runs.ite (fun hle => Runs.pure ?_) fun _ => ?_
  · have hle : env.types.bits x.type ≤ env.types.bits t.type := by
      rw [Bool.and_eq_true] at hle
      simpa using hle.2
    exact ⟨hput.represents ht hplaced.const (ofInt_wrap_work ht.2 hx.reads.scalar hrange hle),
      hplaced.order, hplaced.known h hread.growing.consts⟩
  · refine (hput.narrow_runs ht hplaced.order hplaced.const).mono ?_
    rintro _ _ m3 ⟨rfl, hdone⟩
    exact ⟨hdone, hplaced.order, hplaced.known h hread.growing.consts⟩

theorem moveVar_runs (hframed : env.Framed) (hfits : env.Fits base)
    (h : Faithful env base N σ K s m) (hv : env.HasVar v) (hx : Valued env N σ x a) :
    Runs F (emitMoveVar env (.var v) x) s m fun _ =>
      Faithful env base N (σ.setLocal v.index (env.types.wrap v.type a)) K := by
  refine runs_within (checkScalar_eq hv.2) ?_
  refine Runs.bind (Runs.within (operand_runs hframed h.rep h.order hx) _) ?_
  intro op s1 m1 hread
  rw [operand_var hframed hv]
  refine runs_after rfl (slotMove_runs hread.order hread.rep.rbp (isWidth_of_scalar hv.2)
    hread.usable hread.carries (.inl rfl) (fun t' q ht' hq hop => ?_)
    fun m' hrbp hregs hmem => ⟨hread.rep.setVar hfits hv hrbp hregs hmem, hread.order, fun i => ?_⟩)
  · obtain ⟨tx, rfl, hbound, hbits⟩ := hread.temp _ hop
    obtain rfl := ht'.eq hx.reads (hread.order.bound_inj hq hbound)
    exact hbits.symm
  · exact congrFun (h.isKnown_eq hread.growing.consts) i

/-- A known temporary stands for a number of its type. -/
theorem Faithful.const (h : Faithful env base N σ K s m) (hx : Valued env N σ (.temp t) a)
    {c : Const} (hc : s.const? t.id = some c) :
    c = ⟨Int64.ofInt a, t.type⟩ ∧ Valued env N σ (.int c.value c.type) a := by
  obtain ⟨hrange, hkept⟩ := h.rep.temps t a hx.reads (hx.counts t rfl) hx.value
  unfold Kept at hkept
  rw [hc] at hkept
  obtain rfl : c = ⟨Int64.ofInt a, t.type⟩ := hkept
  have hwrap : env.types.wrap t.type (Int64.ofInt a).toInt = a :=
    (wrap_toInt_ofInt hx.reads.2 a).trans hrange
  exact ⟨rfl, ⟨hx.reads.2, congrArg Int64.ofInt hwrap⟩, nofun, congrArg some hwrap⟩

/-- The source of a move is a number if its value is known, and itself if not. -/
theorem knownSource_eq (h : Faithful env base N σ K s m) (hx : Valued env N σ x a) :
    ∃ x', knownSource x s = ⟨[], .ok (x', s)⟩ ∧ Valued env N σ x' a ∧
      (isKnown K x ∧ (∃ type, x' = .int (Int64.ofInt a) type) ∨
        isKnown K x = false ∧ ∀ value type, x' ≠ .int value type) := by
  cases x with
  | temp t =>
    have hknown := h.known t.id
    have hsource : knownSource (.temp t) s = ((s.const? t.id).elim (pure (.temp t)) fun c =>
      (pure (.int c.value c.type) : Emitter Ir.Operand)) s := by
      refine (bind_quiet rfl).trans ?_
      cases s.const? t.id <;> rfl
    cases hc : s.const? t.id with
    | some c =>
      rw [hc] at hsource hknown
      obtain ⟨rfl, hvalued⟩ := h.const hx hc
      exact ⟨_, hsource, hvalued, .inl ⟨hknown.symm, _, rfl⟩⟩
    | none =>
      rw [hc] at hsource hknown
      exact ⟨_, hsource, hx, .inr ⟨hknown.symm, nofun⟩⟩
  | var v => exact ⟨_, rfl, hx, .inr ⟨rfl, nofun⟩⟩
  | int value type =>
    obtain rfl : env.types.wrap type value.toInt = a := Option.some.inj hx.value
    exact ⟨_, rfl, hx, .inl ⟨rfl, type, by rw [hx.reads.2]⟩⟩
  | _ => exact hx.reads.elim

theorem move_runs (hframed : env.Framed) (hfits : env.Fits base) (h : Faithful env base N σ K s m)
    (ht : env.HasTemp t) (hx : Valued env N σ x a) :
    Runs F (emitMove env ⟨.move, none, [.temp t, x]⟩) s m fun _ =>
      Faithful env base N (σ.setTemp t.id (env.types.wrap t.type a)) (learn K t.id (isKnown K x)) := by
  obtain ⟨x', hsource, hx', hknown⟩ := knownSource_eq h hx
  refine runs_lift rfl (runs_after hsource (runs_lift rfl ?_))
  rcases hknown with ⟨hknown, type, rfl⟩ | ⟨hknown, hne⟩
  · rw [hknown]
    exact moveConst_runs h ht rfl
  · have hmove := moveTemp_runs (F := F) hframed hfits h ht hx'
    rw [hknown]
    cases x' with
    | int value type => exact absurd rfl (hne value type)
    | _ => exact hmove

theorem moveToVar_runs (hframed : env.Framed) (hfits : env.Fits base)
    (h : Faithful env base N σ K s m) (hv : env.HasVar v) (hx : Valued env N σ x a) :
    Runs F (emitMove env ⟨.move, none, [.var v, x]⟩) s m fun _ =>
      Faithful env base N (σ.setLocal v.index (env.types.wrap v.type a)) K := by
  obtain ⟨x', hsource, hx', -⟩ := knownSource_eq h hx
  exact runs_lift rfl (runs_after hsource (runs_lift rfl (moveVar_runs hframed hfits h hv hx')))

/-! ## Arithmetic in place -/

/-- A register to compute a result in has been found. If it is not the one of the temporary, the result
has to be stored afterwards. -/
structure Targeted (env : Env) (s : State) (t : Temp) (d : Register) (spilled : Bool) (s' : State) :
    Prop extends Cleared env s t s' where
  bits : d.bits = workBits env.types t.type
  held : ∀ x op, HeldBy s x op → (∀ t', x = .temp t' → t'.id ≠ t.id) → HeldBy s' x op ∧ d.reg ∉ op.regs
  place : spilled = false ∧ s'.bound? t.id = some d.reg ∨
    spilled = true ∧ s'.bound? t.id = none ∧ d.reg ∈ s'.scratches

theorem resultRegister_runs (hs : InOrder env s) (ht : env.HasTemp t) :
    Runs F (resultRegister env t (workBits env.types t.type)) s m fun p s' m' =>
      m' = m ∧ Targeted env s t p.1 p.2 s' := by
  refine Runs.bind (dest_runs hs ht) ?_
  rintro d s1 m1 ⟨rfl, hplaced⟩
  rcases hplaced.place with ⟨r, rfl, hr⟩ | ⟨rfl, hr⟩
  · have hgeneral := hplaced.order.general (hplaced.order.used_of_bound hr)
    refine runs_lift (Asm.Reg.at_eq hgeneral (workBits_isWork _ _).isWidth) (Runs.pure ⟨rfl, ?_⟩)
    exact ⟨hplaced.toCleared, rfl,
      fun x op hop hx => ⟨hplaced.heldBy hop hx, hplaced.not_mem_regs hop hx hr⟩, .inl ⟨rfl, hr⟩⟩
  · refine Runs.bind (runs_scratch (Q := fun d s' m' => m' = m1 ∧ Targeted env s t d true s')
      fun r p hp => ⟨rfl, ?_⟩) fun d s' m' h => Runs.pure h
    have hmem : r ∈ s1.pool.free := take_free hp ▸ List.mem_cons_self
    refine ⟨⟨hplaced.order.take hp, hplaced.const, hplaced.consts, hplaced.bound⟩, rfl,
      fun x op hop hx => ?_, .inr ⟨rfl, hr, List.mem_cons_self⟩⟩
    have hheld := hplaced.heldBy hop hx
    exact ⟨hheld.grows (grows_take hp), fun hreg => hheld.not_free hplaced.order r hreg hmem⟩

namespace Targeted

variable {d : Register} {spilled : Bool} {s' : State}

theorem used (h : Targeted env s t d spilled s') : d.reg ∈ s'.pool.used := by
  rcases h.place with ⟨-, hbound⟩ | ⟨-, -, hscratch⟩
  · exact h.order.used_of_bound hbound
  · exact h.order.used_of_scratch hscratch

theorem general (h : Targeted env s t d spilled s') : d.reg ∈ Reg.general :=
  h.order.general h.used

/-- No other temporary has the register. -/
theorem not_bound (h : Targeted env s t d spilled s') {i : Nat} (hi : i ≠ t.id) :
    s'.bound? i ≠ some d.reg := by
  intro hbound
  rcases h.place with ⟨-, hown⟩ | ⟨-, -, hscratch⟩
  · exact hi (h.order.bound_inj hbound hown)
  · exact h.order.scratch_not_bound hscratch hbound

theorem write (h : Targeted env s t d spilled s')
    (hrep : Represents env base (fun i => N i ∧ i ≠ t.id) σ s' m)
    (hsame : m.SameBut (· = d.reg) m') : Represents env base (fun i => N i ∧ i ≠ t.id) σ s' m' := by
  refine hrep.sameBut hsame (fun hrbp => ?_) fun q i hq hi => ?_
  · exact absurd (hrbp ▸ h.general) (by decide)
  · rw [hq]
    exact h.not_bound hi.2

end Targeted

/-- What an operation in place computes, at every width. -/
def Arithmetic (op : Asm.Mnemonic) (a b c : Int) : Prop :=
  op.isArithmetic ∧ ∀ w ≤ 64, Asm.arithmetic op (ofInt w a) (ofInt w b) = some (ofInt w c)

theorem Targeted.fetched (h : Targeted env s t d spilled s') (hop : Fetched env x a op s m)
    (hx : ∀ t', x = .temp t' → t'.id ≠ t.id) (hsame : m.SameBut (· = d.reg) m') :
    Fetched env x a op s' m' := by
  obtain ⟨hheld, hreg⟩ := h.held x op hop.held hx
  refine ⟨Carries.of_same hop.carries hsame fun r hr h => hreg (h ▸ hr), hop.usable, hheld,
    fun r hr => ?_, fun himm => ?_⟩
  · obtain ⟨t', hx', hbound, hbits⟩ := hop.temp r hr
    exact ⟨t', hx', (h.bound _ (hx t' hx')).trans hbound, hbits⟩
  · have hknown := hop.known himm
    cases x with
    | temp t' =>
      show (s'.const? t'.id).isSome
      rw [h.consts _ (hx t' rfl)]
      exact hknown
    | _ => exact hknown

theorem Targeted.grows {s2 : State} (h : Targeted env s t d spilled s1) (hs : InOrder env s2)
    (hgrows : s1.Grows s2) (hbound : s2.bound = s1.bound) : Targeted env s t d spilled s2 := by
  have hconst : ∀ i, s2.const? i = s1.const? i := fun i => by
    rw [State.const?, hgrows.consts]
    rfl
  have hregs : ∀ i, s2.bound? i = s1.bound? i := fun i => by
    rw [State.bound?, hbound]
    rfl
  refine ⟨⟨hs, (hconst _).trans h.const, fun i hi => (hconst i).trans (h.consts i hi),
    fun i hi => (hregs i).trans (h.bound i hi)⟩, h.bits, fun x op hop hx => ?_, ?_⟩
  · obtain ⟨hheld, hreg⟩ := h.held x op hop hx
    exact ⟨hheld.grows hgrows, hreg⟩
  · rw [hregs]
    refine h.place.imp_right ?_
    rintro ⟨hspilled, hnone, hmem⟩
    exact ⟨hspilled, hnone, hgrows.scratches _ hmem⟩

/-- A result that has been computed in a register gets to its place. -/
theorem settle_runs (hframed : env.Framed) (hfits : env.Fits base) (ht : env.HasTemp t)
    (htarget : Targeted env s1 t d spilled s)
    (hothers : Represents env base (fun i => N i ∧ i ≠ t.id) σ s m)
    (hvalue : (m.regs d.reg).setWidth (width d.bits) = ofInt (width d.bits) c) :
    Runs F (if spilled then spill env t d else narrow env t (.reg d)) s m fun _ s' m' =>
      s' = s ∧ Represents env base N (σ.setTemp t.id (env.types.wrap t.type c)) s m' := by
  have hs := htarget.order
  have hconst := htarget.const
  obtain ⟨r, bits⟩ := d
  obtain rfl : bits = workBits env.types t.type := htarget.bits
  rcases htarget.place with ⟨rfl, hr⟩ | ⟨rfl, hr, hscratch⟩
  · have hput : Put env base N σ t c (.reg ⟨r, workBits env.types t.type⟩) s m :=
      Or.inl ⟨r, rfl, hr, hothers, hvalue⟩
    exact hput.narrow_runs ht hs hconst
  · have hcarries := Carries.of_bits (isSigned t.type) hvalue
    rw [if_pos rfl, spill, slot_eq hframed ht, ← wrap_wrapTo_work ht.2 (isSigned t.type) c]
    refine slotMove_runs hs hothers.rbp (isWidth_of_scalar ht.2) ⟨hs.general (hs.used_of_scratch hscratch),
        workBits_isWork _ _⟩ hcarries (.inr ⟨rfl, _, rfl⟩) (fun t' q _ hq hop => ?_)
      fun m' hrbp hregs hmem => ⟨rfl, hothers.setSlot hfits ht hconst hr hrbp hregs hmem⟩
    have hrq : r = q := congrArg Register.reg (Asm.Operand.reg.inj hop)
    exact absurd (hrq ▸ hq) (hs.scratch_not_bound hscratch)

theorem binary_runs (hframed : env.Framed) (hfits : env.Fits base) (h : Faithful env base N σ K s m)
    (ht : env.HasTemp t) (hx : Valued env N σ x a) (hy : Valued env N σ y b)
    (hyt : ∀ t', y = .temp t' → t'.id ≠ t.id) {op : Opcode}
    (hop : Arithmetic (binaryMnemonic op) a b c) :
    Runs F (emitBinary env ⟨op, some t, [x, y]⟩) s m fun _ =>
      Faithful env base N (σ.setTemp t.id (env.types.wrap t.type c)) (learn K t.id false) := by
  have hwork := workBits_isWork env.types t.type
  refine runs_lift rfl (runs_lift rfl (runs_after rfl (runs_lift (work_eq ht.2) ?_)))
  refine runs_operands hframed h.rep h.order hx hy fun lop rop s1 m1 hread => ?_
  refine Runs.bind (resultRegister_runs hread.order ht) ?_
  rintro ⟨d, spilled⟩ s2 m1 ⟨rfl, htarget⟩
  obtain ⟨r, bits⟩ := d
  obtain rfl : bits = workBits env.types t.type := htarget.bits
  -- the left operand is copied, and the right one is still there
  refine Runs.bind (Runs.within (runs_moveReg (Q := fun _ s' m' => s' = s2 ∧ m1.SameBut (· = r) m' ∧
    (m'.regs r).setWidth (width (workBits env.types t.type))
      = ofInt (width (workBits env.types t.type)) a) htarget.general hwork hread.left.usable
    hread.left.carries fun m' hsame hvalue => ⟨rfl, hsame, hvalue⟩) _) ?_
  rintro _ _ m2 ⟨rfl, hsame, hvalue⟩
  have hright := htarget.fetched hread.right hyt hsame
  refine Runs.bind (Runs.within (atWidth_runs (htarget.write (htarget.represents hread.rep) hsame)
    htarget.order hy.reads hwork hright) _) ?_
  intro rop' s3 m3 hfit
  have hkeep : m3.regs r = m2.regs r := by
    refine hfit.same.regs r ?_
    rintro (hfree | ⟨b, -, hreg⟩)
    · exact htarget.order.not_free htarget.used hfree
    · refine (htarget.held y rop hread.right.held hyt).2 ?_
      rw [hreg]
      exact List.mem_singleton_self _
  obtain ⟨m4, hrun, hsame4, hvalue4⟩ := Asm.compute_runs (d := ⟨r, workBits env.types t.type⟩)
    hop.1 hwork (hkeep ▸ hvalue) hfit.supplies (hop.2 _ hwork.bounds.2)
  refine runs_ins hrun ?_
  have htarget' := htarget.grows hfit.order hfit.grows hfit.bound
  refine (settle_runs hframed hfits ht htarget' (htarget'.write hfit.rep hsame4) hvalue4).mono ?_
  rintro _ _ m5 ⟨rfl, hdone⟩
  exact ⟨hdone, htarget'.order, htarget'.known h hread.consts⟩

/-! ## Products and quotients -/

/-- What `rax` is multiplied or divided to, if the quotient is a number. -/
def mulDivResult (op : Opcode) (w : Nat) (signed : Bool) (a b : Int) : Option Int :=
  if op = .mul then some (a * b) else quotient w signed a b

/-- A quotient that is a number is in `rax`; the machine faults exactly if there is none. -/
theorem divided_runs {op : Asm.Mnemonic} {x : Asm.Operand} {m1 : Asm.Machine}
    (hsame : m.SameBut Asm.Reg.isPair m1) (h : Asm.Divided m1 bits q (runLines [.ins op [x]] m1)) :
    Runs (q = none) (Emitter.ins op [x]) s m1 fun _ s' m' => ∃ c, q = some c ∧ s' = s ∧
      m.SameBut Asm.Reg.isPair m' ∧
      (m'.regs .rax).setWidth (width bits) = ofInt (width bits) c := by
  refine Runs.ins ?_
  cases q with
  | none =>
    rw [h]
    rfl
  | some c =>
    obtain ⟨m', hrun, hsame', hvalue⟩ := h
    rw [hrun]
    exact ⟨c, rfl, rfl, hsame.trans hsame', hvalue⟩

theorem mulDivBy_runs {op : Opcode} {x : Asm.Operand} (hbits : IsWork bits) (himm : x.isImm = false)
    (hxbits : x.bits = width bits) (hx : x.read m (width bits) = some (ofInt (width bits) b))
    (hregs : ∀ r ∈ x.regs, ¬ Asm.Reg.isPair r)
    (hax : (m.regs .rax).setWidth (width bits) = ofInt (width bits) a) :
    Runs (mulDivResult op (width bits) signed a b = none) (mulDivBy op signed bits x) s m
      fun _ s' m' => ∃ c, mulDivResult op (width bits) signed a b = some c ∧ s' = s ∧
        m.SameBut Asm.Reg.isPair m' ∧
        (m'.regs .rax).setWidth (width bits) = ofInt (width bits) c := by
  -- the sign or zero in `rdx` leaves `rax` and the operand alone
  have hread : ∀ {m1}, m.SameBut (· = .rdx) m1 → x.read m1 (width bits) = some (ofInt (width bits) b) ∧
        (m1.regs .rax).setWidth (width bits) = ofInt (width bits) a := by
    intro m1 hsame
    refine ⟨(read_of_same hsame (fun r hr h => hregs r hr (.inr h)) _).trans hx, ?_⟩
    rw [hsame.regs _ (by decide)]
    exact hax
  unfold mulDivBy mulDivResult
  by_cases hop : op = .mul
  · rw [if_pos hop, if_pos hop]
    obtain ⟨m', hrun, hsame, hvalue⟩ := Asm.multiply_runs hbits himm hxbits hax hx
    refine Runs.ins ?_
    rw [hrun]
    exact ⟨_, rfl, rfl, hsame, hvalue⟩
  · rw [if_neg hop, if_neg hop]
    cases signed with
    | true =>
      obtain ⟨m1, hrun, hsame, hdx⟩ := Asm.signFill_runs m hbits
      obtain ⟨hx1, hax1⟩ := hread hsame
      exact runs_ins hrun (divided_runs (hsame.mono fun _ => .inr)
        (Asm.divideSigned_runs hbits himm hxbits hax1 hdx hx1))
    | false =>
      obtain ⟨m1, hrun, hsame, hdx⟩ := Asm.clear_runs m (d := ⟨.rdx, bits⟩) hbits
      obtain ⟨hx1, hax1⟩ := hread hsame
      have hzero : (m1.regs .rdx).setWidth (width bits) = 0 := by
        rw [hdx]
        exact BitVec.setWidth_zero _ _
      exact runs_ins hrun (divided_runs (hsame.mono fun _ => .inr)
        (Asm.divide_runs hbits himm hxbits hax1 hzero hx1))

/-- A number is put into a register before it is multiplied or divided by. -/
theorem factor_runs {op' : Asm.Operand} (hbits : IsWork bits)
    (hfit : Fitted env base N σ s m x b bits op op' s' m') :
    Runs F (factor op' bits (isSigned x.type)) s' m' fun f s'' m'' => f.isImm = false ∧
      Fitted env base N σ s m x b bits op f s'' m'' := by
  cases op' with
  | imm i =>
    refine (hfit.toScratch_runs hbits).mono ?_
    rintro _ s'' m'' ⟨⟨r, rfl⟩, hfit'⟩
    exact ⟨rfl, hfit'⟩
  | _ => exact Runs.pure ⟨rfl, hfit⟩

/-- Registers are written that are never handed out. -/
theorem Represents.pair (h : Represents env base N σ s m) (hs : InOrder env s)
    (hsame : m.SameBut Asm.Reg.isPair m') : Represents env base N σ s m' := by
  refine h.sameBut hsame (fun hrbp => hrbp.elim (by decide) (by decide)) fun r i hr _ hbound => ?_
  exact not_pair_of_scratch (hs.mem_scratch (.inr (hs.used_of_bound hbound))) hr

theorem mulDiv_runs (hframed : env.Framed) (hfits : env.Fits base) (h : Faithful env base N σ K s m)
    (ht : env.HasTemp t) (hx : Valued env N σ x a) (hy : Valued env N σ y b) {op : Opcode}
    (hq : mulDivResult op (width (workBits env.types t.type)) (isSigned t.type) a b = q) :
    Runs (q = none) (emitMulDiv env ⟨op, some t, [x, y]⟩) s m fun _ s' m' => ∃ c, q = some c ∧
      Faithful env base N (σ.setTemp t.id (env.types.wrap t.type c)) (learn K t.id false) s' m' := by
  subst hq
  have hwork := workBits_isWork env.types t.type
  have hgeneral : Reg.rax ∈ Reg.general := by decide
  refine runs_lift rfl (runs_lift rfl (runs_after rfl (runs_lift (work_eq ht.2) ?_)))
  refine runs_operands hframed h.rep h.order hx hy fun lop rop s1 m1 hread => ?_
  -- `rax` gets the left operand
  refine Runs.bind (Runs.within (runs_moveReg (d := ⟨.rax, workBits env.types t.type⟩)
    (Q := fun _ s' m' => s' = s1 ∧ m1.SameBut Asm.Reg.isPair m' ∧
      (m'.regs .rax).setWidth (width (workBits env.types t.type))
        = ofInt (width (workBits env.types t.type)) a) hgeneral hwork hread.left.usable
    hread.left.carries fun m' hsame hvalue => ⟨rfl, hsame.mono fun _ => .inl, hvalue⟩) _) ?_
  rintro _ s1 m2 ⟨rfl, hsame, hvalue⟩
  have hnot := hread.right.held.not_pair hread.order
  have hright : Fetched env y b rop s1 m2 :=
    ⟨Carries.of_same hread.right.carries hsame hnot, hread.right.usable, hread.right.held,
      hread.right.temp, hread.right.known⟩
  -- the right one is made usable, which leaves `rax` alone
  refine Runs.bind (Runs.within (atWidth_runs (hread.rep.pair hread.order hsame) hread.order
    hy.reads hwork hright) _) ?_
  intro rop' s2 m3 hfit
  refine Runs.bind (factor_runs hwork hfit) ?_
  rintro f s3 m4 ⟨himm, hfit⟩
  have hax : m4.regs .rax = m2.regs .rax := by
    refine hfit.same.regs _ ?_
    rintro (hfree | ⟨b, -, hreg⟩)
    · exact not_pair_of_scratch (hread.order.mem_scratch (.inl hfree)) (.inl rfl)
    · refine hnot .rax ?_ (.inl rfl)
      rw [hreg]
      exact List.mem_singleton_self _
  have hfactor := read_of_source hfit.supplies
  refine Runs.bind (mulDivBy_runs hwork himm (bits_of_read himm hfactor) hfactor
    (hfit.held.not_pair hfit.order) (hax ▸ hvalue)) ?_
  rintro _ _ m5 ⟨c, hc, rfl, hsame5, hvalue5⟩
  -- and the result gets from `rax` to its place
  refine Runs.bind (dest_runs hfit.order ht) ?_
  rintro d s4 _ ⟨rfl, hplaced⟩
  have hcarries := Carries.of_bits (isSigned t.type) hvalue5
  refine Runs.bind (put_runs hframed hfits hplaced
    (hplaced.represents (hfit.rep.pair hfit.order hsame5)) ht ⟨hgeneral, hwork⟩ hcarries
    (.inr ⟨rfl, _, rfl⟩) fun t' q _ hq hop => ?_) ?_
  · have hrax : Reg.rax = q := congrArg Register.reg (Asm.Operand.reg.inj hop)
    exact absurd (.inl hrax.symm) (not_pair_of_scratch
      (hfit.order.mem_scratch (.inr (hfit.order.used_of_bound hq))))
  · rintro _ _ m6 ⟨rfl, hput⟩
    refine (hput.narrow_runs ht hplaced.order hplaced.const).mono ?_
    rintro _ _ m7 ⟨rfl, hdone⟩
    rw [wrap_wrapTo_work ht.2] at hdone
    exact ⟨c, hc, hdone, hplaced.order, hplaced.known h (hfit.grows.consts.trans hread.consts)⟩

end TreeAsm.Emit
