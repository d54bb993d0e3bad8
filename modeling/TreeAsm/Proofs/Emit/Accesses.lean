import TreeAsm.Proofs.Emit.Represents

/-!
# Reading operands and placing results

An operand is read from where its value is, and what is read carries the value. A temporary in its slot
may get a register for it. A result is put into the register of its temporary or into its slot, and a
register may be taken for the instruction at hand. None of this touches what else is represented:
registers that are taken were free before (`State.Grows`).
-/

namespace TreeAsm.Emit

open Asm (Carries IsWidth IsWork Reg Register Text runLines width)
open Ir
open BitVec (ofInt)

variable {env : Env} {base : BitVec 64} {N : Nat → Prop} {σ : Store} {s : State} {m : Asm.Machine}
  {F : Prop} {α β : Type} {Q : α → State → Asm.Machine → Prop}

/-! ## Steps that write nothing -/

variable {a : Int} {i : Nat} {r : Reg} {t : Temp} {x : Ir.Operand} {op : Asm.Operand} {s1 : State}
  {f : β → Emitter α} {p : Pool} {bits : Int64} {signed : Bool}

theorem runs_quiet {x : Emitter α} {a : α} (hx : x s = ⟨[], .ok (a, s1)⟩) (h : Q a s1 m) :
    Runs F x s m Q := by
  intro b s' hb
  rw [hx] at hb ⊢
  cases hb
  exact h

/-- What follows a step that writes nothing. -/
theorem runs_after {x : Emitter β} {a : β} (hx : x s = ⟨[], .ok (a, s1)⟩) (h : Runs F (f a) s1 m Q) :
    Runs F (x >>= f) s m Q := by
  refine Runs.bind (runs_quiet (Q := fun b s' m' => b = a ∧ s' = s1 ∧ m' = m) hx ⟨rfl, rfl, rfl⟩) ?_
  rintro _ _ _ ⟨rfl, rfl, rfl⟩
  exact h

theorem runs_lift {x : Outcome β} {a : β} (hx : x = .ok a) (h : Runs F (f a) s m Q) :
    Runs F (Emitter.lift x >>= f) s m Q :=
  runs_after (by rw [hx]; rfl) h

theorem runs_within {x : Outcome β} {a : β} {step : String} (hx : x = .ok a)
    (h : Runs F (f a) s m Q) : Runs F (Emitter.within step (Emitter.lift x) >>= f) s m Q :=
  runs_after (by rw [hx]; rfl) h

theorem runs_modify {g : State → State} {f : PUnit → Emitter α}
    (h : Runs F (f ⟨⟩) (g s) m Q) : Runs F (modify g >>= f) s m Q :=
  runs_after rfl h

/-- What follows an instruction. -/
theorem runs_ins {op : Asm.Mnemonic} {args : List Asm.Operand} {f : Unit → Emitter α} {m1 : Asm.Machine}
    (hrun : runLines [.ins op args] m = .next m1) (h : Runs F (f ()) s m1 Q) :
    Runs F (Emitter.ins op args >>= f) s m Q := by
  refine Runs.bind (Runs.ins (Q := fun _ s' m' => s' = s ∧ m' = m1) ?_) ?_
  · rw [hrun]
    exact ⟨rfl, rfl⟩
  · rintro _ _ _ ⟨rfl, rfl⟩
    exact h

theorem runs_constAt {f : Option Const → Emitter α} (h : Runs F (f (s.const? i)) s m Q) :
    Runs F (constAt i >>= f) s m Q := h

theorem boundAt_eq (i : Nat) (s : State) :
    boundAt i s = (s.bound[i]?.elim Emitter.crash fun r => (pure r : Emitter (Option Reg))) s := by
  refine (bind_quiet rfl).trans ?_
  cases s.bound[i]? <;> rfl

theorem runs_boundAt {f : Option Reg → Emitter α} {r : Option Reg} (hr : s.bound[i]? = some r)
    (h : Runs F (f r) s m Q) : Runs F (boundAt i >>= f) s m Q := by
  refine runs_after ?_ h
  rw [boundAt_eq, hr]
  rfl

/-- Without a place in the table there is no result. -/
theorem runs_noBound {f : Option Reg → Emitter α} (hr : s.bound[i]? = none) :
    Runs F (boundAt i >>= f) s m Q := by
  intro a s' ha
  obtain ⟨r, s1, hfirst, -⟩ := Emitter.bind_ok ha
  rw [boundAt_eq, hr] at hfirst
  cases hfirst

/-- A register is taken if one can be spared. -/
theorem runs_takeSpare {f : Option Reg → Emitter α} (hnone : Runs F (f none) s m Q)
    (hsome : ∀ r p, s.pool.takeSpare = some (r, p) → Runs F (f (some r)) { s with pool := p } m Q) :
    Runs F (takeSpare >>= f) s m Q := by
  have htake : takeSpare s = (s.pool.takeSpare.elim (pure none) fun p => (do
      modify fun s : State => { s with pool := p.2 }
      return some p.1 : Emitter (Option Reg))) s := by
    refine (bind_quiet rfl).trans ?_
    cases s.pool.takeSpare <;> rfl
  cases hp : s.pool.takeSpare with
  | none => exact runs_after (htake.trans (by rw [hp]; rfl)) hnone
  | some rp => exact runs_after (htake.trans (by rw [hp]; rfl)) (hsome rp.1 rp.2 hp)

/-- A register is taken for the instruction at hand. -/
theorem runs_scratch {Q : Register → State → Asm.Machine → Prop} (h : ∀ r p, s.pool.take = some (r, p) →
      Q ⟨r, bits⟩ { s with pool := p, scratches := r :: s.scratches } m) :
    Runs F (scratch bits) s m Q := by
  have htake : scratch bits s = (s.pool.take.elim (Emitter.fail .outOfScratchRegisters) fun p => (do
      modify fun s : State => { s with pool := p.2, scratches := p.1 :: s.scratches }
      return ⟨p.1, bits⟩ : Emitter Register)) s := by
    refine (bind_quiet rfl).trans ?_
    cases s.pool.take <;> rfl
  intro a s' ha
  rw [htake] at ha ⊢
  cases hp : s.pool.take with
  | none =>
    rw [hp] at ha
    cases ha
  | some rp =>
    rw [hp] at ha
    cases ha
    exact h rp.1 rp.2 hp

/-! ## Registers that are taken -/

theorem InOrder.forget (h : InOrder env s) (i : Nat) : InOrder env (s.forget i) :=
  ⟨h.holds.congr rfl rfl, h.length, h.owner⟩

theorem InOrder.take (h : InOrder env s) (ht : s.pool.take = some (r, p)) :
    InOrder env { s with pool := p, scratches := r :: s.scratches } :=
  ⟨(h.holds.take ht).congr rfl rfl, h.length, h.owner⟩

/-- A spare register is given to a temporary that has none. -/
theorem InOrder.takeSpare (h : InOrder env s) (ht : env.HasTemp t)
    (htake : s.pool.takeSpare = some (r, p)) (hnone : s.bound? t.id = none) :
    InOrder env ({ s with pool := p }.bind t.id (some r)) := by
  obtain ⟨htake, hroom⟩ := takeSpare_eq htake
  have hbound : s.bound[t.id]? = some none := hnone ▸ h.boundAt ht.lt
  exact ordered_iff_owned.mpr (((ordered_iff_owned.mp h).take htake).bind hbound hroom ht)

/-- The register of a temporary is given back. -/
theorem unbind_eq {taken : List Reg} (h : Ordered env taken s) (hr : s.bound[i]? = some (some r)) :
    ∃ p, unbind i r s = ⟨[], .ok ((), { s.bind i none with pool := p })⟩ ∧
      Ordered env taken { s.bind i none with pool := p } := by
  obtain ⟨p, hp, howned⟩ := (ordered_iff_owned.mp h).unbind_eq hr
  exact ⟨p, hp, ordered_iff_owned.mpr howned⟩

theorem unbindAny_runs (h : InOrder env s) (hi : i < env.func.temps.length) :
    Runs F (unbindAny i) s m fun _ s' m' => m = m' ∧ InOrder env s' ∧ s'.consts = s.consts ∧
      ∀ j, j ≠ i → s'.bound? j = s.bound? j := by
  refine runs_boundAt (h.boundAt hi) ?_
  cases hr : s.bound? i with
  | none => exact Runs.pure ⟨rfl, h, rfl, fun _ _ => rfl⟩
  | some r =>
    obtain ⟨p, hunbind, horder⟩ := unbind_eq h (hr ▸ h.boundAt hi)
    exact runs_quiet hunbind ⟨rfl, horder, rfl, fun j hj => State.bound?_bind_of_ne s none (Ne.symm hj)⟩

/-- Registers are taken, and nothing else happens to the state. -/
structure State.Grows (s s' : State) : Prop where
  consts : s'.consts = s.consts
  bound : ∀ i r, s.bound? i = some r → s'.bound? i = some r
  scratches : ∀ r ∈ s.scratches, r ∈ s'.scratches
  free : ∀ r ∈ s'.pool.free, r ∈ s.pool.free

theorem State.Grows.refl (s : State) : s.Grows s :=
  ⟨rfl, fun _ _ h => h, fun _ h => h, fun _ h => h⟩

theorem State.Grows.trans {s2 : State} (h : s.Grows s1) (h' : s1.Grows s2) : s.Grows s2 :=
  ⟨h'.consts.trans h.consts, fun i r hr => h'.bound i r (h.bound i r hr),
    fun r hr => h'.scratches r (h.scratches r hr), fun r hr => h.free r (h'.free r hr)⟩

/-- The registers of an operand that has been read: they are the base pointer, taken for the
instruction at hand, or belong to the temporary that is read. -/
def HeldBy (s : State) (x : Ir.Operand) (op : Asm.Operand) : Prop :=
  ∀ r ∈ op.regs, r = .rbp ∨ r ∈ s.scratches ∨ ∃ t, x = .temp t ∧ s.bound? t.id = some r

section

variable {x : Ir.Operand} {op : Asm.Operand} {s' : State} {m' : Asm.Machine}

theorem HeldBy.not_free (h : HeldBy s x op) (hs : InOrder env s) : ∀ r ∈ op.regs, r ∉ s.pool.free := by
  intro r hr hfree
  rcases h r hr with rfl | hscratch | ⟨t, -, hbound⟩
  · exact absurd (hs.mem_scratch (.inl hfree)) (by decide)
  · exact hs.not_free (hs.used_of_scratch hscratch) hfree
  · exact hs.not_free (hs.used_of_bound hbound) hfree

theorem HeldBy.grows (h : HeldBy s x op) (hs : s.Grows s') : HeldBy s' x op := by
  intro r hr
  rcases h r hr with hrbp | hscratch | ⟨t, hx, hbound⟩
  · exact .inl hrbp
  · exact .inr (.inl (hs.scratches r hscratch))
  · exact .inr (.inr ⟨t, hx, hs.bound _ _ hbound⟩)

/-- Products and quotients are computed in registers that are never handed out. -/
theorem not_pair_of_scratch (h : r ∈ Asm.SysV.scratch) : ¬ Asm.Reg.isPair r := by
  have hall : ∀ r ∈ Asm.SysV.scratch, r ≠ .rax ∧ r ≠ .rdx := by decide
  obtain ⟨hax, hdx⟩ := hall r h
  exact fun hpair => hpair.elim hax hdx

theorem HeldBy.not_pair (h : HeldBy s x op) (hs : InOrder env s) : ∀ r ∈ op.regs, ¬ Asm.Reg.isPair r := by
  intro r hr
  rcases h r hr with rfl | hscratch | ⟨t, -, hbound⟩
  · exact fun hpair => hpair.elim (by decide) (by decide)
  · exact not_pair_of_scratch (hs.mem_scratch (.inr (hs.used_of_scratch hscratch)))
  · exact not_pair_of_scratch (hs.mem_scratch (.inr (hs.used_of_bound hbound)))

/-- A register carries the integer in range that its bits are. -/
theorem Carries.of_bits {v : Int} (signed : Bool)
    (h : (m.regs r).setWidth (width bits) = ofInt (width bits) v) :
    Carries m (.reg ⟨r, bits⟩) signed (wrapTo (width bits) signed v) :=
  ⟨h.trans (ofInt_wrapTo (Nat.le_refl _) signed v).symm, wrapTo_wrapTo (Nat.le_refl _) signed signed v⟩

variable {X : Reg → Prop}

theorem address_of_same {y : Asm.Mem} (hsame : m.SameBut X m')
    (hregs : ∀ r ∈ (Asm.Operand.mem y).regs, ¬ X r) : y.address m' = y.address m := by
  have hbase : y.base.map m'.regs = y.base.map m.regs := by
    cases hb : y.base with
    | none => rfl
    | some b => exact congrArg some (hsame.regs b (hregs b (by simp [Asm.Operand.regs, hb])))
  have hindex : y.index.map m'.regs = y.index.map m.regs := by
    cases hi : y.index with
    | none => rfl
    | some i => exact congrArg some (hsame.regs i (hregs i (by simp [Asm.Operand.regs, hi])))
  rw [Asm.Mem.address, Asm.Mem.address, hbase, hindex]

/-- An operand is read as before as long as its registers are not written. -/
theorem read_of_same (hsame : m.SameBut X m') (hregs : ∀ r ∈ op.regs, ¬ X r) (w : Nat) :
    op.read m' w = op.read m w := by
  cases op with
  | reg r =>
    rw [Asm.Operand.read, hsame.regs r.reg (hregs _ (List.mem_singleton_self _))]
    rfl
  | mem y =>
    rw [Asm.Operand.read, address_of_same hsame hregs, hsame.mem]
    rfl
  | _ => rfl

/-- An operand keeps what it carries as long as its registers are not written. -/
theorem Carries.of_same (h : Carries m op signed a) (hsame : m.SameBut X m')
    (hregs : ∀ r ∈ op.regs, ¬ X r) : Carries m' op signed a := by
  cases op with
  | reg r =>
    refine ⟨?_, h.2⟩
    rw [hsame.regs r.reg (hregs _ (List.mem_singleton_self _))]
    exact h.1
  | mem y =>
    obtain ⟨⟨p, hp, hload⟩, hrange⟩ := h
    exact ⟨⟨p, (address_of_same hsame hregs).trans hp, by rw [hsame.mem]; exact hload⟩, hrange⟩
  | imm i => exact h
  | _ => exact h.elim

end

/-! ## Copies -/

theorem runs_moveReg {d : Register} {x : Asm.Operand} {via : Option Reg}
    {Q : Unit → State → Asm.Machine → Prop} (hd : d.reg ∈ Reg.general) (hw : IsWork d.bits)
    (hx : x.Usable) (ha : Carries m x signed a) (hQ : ∀ m', m.SameBut (· = d.reg) m' →
      (m'.regs d.reg).setWidth (width d.bits) = ofInt (width d.bits) a → Q () s m') :
    Runs F (Emitter.move (.reg d) x signed via) s m Q := by
  refine Runs.write fun _ hok => ?_
  have hd' : d.Nameable := ⟨Asm.Reg.whole_of_general _ hd, hw.isWidth.mem⟩
  obtain ⟨m', hm', hfills⟩ := (Asm.moveToReg_fills (L := default) hd' hx.source.1).plain hx.source.2 hok m
  show (runLines (Text.moveToReg d x signed).lines m).Meets F _
  rw [hm']
  exact hQ m' hfills.same (hfills.value.trans (ha.worth (.inl hx) hw.bounds.2))

/-! ## Operands -/

/-- Whether the value of an operand is known while code is emitted. -/
def isKnown (K : Nat → Bool) : Ir.Operand → Bool
  | .int _ _ => true
  | .temp t => K t.id
  | _ => false

/-- What an operand is read from carries its value. -/
structure Fetched (env : Env) (x : Ir.Operand) (a : Int) (op : Asm.Operand) (s : State)
    (m : Asm.Machine) : Prop where
  carries : Carries m op (isSigned x.type) a
  usable : op.Usable
  held : HeldBy s x op
  /-- What is read from a register is a temporary. -/
  temp : ∀ r, op = .reg r → ∃ t, x = .temp t ∧ s.bound? t.id = some r.reg ∧
    r.bits = workBits env.types t.type
  /-- What is read as a number is known. -/
  known : op.isImm = true → isKnown (fun i => (s.const? i).isSome) x = true

/-- It still does after registers are taken and others than its own are written. -/
theorem Fetched.grows {s' : State} {m' : Asm.Machine} {X : Reg → Prop} (h : Fetched env x a op s m)
    (hgrows : s.Grows s') (hsame : m.SameBut X m') (hregs : ∀ r ∈ op.regs, ¬ X r) :
    Fetched env x a op s' m' := by
  refine ⟨Carries.of_same h.carries hsame hregs, h.usable, h.held.grows hgrows,
    fun r hr => ?_, fun himm => ?_⟩
  · obtain ⟨t, hx, hbound, hbits⟩ := h.temp r hr
    exact ⟨t, hx, hgrows.bound _ _ hbound, hbits⟩
  · have hconsts : s'.const? = s.const? := by
      funext i
      rw [State.const?, hgrows.consts]
      rfl
    rw [hconsts]
    exact h.known himm

/-- An operand has been read. -/
structure Reading (env : Env) (base : BitVec 64) (N : Nat → Prop) (σ : Store) (s : State)
    (m : Asm.Machine) (x : Ir.Operand) (a : Int) (op : Asm.Operand) (s' : State) (m' : Asm.Machine) : Prop
    extends Fetched env x a op s' m' where
  rep : Represents env base N σ s' m'
  order : InOrder env s'
  growing : s.Grows s'
  same : m.SameBut (· ∈ s.pool.free) m'

theorem readTemp_runs (hframed : env.Framed) (hrep : Represents env base N σ s m)
    (hs : InOrder env s) (ht : env.HasTemp t) (hN : N t.id) (ha : σ.temps t.id = some a) :
    Runs F (readTemp env t) s m (Reading env base N σ s m (.temp t) a) := by
  obtain ⟨hrange, hkept⟩ := hrep.temps t a ht hN ha
  have hwork := workBits_isWork env.types t.type
  refine runs_constAt ?_
  cases hc : s.const? t.id with
  | some c =>
    refine runs_lift (work_eq ht.2) (Runs.pure ?_)
    unfold Kept at hkept
    rw [hc] at hkept
    refine ⟨⟨?_, trivial, fun r hr => absurd hr List.not_mem_nil, nofun, fun _ => ?_⟩, hrep, hs,
      .refl s, .refl _ m⟩
    · exact congrArg Const.value hkept
    · show (s.const? t.id).isSome
      rw [hc]
      rfl
  | none =>
    refine runs_within (checkScalar_eq ht.2) (runs_boundAt (hs.boundAt ht.lt) ?_)
    unfold Kept at hkept
    rw [hc] at hkept
    cases hr : s.bound? t.id with
    | some r =>
      rw [hr] at hkept
      have hgeneral := hs.general (hs.used_of_bound hr)
      refine Runs.pure ⟨⟨⟨hkept, InRange.atWork ht.2 hrange⟩, ⟨hgeneral, hwork⟩, ?_, ?_, nofun⟩,
        hrep, hs, .refl s, .refl _ m⟩
      · intro q hq
        obtain rfl : q = r := List.mem_singleton.mp hq
        exact .inr (.inr ⟨t, rfl, hr⟩)
      · intro q hq
        cases hq
        exact ⟨t, rfl, hr, rfl⟩
    | none =>
      rw [hr] at hkept
      have hslot : (tempSlot env t).address m = some (env.place base (tempIndex env.func t.id)) := by
        rw [tempSlot, tempSlot_eq hframed ht.lt, slot_address, hrep.rbp]
      have hcarries : Carries m (.mem (tempSlot env t)) (isSigned t.type) a :=
        ⟨⟨_, hslot, hkept⟩, hrange⟩
      have husable : (Asm.Operand.mem (tempSlot env t)).Usable := ⟨isWidth_of_scalar ht.2, rfl⟩
      refine runs_takeSpare (Runs.pure ?_) fun r p hp => ?_
      · refine ⟨⟨hcarries, husable, fun q hq => ?_, nofun, nofun⟩, hrep, hs, .refl s, .refl _ m⟩
        exact .inl (List.mem_singleton.mp hq)
      · -- the temporary gets a register, which was free
        have hfree : s.pool.free = r :: p.free := take_free (takeSpare_eq hp).1
        have hmem : r ∈ s.pool.free := hfree ▸ List.mem_cons_self
        have hgeneral := general_of_scratch (hs.mem_scratch (.inl hmem))
        refine Runs.bind (Q := fun _ s' m' => s' = { s with pool := p } ∧ m.SameBut (· = r) m' ∧
          (m'.regs r).setWidth (width (workBits env.types t.type))
            = ofInt (width (workBits env.types t.type)) a)
          (Runs.within (runs_moveReg hgeneral hwork husable hcarries
            fun m' hsame hvalue => ⟨rfl, hsame, hvalue⟩) _) ?_
        rintro _ _ m' ⟨rfl, hsame, hvalue⟩
        refine runs_modify (Runs.pure ?_)
        have hself : ({ s with pool := p }.bind t.id (some r)).bound? t.id = some r :=
          State.bound?_bind_self _ _ (by rw [hs.length]; exact ht.lt)
        have hbound : ∀ i, i ≠ t.id → ({ s with pool := p }.bind t.id (some r)).bound? i = s.bound? i :=
          fun i hi => State.bound?_bind_of_ne _ _ (Ne.symm hi)
        refine ⟨⟨⟨hvalue, InRange.atWork ht.2 hrange⟩, ⟨hgeneral, hwork⟩, ?_, ?_, nofun⟩, ?_,
          hs.takeSpare ht hp hr, ?_, hsame.mono fun q hq => by rw [hq]; exact hmem⟩
        · intro q hq
          obtain rfl : q = r := List.mem_singleton.mp hq
          exact .inr (.inr ⟨t, rfl, hself⟩)
        · intro q hq
          cases hq
          exact ⟨t, rfl, hself, rfl⟩
        · have hothers : Represents env base (fun i => N i ∧ i ≠ t.id) σ
              ({ s with pool := p }.bind t.id (some r)) m' := by
            refine hrep.congr (fun _ h => h.1) (hsame.regs _ ?_) (fun _ _ => rfl)
              (fun i h => hbound i h.2) (fun t' q _ _ hq => ?_)
              (.of_eq (fun _ => False) hsame.mem) (fun _ _ h => h) fun _ _ h => h
            · intro h
              exact absurd (h ▸ hgeneral) (by decide)
            · rw [hsame.regs q fun h => hs.not_free (hs.used_of_bound hq) (h ▸ hmem)]
          refine hothers.insert ht fun _ a' ha' => ?_
          obtain rfl : a = a' := Option.some.inj (ha.symm.trans ha')
          refine ⟨hrange, ?_⟩
          have hconst : ({ s with pool := p }.bind t.id (some r)).const? t.id = none := hc
          unfold Kept
          rw [hself, hconst]
          exact hvalue
        · refine ⟨rfl, fun i q hq => ?_, fun _ h => h, fun q hq => ?_⟩
          · rw [hbound i fun hi => by rw [hi, hr] at hq; cases hq]
            exact hq
          · rw [hfree]
            exact List.mem_cons_of_mem _ hq

/-- An operand that counts has a value. -/
structure Valued (env : Env) (N : Nat → Prop) (σ : Store) (x : Ir.Operand) (a : Int) : Prop where
  reads : env.Reads x
  counts : ∀ t, x = .temp t → N t.id
  value : x.value env.types σ = some a

theorem Represents.inRange (h : Represents env base N σ s m) (hv : Valued env N σ x a) :
    env.types.InRange x.type a := by
  obtain ⟨hx, hN, ha⟩ := hv
  cases x with
  | temp t => exact (h.temps t a hx (hN t rfl) ha).1
  | var v =>
    cases ha
    exact (h.locals v hx).1
  | int value t =>
    cases ha
    exact wrap_inRange _ _ _
  | _ => exact hx.elim

/-- A variable is read from and written to its slot. -/
theorem operand_slot {v : Local} {disp : Int64} (h : env.frame.localSlot? v = some disp) :
    operand env (.var v) = pure (.mem (slot disp (scalarBits env.types v.type))) := by
  rw [operand, h]

theorem operand_var (hframed : env.Framed) {v : Local} (hv : env.HasVar v) :
    operand env (.var v) = pure (.mem (slot (env.slotAt v.index) (env.types.bits v.type))) := by
  rw [operand_slot (localSlot?_eq hframed hv.lt), scalarBits_eq hv.2]

theorem operand_runs (hframed : env.Framed) (hrep : Represents env base N σ s m)
    (hs : InOrder env s) (hv : Valued env N σ x a) :
    Runs F (operand env x) s m (Reading env base N σ s m x a) := by
  obtain ⟨hx, hN, ha⟩ := hv
  cases x with
  | temp t => exact readTemp_runs hframed hrep hs hx (hN t rfl) ha
  | var v =>
    obtain ⟨hrange, hload⟩ := hrep.locals v hx
    cases ha
    rw [operand_var hframed hx]
    have hslot : (slot (env.slotAt v.index) (env.types.bits v.type)).address m
        = some (env.place base v.index) := by
      rw [slot_address, hrep.rbp]
    refine Runs.pure ⟨⟨⟨⟨_, hslot, hload⟩, hrange⟩, ⟨isWidth_of_scalar hx.2, rfl⟩,
      fun q hq => .inl (List.mem_singleton.mp hq), nofun, nofun⟩, hrep, hs, .refl s, .refl _ m⟩
  | int value t =>
    cases ha
    refine Runs.pure ⟨⟨truncate_eq hx.1 value, trivial, fun r hr => absurd hr List.not_mem_nil,
      nofun, fun _ => rfl⟩, hrep, hs, .refl s, .refl _ m⟩
  | _ => exact hx.elim

/-- Both operands of an operation have been read. -/
structure ReadingBoth (env : Env) (base : BitVec 64) (N : Nat → Prop) (σ : Store) (s : State)
    (x : Ir.Operand) (a : Int) (y : Ir.Operand) (b : Int) (op op' : Asm.Operand) (s' : State)
    (m' : Asm.Machine) : Prop where
  left : Fetched env x a op s' m'
  right : Fetched env y b op' s' m'
  rep : Represents env base N σ s' m'
  order : InOrder env s'
  consts : s'.consts = s.consts

theorem runs_operands (hframed : env.Framed) (hrep : Represents env base N σ s m)
    (hs : InOrder env s) {y : Ir.Operand} {b : Int} (hx : Valued env N σ x a)
    (hy : Valued env N σ y b) {k : Asm.Operand → Asm.Operand → Emitter α}
    (hk : ∀ op op' s' m', ReadingBoth env base N σ s x a y b op op' s' m' → Runs F (k op op') s' m' Q) :
    Runs F (do
      let op ← Emitter.within "left" (operand env x)
      let op' ← Emitter.within "right" (operand env y)
      k op op') s m Q := by
  refine Runs.bind (Runs.within (operand_runs hframed hrep hs hx) _) ?_
  intro op s1 m1 hleft
  refine Runs.bind (Runs.within (operand_runs hframed hleft.rep hleft.order hy) _) ?_
  intro op' s2 m2 hright
  exact hk op op' s2 m2 ⟨hleft.toFetched.grows hright.growing hright.same
    (hleft.held.not_free hleft.order), hright.toFetched, hright.rep, hright.order,
    hright.growing.consts.trans hleft.growing.consts⟩

/-! ## Places of results -/

/-- A temporary is about to get a value: the state says nothing of it that is not about its place, and
nothing new of the others. -/
structure Cleared (env : Env) (s : State) (t : Temp) (s' : State) : Prop where
  order : InOrder env s'
  const : s'.const? t.id = none
  consts : ∀ i, i ≠ t.id → s'.const? i = s.const? i
  bound : ∀ i, i ≠ t.id → s'.bound? i = s.bound? i

/-- What is represented still is, but for the temporary itself. -/
theorem Cleared.represents {s' : State} (h : Cleared env s t s')
    (hrep : Represents env base N σ s m) : Represents env base (fun i => N i ∧ i ≠ t.id) σ s' m :=
  hrep.congr (fun _ hi => hi.1) rfl (fun i hi => h.consts i hi.2) (fun i hi => h.bound i hi.2)
    (fun _ _ _ _ _ => rfl) (.of_eq (fun _ => False) rfl) (fun _ _ hi => hi) fun _ _ hi => hi

/-- A place for the result in a temporary has been found: its register or its slot. -/
structure Placed (env : Env) (s : State) (t : Temp) (d : Asm.Operand) (s' : State) : Prop
    extends Cleared env s t s' where
  scratches : s'.scratches = s.scratches
  free : ∀ r ∈ s'.pool.free, r ∈ s.pool.free
  place : (∃ r, d = .reg ⟨r, workBits env.types t.type⟩ ∧ s'.bound? t.id = some r) ∨
    (d = .mem (tempSlot env t) ∧ s'.bound? t.id = none)

theorem dest_runs (hs : InOrder env s) (ht : env.HasTemp t) :
    Runs F (dest env t) s m fun d s' m' => m' = m ∧ Placed env s t d s' := by
  have hforget : ∀ i, i ≠ t.id → (s.forget t.id).const? i = s.const? i := fun i hi =>
    s.const?_forget_of_ne (Ne.symm hi)
  have hs' := hs.forget t.id
  refine runs_within (checkScalar_eq ht.2) (runs_modify (runs_boundAt (hs'.boundAt ht.lt) ?_))
  cases hr : (s.forget t.id).bound? t.id with
  | some r =>
    exact Runs.pure ⟨rfl, ⟨hs', s.const?_forget_self, hforget, fun _ _ => rfl⟩, rfl, fun _ h => h,
      Or.inl ⟨r, rfl, hr⟩⟩
  | none =>
    refine runs_takeSpare (Runs.pure ?_) fun r p hp => runs_modify (Runs.pure ?_)
    · exact ⟨rfl, ⟨hs', s.const?_forget_self, hforget, fun _ _ => rfl⟩, rfl, fun _ h => h, Or.inr ⟨rfl, hr⟩⟩
    · have hfree : s.pool.free = r :: p.free := take_free (takeSpare_eq hp).1
      refine ⟨rfl, ⟨hs'.takeSpare ht hp hr, s.const?_forget_self, hforget, fun i hi => ?_⟩, rfl,
        fun q hq => hfree ▸ List.mem_cons_of_mem _ hq, .inl ⟨r, rfl, ?_⟩⟩
      · exact State.bound?_bind_of_ne _ _ (Ne.symm hi)
      · exact State.bound?_bind_self _ _ (by rw [hs'.length]; exact ht.lt)

namespace Placed

variable {t : Temp} {d : Asm.Operand} {s' : State}

variable {x : Ir.Operand} {op : Asm.Operand}

theorem heldBy (h : Placed env s t d s') (hop : HeldBy s x op)
    (hx : ∀ t', x = .temp t' → t'.id ≠ t.id) : HeldBy s' x op := by
  intro r hr
  rcases hop r hr with hrbp | hscratch | ⟨t', hx', hbound⟩
  · exact .inl hrbp
  · exact .inr (.inl (h.scratches ▸ hscratch))
  · exact .inr (.inr ⟨t', hx', (h.bound _ (hx t' hx')).trans hbound⟩)

/-- The register of the result is none of an operand that has been read. -/
theorem not_mem_regs (h : Placed env s t d s') (hop : HeldBy s x op)
    (hx : ∀ t', x = .temp t' → t'.id ≠ t.id) (hr : s'.bound? t.id = some r) : r ∉ op.regs := by
  intro hmem
  have hheld := h.heldBy hop hx
  rcases hheld r hmem with rfl | hscratch | ⟨t', hx', hbound⟩
  · exact absurd (h.order.mem_scratch (.inr (h.order.used_of_bound hr))) (by decide)
  · exact h.order.scratch_not_bound hscratch hr
  · exact hx t' hx' (h.order.bound_inj hbound hr)

end Placed

/-! ## Registers for the instruction at hand -/

theorem grows_take (h : s.pool.take = some (r, p)) :
    s.Grows { s with pool := p, scratches := r :: s.scratches } := by
  refine ⟨rfl, fun _ _ h => h, fun _ h => List.mem_cons_of_mem _ h, fun q hq => ?_⟩
  rw [take_free h]
  exact List.mem_cons_of_mem _ hq

/-- An operand is copied to a register that was free. -/
theorem toScratch_runs (hrep : Represents env base N σ s m) (hs : InOrder env s)
    (hbits : IsWork bits) (husable : op.Usable) (hcarries : Carries m op signed a) :
    Runs F (toScratch op bits signed) s m fun op' s' m' =>
      Represents env base N σ s' m' ∧ InOrder env s' ∧ s.Grows s' ∧ s'.bound = s.bound ∧
        m.SameBut (· ∈ s.pool.free) m' ∧ ∃ r, op' = .reg ⟨r, bits⟩ ∧ r ∈ s'.scratches ∧
          (m'.regs r).setWidth (width bits) = ofInt (width bits) a := by
  refine Runs.bind (runs_scratch (Q := fun d s' m' => ∃ r p, s.pool.take = some (r, p) ∧
    d = ⟨r, bits⟩ ∧ s' = { s with pool := p, scratches := r :: s.scratches } ∧ m = m')
    fun r p hp => ⟨r, p, hp, rfl, rfl, rfl⟩) ?_
  rintro _ _ _ ⟨r, p, hp, rfl, rfl, rfl⟩
  have hmem : r ∈ s.pool.free := take_free hp ▸ List.mem_cons_self
  have hscratch := hs.mem_scratch (.inl hmem)
  refine Runs.bind (runs_moveReg (general_of_scratch hscratch) hbits husable hcarries
    (Q := fun _ s' m' => s' = { s with pool := p, scratches := r :: s.scratches } ∧
      m.SameBut (· = r) m' ∧ (m'.regs r).setWidth (width bits) = ofInt (width bits) a)
    fun m' hsame hvalue => ⟨rfl, hsame, hvalue⟩) ?_
  rintro _ _ m' ⟨rfl, hsame, hvalue⟩
  refine Runs.pure ⟨?_, hs.take hp, grows_take hp, rfl, hsame.mono fun q hq => hq ▸ hmem, r, rfl,
    List.mem_cons_self, hvalue⟩
  refine (hrep.sameBut hsame (fun h => ?_) fun q i hq _ hi => ?_).state rfl rfl
  · exact absurd (h ▸ hscratch) (by decide)
  · exact hs.not_free (hs.used_of_bound hi) (hq ▸ hmem)

/-- An operand has been made usable at a width: it supplies its value there. Its own register may have
been filled up if it was narrower. -/
structure Fitted (env : Env) (base : BitVec 64) (N : Nat → Prop) (σ : Store) (s : State)
    (m : Asm.Machine) (x : Ir.Operand) (a : Int) (bits : Int64) (op op' : Asm.Operand) (s' : State)
    (m' : Asm.Machine) : Prop where
  rep : Represents env base N σ s' m'
  order : InOrder env s'
  supplies : op'.source m' (width bits) = some (ofInt (width bits) a)
  usable : op'.Usable
  imm : op'.isImm = true → op.isImm = true
  held : HeldBy s' x op'
  grows : s.Grows s'
  bound : s'.bound = s.bound
  same : m.SameBut (fun r => r ∈ s.pool.free ∨ ∃ b, b ≠ bits ∧ op = .reg ⟨r, b⟩) m'

theorem source_reg (bits : Int64) {v : BitVec (width bits)} (h : (m.regs r).setWidth (width bits) = v) :
    (Asm.Operand.reg ⟨r, bits⟩).source m (width bits) = some v :=
  (if_pos rfl).trans ((if_pos rfl).trans (congrArg some h))

theorem read_of_source {w : Nat} {v : BitVec w} (h : op.source m w = some v) : op.read m w = some v := by
  unfold Asm.Operand.source at h
  split at h
  · exact h
  · cases h

/-- What is read from a register or from memory has its width. -/
theorem bits_of_read {w : Nat} {v : BitVec w} (himm : op.isImm = false) (h : op.read m w = some v) :
    op.bits = w := by
  by_contra hne
  cases op with
  | reg r => exact absurd ((if_neg hne).symm.trans h) nofun
  | mem y => exact absurd ((if_neg hne).symm.trans h) nofun
  | imm i => cases himm
  | _ => cases h

section

variable {x : Ir.Operand} {op : Asm.Operand} {a : Int} {bits : Int64}

variable {op' : Asm.Operand} {m' : Asm.Machine}

/-- Nothing is done for an operand that supplies its value already. -/
theorem Fitted.same_state (hrep : Represents env base N σ s m) (hs : InOrder env s)
    (hsource : op'.source m (width bits) = some (ofInt (width bits) a))
    (husable : op'.Usable) (himm : op'.isImm → op.isImm) (hheld : HeldBy s x op') :
    Fitted env base N σ s m x a bits op op' s m :=
  ⟨hrep, hs, hsource, husable, himm, hheld, .refl s, rfl, .refl _ m⟩

theorem toScratch_fitted (hrep : Represents env base N σ s m) (hs : InOrder env s)
    (hbits : IsWork bits) (husable : op.Usable) (hcarries : Carries m op (isSigned x.type) a) :
    Runs F (toScratch op bits (isSigned x.type)) s m (Fitted env base N σ s m x a bits op) := by
  refine (toScratch_runs hrep hs hbits husable hcarries).mono ?_
  rintro _ s' m' ⟨hrep', hs', hgrows, hbound, hsame, r, rfl, hmem, hvalue⟩
  have hgeneral := hs'.general (hs'.used_of_scratch hmem)
  refine ⟨hrep', hs', source_reg _ hvalue, ⟨hgeneral, hbits⟩, nofun, fun q hq => ?_, hgrows,
    hbound, hsame.mono fun q hq => .inl hq⟩
  obtain rfl : q = r := List.mem_singleton.mp hq
  exact .inr (.inl hmem)

/-- The register of a temporary is filled up in place. -/
theorem widen_fitted (hrep : Represents env base N σ s m) (hs : InOrder env s) (ht : env.HasTemp t)
    (hr : s.bound? t.id = some r) (hwork : workBits env.types t.type = 32)
    (hcarries : Carries m (.reg ⟨r, 32⟩) (isSigned t.type) a) :
    Runs F (do
      Emitter.move (.reg ⟨r, 64⟩) (.reg ⟨r, 32⟩) (isSigned t.type) none
      return .reg ⟨r, 64⟩) s m (Fitted env base N σ s m (.temp t) a 64 (.reg ⟨r, 32⟩)) := by
  have hscratch := hs.mem_scratch (.inr (hs.used_of_bound hr))
  have hgeneral := general_of_scratch hscratch
  refine Runs.bind (runs_moveReg (d := ⟨r, 64⟩) hgeneral (.inr rfl) ⟨hgeneral, .inl rfl⟩ hcarries
    (Q := fun _ s' m' => s' = s ∧ m.SameBut (· = r) m' ∧
      (m'.regs r).setWidth 64 = BitVec.ofInt 64 a) fun m' hsame hvalue => ⟨rfl, hsame, hvalue⟩) ?_
  rintro _ _ m' ⟨rfl, hsame, hvalue⟩
  refine Runs.pure ⟨?_, hs, source_reg 64 hvalue, ⟨hgeneral, .inr rfl⟩, nofun, ?_, .refl _,
    rfl, hsame.mono fun q hq => .inr ⟨32, by decide, by rw [hq]⟩⟩
  · refine hrep.congr (fun _ h => h) (hsame.regs _ fun h => absurd (h ▸ hscratch) (by decide))
      (fun _ _ => rfl) (fun _ _ => rfl) (fun t' q ht' _ hq => ?_)
      (.of_eq (fun _ => False) hsame.mem) (fun _ _ h => h) fun _ _ h => h
    by_cases hqr : q = r
    · -- the temporary itself sees the lower half only
      obtain rfl := ht'.eq ht (hs.bound_inj hq (hqr ▸ hr))
      have hlow : (m.regs r).setWidth 32 = BitVec.ofInt 32 a := hcarries.1
      rw [hqr, hwork]
      show (m'.regs r).setWidth 32 = (m.regs r).setWidth 32
      rw [hlow, ← setWidth_ofInt (show 32 ≤ 64 by decide), ← hvalue,
        BitVec.setWidth_setWidth_of_le _ (show 32 ≤ 64 by decide)]
    · rw [hsame.regs q hqr]
  · intro q hq
    obtain rfl : q = r := List.mem_singleton.mp hq
    exact .inr (.inr ⟨t, rfl, hr⟩)

theorem atWidth_runs (hrep : Represents env base N σ s m) (hs : InOrder env s) (hx : env.Reads x)
    (hbits : IsWork bits) (hop : Fetched env x a op s m) :
    Runs F (atWidth op bits (isSigned x.type)) s m (Fitted env base N σ s m x a bits op) := by
  obtain ⟨hcarries, husable, hheld, htemp, -⟩ := hop
  have hscratch := toScratch_fitted (F := F) hrep hs hbits husable hcarries
  cases op with
  | imm i =>
    refine Runs.ite (fun hfits => Runs.pure ?_) fun _ => hscratch
    refine .same_state hrep hs ?_ trivial (fun _ => rfl) fun r hr => absurd hr List.not_mem_nil
    have hencodable : (Asm.Operand.imm { i with bits := bits }).isEncodable (width bits) := by
      rcases hbits with rfl | rfl
      · rfl
      · simpa [Asm.Operand.isEncodable, Asm.Imm.fits32, width] using hfits
    exact (if_pos hencodable).trans
      (congrArg some (Carries.worth (L := default) hcarries (.inl husable) hbits.bounds.2))
  | reg r =>
    obtain ⟨t, rfl, hr, hwork⟩ := htemp r rfl
    obtain ⟨hgeneral, hwidth⟩ := husable
    obtain ⟨r, rbits⟩ := r
    refine Runs.ite (fun hsame => Runs.pure ?_) fun hne => ?_
    · obtain rfl : rbits = bits := by simpa using hsame
      exact .same_state hrep hs (source_reg _ hcarries.1) ⟨hgeneral, hwidth⟩ nofun hheld
    · refine runs_lift (Asm.Reg.at_eq hgeneral hbits.isWidth) ?_
      rcases hwidth with hwidth | hwidth
      · obtain rfl : rbits = 32 := hwidth
        obtain rfl : bits = 64 := hbits.resolve_left fun h => hne (by rw [h]; rfl)
        exact widen_fitted hrep hs hx hr hwork.symm hcarries
      · -- the lower half of a wider register is used as it is
        obtain rfl : rbits = 64 := hwidth
        obtain rfl : bits = 32 := hbits.resolve_right fun h => hne (by rw [h]; rfl)
        refine runs_after rfl (Runs.pure (.same_state hrep hs (source_reg 32 ?_)
          ⟨hgeneral, .inl rfl⟩ nofun hheld))
        have hvalue : (m.regs r).setWidth 64 = ofInt 64 a := hcarries.1
        show (m.regs r).setWidth 32 = ofInt 32 a
        rw [← setWidth_ofInt (show 32 ≤ 64 by decide), ← hvalue,
          BitVec.setWidth_setWidth_of_le _ (show 32 ≤ 64 by decide)]
  | mem y =>
    obtain ⟨hwidth, hsymbol⟩ := husable
    refine Runs.ite (fun hle => Runs.pure ?_) fun _ => hscratch
    refine .same_state hrep hs ?_ ⟨hbits.isWidth, hsymbol⟩ nofun hheld
    obtain ⟨⟨p, hp, hload⟩, -⟩ := hcarries
    have hle : width bits ≤ width y.bits := by
      rcases hbits with rfl | rfl <;> rcases hwidth with h | h | h | h <;> rw [h] at hle ⊢ <;>
        revert hle <;> decide
    refine (if_pos rfl).trans ((if_pos rfl).trans ?_)
    rw [show (y.resize bits).address m = some p from hp, Option.map_some,
      ← Asm.Memory.setWidth_load _ hbits.isWidth.bytes.1 hwidth.bytes.1 hle, hload,
      setWidth_ofInt hle]
  | _ => exact husable.elim

/-- An operand that supplies a word carries an integer with these bits. -/
theorem Carries.of_source (signed : Bool) (husable : op.Usable)
    (h : op.source m' (width bits) = some (ofInt (width bits) a)) :
    ∃ v, Carries m' op signed v ∧ ofInt (width bits) v = ofInt (width bits) a := by
  have hread := read_of_source h
  have hself := ofInt_wrapTo (Nat.le_refl (width bits)) signed a
  have hrange := wrapTo_wrapTo (Nat.le_refl (width bits)) signed signed a
  cases op with
  | imm i => exact ⟨i.value.toInt, (Int64.ofInt_toInt i.value).symm, Option.some.inj hread⟩
  | reg r =>
    have hwidth : width r.bits = width bits := bits_of_read rfl hread
    refine ⟨wrapTo (width bits) signed a, ⟨?_, hwidth.symm ▸ hrange⟩, hself⟩
    rw [hwidth, hself]
    exact Option.some.inj ((if_pos hwidth).symm.trans hread)
  | mem y =>
    have hwidth : width y.bits = width bits := bits_of_read rfl hread
    obtain ⟨p, hp, hload⟩ := Option.map_eq_some_iff.mp ((if_pos hwidth).symm.trans hread)
    refine ⟨wrapTo (width bits) signed a, ⟨⟨p, hp, ?_⟩, hwidth.symm ▸ hrange⟩, hself⟩
    rw [hwidth, hself]
    exact hload
  | _ => exact husable.elim

/-- What has been made usable is copied to a register. -/
theorem Fitted.toScratch_runs {s' : State} (hbits : IsWork bits)
    (h : Fitted env base N σ s m x a bits op op' s' m') :
    Runs F (toScratch op' bits (isSigned x.type)) s' m' fun f s'' m'' => (∃ r, f = .reg r) ∧
      Fitted env base N σ s m x a bits op f s'' m'' := by
  obtain ⟨v, hcarries, hv⟩ := Carries.of_source (isSigned x.type) h.usable h.supplies
  refine (Emit.toScratch_runs h.rep h.order hbits h.usable hcarries).mono ?_
  rintro _ s'' m'' ⟨hrep, hs, hgrows, hbound, hsame, r, rfl, hmem, hvalue⟩
  have hgeneral := hs.general (hs.used_of_scratch hmem)
  refine ⟨⟨_, rfl⟩, hrep, hs, source_reg _ (hvalue.trans hv), ⟨hgeneral, hbits⟩, nofun,
    fun q hq => ?_, h.grows.trans hgrows, hbound.trans h.bound,
    h.same.trans (hsame.mono fun q hq => .inl (h.grows.free q hq))⟩
  obtain rfl : q = r := List.mem_singleton.mp hq
  exact .inr (.inl hmem)

end

end TreeAsm.Emit
