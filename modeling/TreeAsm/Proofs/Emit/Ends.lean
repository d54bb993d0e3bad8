import TreeAsm.Proofs.Emit.Compares

/-!
# Ends of blocks

At the end of a block every register is given back, and the values that later blocks need are stored to
their slots first. The copies that do so keep the flags, so they may stand between a comparison and the
jump that it decides. Then the lines lead where the intermediate code says, to a label or on to the next
block (`Follows`).
-/

namespace TreeAsm.Emit

open Asm (Carries Exit Flags IsWidth IsWork Mem Reg Register Text runLines runLines_append
  runLines_append_of_ne width)
open Ir

variable {env : Env} {base : BitVec 64} {N : Nat → Prop} {σ : Store} {s : State} {m m' : Asm.Machine}
  {F : Prop} {t : Temp} {K : Nat → Bool} {bi : Nat}

/-! ## Storing what later blocks need -/

/-- Registers have been given back. What counts is represented, and the machine has changed in its
memory only. -/
structure Stored (env : Env) (base : BitVec 64) (N : Nat → Prop) (σ : Store) (s : State)
    (m : Asm.Machine) (s' : State) (m' : Asm.Machine) : Prop where
  rep : Represents env base N σ s' m'
  order : InOrder env s'
  consts : s'.consts = s.consts
  unbound : ∀ i, s.bound? i = none → s'.bound? i = none
  regs : m'.regs = m.regs
  flags : m'.flags = m.flags

theorem Stored.refl (hrep : Represents env base N σ s m) (hs : InOrder env s) :
    Stored env base N σ s m s m :=
  ⟨hrep, hs, rfl, fun _ h => h, rfl, rfl⟩

theorem Stored.trans {s1 s2 : State} {m1 m2 : Asm.Machine} (h : Stored env base N σ s m s1 m1)
    (h' : Stored env base N σ s1 m1 s2 m2) : Stored env base N σ s m s2 m2 :=
  ⟨h'.rep, h'.order, h'.consts.trans h.consts, fun i hi => h'.unbound i (h.unbound i hi),
    h'.regs.trans h.regs, h'.flags.trans h.flags⟩

/-- The value in a register is stored to the slot of its temporary. -/
theorem store_runs (hframed : env.Framed) (ht : env.HasTemp t) (hrbp : m.regs .rbp = base) {r : Reg}
    (hr : r ∈ Reg.general) :
    Runs F (Emitter.move (.mem (tempSlot env t)) (.reg ⟨r, workBits env.types t.type⟩)
      (isSigned t.type) none) s m fun _ s' m' => s' = s ∧
        m' = m.setMem (env.place base (tempIndex env.func t.id))
          ((m.regs r).setWidth (env.types.width t.type)) := by
  have hbits := isWidth_of_scalar ht.2
  have htext : Text.moveRegToMem (tempSlot env t) ⟨r, workBits env.types t.type⟩ (isSigned t.type)
      = Text.ins .mov [.mem (tempSlot env t), .reg ⟨r, (tempSlot env t).bits⟩] := by
    rw [Asm.moveRegToMem_eq (d := tempSlot env t) hbits.mem (Asm.Reg.whole_of_general r hr), if_neg]
    exact Int64.not_lt.mpr ((Asm.width_le_iff _ hbits.mem _ (workBits_isWork _ _).isWidth.mem).mpr
      (width_le_work ht.2))
  have haddress : (tempSlot env t).address m = some (env.place base (tempIndex env.func t.id)) := by
    rw [slot_eq hframed ht, slot_address, hrbp]
  refine Runs.write fun _ hok => ?_
  change (Text.moveRegToMem (tempSlot env t) ⟨r, workBits env.types t.type⟩
    (isSigned t.type)).result = _ at hok
  show (runLines (Text.moveRegToMem (tempSlot env t) ⟨r, workBits env.types t.type⟩
    (isSigned t.type)).lines m).Meets F _
  rw [htext] at hok ⊢
  have hsource : (Asm.Operand.reg ⟨r, (tempSlot env t).bits⟩).source m (width (tempSlot env t).bits)
      = some ((m.regs r).setWidth (width (tempSlot env t).bits)) := (if_pos rfl).trans (if_pos rfl)
  rw [Text.ins_lines hok, Asm.runLines_store rfl hsource haddress]
  exact ⟨rfl, rfl⟩

/-- What counts is still represented after a temporary has lost its register, if it does not count or
if its value is in its slot. -/
theorem Represents.unbind (h : Represents env base N σ s m) (hfits : env.Fits base) (hs : InOrder env s)
    (ht : env.HasTemp t) {r : Reg} (hr : s.bound? t.id = some r) (p : Pool)
    (hmem : m'.mem = m.mem ∧ ¬ N t.id ∨ m'.mem = m.mem.store (env.place base (tempIndex env.func t.id))
        ((m.regs r).setWidth (env.types.width t.type))) (hregs : m'.regs = m.regs) :
    Represents env base N σ { s.bind t.id none with pool := p } m' := by
  have hwidth := width_bytes ht.2
  have hbound : ∀ i, i ≠ t.id → State.bound? { s.bind t.id none with pool := p } i = s.bound? i :=
    fun i hi => State.bound?_bind_of_ne s none (Ne.symm hi)
  have hslots : SameSlots env base (· = tempIndex env.func t.id) m.mem m'.mem := by
    rcases hmem with ⟨hmem, -⟩ | hmem
    · exact .of_eq _ hmem
    · rw [hmem]
      exact sameSlots_store hfits ht.slot_lt hwidth.2 m.mem _
  have hothers : Represents env base (fun i => N i ∧ i ≠ t.id) σ
      { s.bind t.id none with pool := p } m' := by
    refine h.congr (fun _ hi => hi.1) (by rw [hregs]) (fun _ _ => rfl) (fun i hi => hbound i hi.2)
      (fun _ _ _ _ _ => by rw [hregs]) hslots (fun i hi hX => hi.2 ?_) fun v hv => hv.ne_temp _
    unfold tempIndex at hX
    omega
  refine hothers.insert ht fun hN a ha => ?_
  obtain ⟨hrange, hkept⟩ := h.temps t a ht hN ha
  have hself : State.bound? { s.bind t.id none with pool := p } t.id = none :=
    State.bound?_bind_self s none (by rw [hs.length]; exact ht.lt)
  have hconst : State.const? { s.bind t.id none with pool := p } t.id = s.const? t.id := rfl
  refine ⟨hrange, ?_⟩
  unfold Kept at hkept ⊢
  rw [hconst, hself]
  cases hc : s.const? t.id with
  | some c =>
    rw [hc] at hkept
    exact hkept
  | none =>
    rw [hc, hr] at hkept
    have hstore := hmem.resolve_left fun h => h.2 hN
    have hle : env.types.width t.type ≤ width (workBits env.types t.type) := width_le_work ht.2
    rw [hstore, Asm.Memory.load_store _ hwidth.1 hwidth.2, ← BitVec.setWidth_setWidth_of_le _ hle,
      hkept, setWidth_ofInt hle]

/-- A temporary is live after the block. -/
abbrev LiveOut (env : Env) (bi : Nat) (i : Nat) : Prop := isLiveOut env bi i = true

theorem flushTemp_runs (hframed : env.Framed) (hfits : env.Fits base) {id : Nat}
    (hrep : Represents env base (LiveOut env bi) σ s m) (hs : InOrder env s)
    (htemp : env.func.temps[id]? = some t) :
    Runs F (flushTemp env bi id t) s m fun _ s' m' =>
      Stored env base (LiveOut env bi) σ s m s' m' ∧ s'.bound? id = none := by
  have hlt : id < env.func.temps.length := (List.getElem?_eq_some_iff.mp htemp).1
  refine runs_boundAt (hs.boundAt hlt) ?_
  cases hr : s.bound? id with
  | none => exact Runs.pure ⟨.refl hrep hs, hr⟩
  | some r =>
    -- a temporary with a register is one whose values fit it
    obtain ⟨t', ht, rfl⟩ := hs.owner id r hr
    obtain rfl : t = t' := Option.some.inj (htemp.symm.trans ht.1)
    have hgeneral := hs.general (hs.used_of_bound hr)
    have hgone : ∀ p, State.bound? { s.bind t.id none with pool := p } t.id = none := fun p =>
      State.bound?_bind_self s none (by rw [hs.length]; exact hlt)
    obtain ⟨p, hunbind, horder⟩ := unbind_eq hs (hr ▸ hs.boundAt hlt)
    have hnone : ∀ i, s.bound? i = none →
        State.bound? { s.bind t.id none with pool := p } i = none := fun i hi => by
      by_cases hit : t.id = i
      · exact hit ▸ hgone p
      · exact (State.bound?_bind_of_ne s none hit).trans hi
    by_cases hlive : isLiveOut env bi t.id
    · have hstore : Runs F (Emitter.onlyIf (isLiveOut env bi t.id)
          (Emitter.within s!"store t{t.id}" (Emitter.move (.mem (tempSlot env ⟨t.id, t.type⟩))
            (.reg ⟨r, workBits env.types t.type⟩) (isSigned t.type) none))) s m
          fun _ s' m' => s' = s ∧ m' = m.setMem (env.place base (tempIndex env.func t.id))
            ((m.regs r).setWidth (env.types.width t.type)) := by
        rw [hlive]
        exact Runs.within (store_runs hframed ht hrep.rbp hgeneral) _
      refine Runs.bind hstore ?_
      rintro _ _ _ ⟨rfl, rfl⟩
      exact runs_quiet hunbind ⟨⟨hrep.unbind hfits hs ht hr p (.inr rfl) rfl, horder, rfl, hnone,
        rfl, rfl⟩, hgone p⟩
    · have hskip : Emitter.onlyIf (isLiveOut env bi t.id)
          (Emitter.within s!"store t{t.id}" (Emitter.move (.mem (tempSlot env ⟨t.id, t.type⟩))
            (.reg ⟨r, workBits env.types t.type⟩) (isSigned t.type) none)) s
          = ⟨[], .ok ((), s)⟩ := by
        rw [Bool.not_eq_true] at hlive
        rw [hlive]
        rfl
      refine runs_after hskip (runs_quiet hunbind ?_)
      exact ⟨⟨hrep.unbind hfits hs ht hr p (.inl ⟨rfl, hlive⟩) rfl, horder, rfl, hnone, rfl, rfl⟩, hgone p⟩

theorem flushTemps_runs (hframed : env.Framed) (hfits : env.Fits base) {ts : List Temp} :
    ∀ {id : Nat} {s : State} {m : Asm.Machine}, Represents env base (LiveOut env bi) σ s m →
      InOrder env s → env.func.temps.drop id = ts → (∀ i, i < id → s.bound? i = none) →
      Runs F (flushTemps env bi id ts) s m fun _ s' m' =>
        Stored env base (LiveOut env bi) σ s m s' m' ∧
          ∀ i, i < env.func.temps.length → s'.bound? i = none := by
  induction ts with
  | nil =>
    intro id s m hrep hs hdrop hnone
    refine Runs.pure ⟨.refl hrep hs, fun i hi => hnone i ?_⟩
    have hle := List.drop_eq_nil_iff.mp hdrop
    omega
  | cons t ts ih =>
    intro id s m hrep hs hdrop hnone
    have htemp : env.func.temps[id]? = some t := by
      rw [← List.head?_drop, hdrop]
      rfl
    refine Runs.bind (flushTemp_runs hframed hfits hrep hs htemp) ?_
    rintro _ s1 m1 ⟨hstored, hid⟩
    have hdrop1 : env.func.temps.drop (id + 1) = ts := by
      rw [← List.tail_drop, hdrop]
      rfl
    refine (ih hstored.rep hstored.order hdrop1 fun i hi => ?_).mono ?_
    · rcases Nat.lt_succ_iff_lt_or_eq.mp hi with hlt | rfl
      · exact hstored.unbound i (hnone i hlt)
      · exact hid
    · rintro _ s2 m2 ⟨hstored2, hall⟩
      exact ⟨hstored.trans hstored2, hall⟩

/-- After the end of a block every temporary that is live is in its slot or known. -/
theorem flush_runs (hframed : env.Framed) (hfits : env.Fits base)
    (hrep : Represents env base (LiveOut env bi) σ s m) (hs : InOrder env s) :
    Runs F (flush env bi) s m fun _ s' m' =>
      Stored env base (LiveOut env bi) σ s m s' m' ∧ ∀ i, s'.bound? i = none := by
  refine (flushTemps_runs hframed hfits hrep hs rfl fun i hi => absurd hi (Nat.not_lt_zero i)).mono ?_
  rintro _ s' m' ⟨hstored, hall⟩
  refine ⟨hstored, fun i => ?_⟩
  by_cases hi : i < env.func.temps.length
  · exact hall i hi
  · rw [State.bound?, List.getElem?_eq_none (by rw [hstored.order.length]; omega)]
    rfl

/-! ## Where lines lead -/

section

variable {α β : Type} {E : α → State → Exit → Prop}

/-- The lines of a step that succeeds lead somewhere. -/
def Leads (x : Emitter α) (s : State) (m : Asm.Machine) (E : α → State → Exit → Prop) : Prop :=
  ∀ a s', (x s).result = .ok (a, s') → E a s' (runLines (x s).lines m)

variable {x : Emitter β} {f : β → Emitter α} {Q : β → State → Asm.Machine → Prop}

theorem Leads.after (h : Runs F x s m Q) (hf : ∀ b s' m', Q b s' m' → Leads (f b) s' m' E)
    (hF : F → ∀ a s', E a s' .fault) : Leads (x >>= f) s m E := by
  intro a s2 ha
  obtain ⟨b, s1, hb, hrest, hlines⟩ := Emitter.bind_ok ha
  have hmeets := h b s1 hb
  rw [hlines]
  cases hrun : runLines (x s).lines m with
  | next m1 =>
    rw [hrun] at hmeets
    rw [runLines_append hrun]
    exact hf b s1 m1 hmeets a s2 hrest
  | fault =>
    rw [hrun] at hmeets
    rw [runLines_append_of_ne (by simp [hrun]), hrun]
    exact hF hmeets a s2
  | goto l m' | stuck =>
    rw [hrun] at hmeets
    exact hmeets.elim

/-- The same for a step that cannot fault. -/
theorem Leads.next (h : Runs False x s m Q) (hf : ∀ b s' m', Q b s' m' → Leads (f b) s' m' E) :
    Leads (x >>= f) s m E :=
  Leads.after h hf False.elim

theorem Leads.quiet {b : β} {s1 : State} (hx : x s = ⟨[], .ok (b, s1)⟩) (h : Leads (f b) s1 m E) :
    Leads (x >>= f) s m E :=
  Leads.next (Q := fun b' s' m' => b' = b ∧ s' = s1 ∧ m' = m) (runs_quiet hx ⟨rfl, rfl, rfl⟩)
    fun _ _ _ ⟨hb, hs, hm⟩ => hb ▸ hs ▸ hm ▸ h

/-- A step that writes nothing follows. -/
theorem Leads.finish {x : Emitter α} {f : α → Emitter β} {E' : β → State → Exit → Prop}
    (h : Leads x s m E) (hf : ∀ a s1 e, E a s1 e →
      ∃ b s2, f a s1 = ⟨[], .ok (b, s2)⟩ ∧ E' b s2 e) : Leads (x >>= f) s m E' := by
  intro b s2 hb
  obtain ⟨a, s1, ha, hrest, hlines⟩ := Emitter.bind_ok hb
  obtain ⟨b', s2', hquiet, hE'⟩ := hf a s1 _ (h a s1 ha)
  rw [hquiet] at hrest
  cases hrest
  rw [hlines, hquiet, List.append_nil]
  exact hE'

theorem Leads.within {x : Emitter α} (h : Leads x s m E) (step : String) :
    Leads (Emitter.within step x) s m E :=
  fun a s' ha => h a s' (Text.within_ok ha)

theorem Leads.pure {a : α} (h : E a s (.next m)) : Leads (pure a : Emitter α) s m E := by
  intro b s' hb
  cases hb
  exact h

theorem Leads.ins {op : Asm.Mnemonic} {args : List Asm.Operand} {E : Unit → State → Exit → Prop}
    (h : E () s (runLines [.ins op args] m)) : Leads (Emitter.ins op args) s m E := by
  intro b s' hb
  rw [Emitter.ins_lines hb]
  obtain rfl : s = s' := by
    change ((Text.ins op args).result.map fun a => (a, s)) = .ok (b, s') at hb
    cases hx : (Text.ins op args).result <;> rw [hx] at hb <;> cases hb
    rfl
  exact h

end

/-! ## Terminators -/

/-- The value that a function returns is in `rax`, at the width of its type. -/
def Returned (env : Env) (v : Option Int) (m : Asm.Machine) : Prop :=
  match v with
  | none => m.regs .rax = 0
  | some a => ∃ w, IsWork w ∧
      (env.types.isVoid env.func.ret = false → w = workBits env.types env.func.ret) ∧
      (m.regs .rax).setWidth (width w) = BitVec.ofInt (width w) a

/-- The end of block `bi` leads where the intermediate code says, with the values that later blocks
need in their places. -/
def Follows (env : Env) (base : BitVec 64) (bi : Nat) (s : State) : Effect → Exit → Prop
  | .goto l σ, e => ∃ m, (e = .goto l m ∨ e = .next m ∧ env.func.blockIndex? l = some (bi + 1)) ∧
      Represents env base (LiveOut env bi) σ s m
  | .fall σ, e => ∃ m, e = .next m ∧ Represents env base (LiveOut env bi) σ s m
  | .ret v, e => ∃ m, (e = .goto endLabel m ∨ e = .next m ∧ bi + 1 = env.func.blocks.length) ∧
      Returned env v m
  | _, _ => False

/-- No temporary has a register, and the end of the block leads where it should. -/
structure Ended (env : Env) (base : BitVec 64) (bi : Nat) (effect : Effect) (taken : List Reg)
    (s : State) (e : Exit) : Prop where
  order : Ordered env taken s
  unbound : ∀ i, s.bound? i = none
  follows : Follows env base bi s effect e

variable {a : Int} {args : List Ir.Operand} {v : Option Int} {signed : Bool}

theorem returnValue_runs (hframed : env.Framed) (hrep : Represents env base N σ s m) (hs : InOrder env s)
    (hargs : args = [] ∧ v = none ∨ ∃ x a, args = [x] ∧ Valued env N σ x a ∧ v = some a) :
    Runs F (returnValue env args) s m fun _ s' m' =>
      Represents env base N σ s' m' ∧ InOrder env s' ∧ Returned env v m' := by
  rcases hargs with ⟨rfl, rfl⟩ | ⟨x, a, rfl, hx, rfl⟩
  · obtain ⟨m', hrun, hsame, hzero⟩ := Asm.clear_runs m (d := ⟨.rax, 32⟩) (.inl rfl)
    refine Runs.ins ?_
    rw [hrun]
    exact ⟨hrep.pair hs (hsame.mono fun _ => .inl), hs, hzero⟩
  · refine Runs.bind (Runs.within (operand_runs hframed hrep hs hx) _) ?_
    intro op s1 m1 hread
    refine Runs.bind (Runs.lift (Q := fun w s' m' => s' = s1 ∧ m1 = m' ∧ IsWork w ∧
      (env.types.isVoid env.func.ret = false → w = workBits env.types env.func.ret))
      fun w hw => ⟨rfl, rfl, ?_⟩) ?_
    · rw [eq_of_work hw]
      refine ⟨workBits_isWork _ _, fun hvoid => ?_⟩
      rw [if_neg (by rw [hvoid]; exact Bool.false_ne_true)]
    · rintro w _ _ ⟨rfl, rfl, hwork, hret⟩
      have hgeneral : Reg.rax ∈ Reg.general := by decide
      refine runs_moveReg (d := ⟨.rax, w⟩) hgeneral hwork hread.usable hread.carries
        fun m' hsame hvalue => ?_
      exact ⟨hread.rep.pair hread.order (hsame.mono fun _ => .inl), hread.order, w, hwork, hret, hvalue⟩

/-- A jump, or nothing if it is left out. -/
theorem leads_jump {c : Bool} {l : String} {E : Unit → State → Exit → Prop}
    (h : E () s (if c then .goto l m else .next m)) :
    Leads (Emitter.onlyIf c (Emitter.ins .jmp [.label l])) s m E := by
  cases c with
  | true => exact Leads.ins h
  | false => exact Leads.pure h

theorem ret_leads (hframed : env.Framed) (hfits : env.Fits base)
    (hrep : Represents env base N σ s m) (hN : ∀ i, LiveOut env bi i → N i) (hs : InOrder env s)
    (hargs : args = [] ∧ v = none ∨ ∃ x a, args = [x] ∧ Valued env N σ x a ∧ v = some a) :
    Leads (emitRet env bi (bi + 1 == env.func.blocks.length) ⟨.ret, none, args⟩) s m fun _ s' =>
      Ended env base bi (.ret v) s'.scratches s' := by
  refine Leads.next (returnValue_runs hframed hrep hs hargs) ?_
  rintro _ s1 m1 ⟨hrep1, hs1, hreturned⟩
  refine Leads.next (flush_runs hframed hfits (hrep1.weaken hN) hs1) ?_
  rintro _ s2 m2 ⟨hstored, hunbound⟩
  refine leads_jump ⟨hstored.order, hunbound, m2, ?_, ?_⟩
  · by_cases hlast : bi + 1 = env.func.blocks.length
    · refine Or.inr ⟨if_neg ?_, hlast⟩
      simp [hlast]
    · refine Or.inl (if_pos ?_)
      simp [hlast]
  · unfold Returned at hreturned ⊢
    rw [hstored.regs]
    exact hreturned

theorem jump_leads (hframed : env.Framed) (hfits : env.Fits base)
    (hrep : Represents env base N σ s m) (hN : ∀ i, LiveOut env bi i → N i) (hs : InOrder env s)
    (l : String) :
    Leads (emitJump env bi ⟨.jump, none, [.label l]⟩) s m fun _ s' =>
      Ended env base bi (.goto l σ) s'.scratches s' := by
  refine Leads.quiet rfl (Leads.next (flush_runs hframed hfits (hrep.weaken hN) hs) ?_)
  rintro _ s1 m1 ⟨hstored, hunbound⟩
  have hlabel : (Ir.Operand.label l).label?.getD "" = l := rfl
  rw [hlabel]
  cases hindex : env.func.blockIndex? l with
  | none => exact fun _ _ h => absurd h nofun
  | some ti =>
    refine leads_jump ⟨hstored.order, hunbound, m1, ?_, hstored.rep⟩
    by_cases hnext : ti = bi + 1
    · refine Or.inr ⟨if_neg ?_, hindex.trans (congrArg some hnext)⟩
      simp [hnext]
    · refine Or.inl (if_pos ?_)
      simp [hnext]

/-! ## Conditional jumps -/

/-- A value in range is zero if its bits are. -/
theorem ofInt_eq_zero {w : Nat} (h : wrapTo w signed a = a) :
    BitVec.ofInt w a = BitVec.ofInt w 0 ↔ a = 0 := by
  refine ⟨fun hbits => ?_, fun ha => congrArg _ ha⟩
  have hzero : wrapTo w signed 0 = 0 := by
    unfold wrapTo
    cases signed <;> simp
  rw [← h, ← Asm.asInt_ofInt, hbits, Asm.asInt_ofInt, hzero]

/-- A known value of a type that fits a register is zero if its number is. -/
theorem int64_ofInt_bne_zero {u : Universe} {ty : Ty} (hty : u.isScalar ty)
    (ha : u.InRange ty a) : (Int64.ofInt a != 0) = (a != 0) := by
  have hwide : wrapTo 64 ty.isInteger a = a := wrapTo_of_le (width_bytes hty).2 ha
  have hzero : (0 : Int64).toBitVec = BitVec.ofInt 64 0 := by decide
  have hiff : Int64.ofInt a = 0 ↔ a = 0 := by
    rw [← ofInt_eq_zero hwide, ← Int64.toBitVec_inj, Int64.toBitVec_ofInt, hzero]
  rw [Bool.eq_iff_iff, bne_iff_ne, bne_iff_ne, Ne, Ne, hiff]

/-- The flags after a condition is compared with zero. -/
theorem compareZero_runs {op : Asm.Operand} (himm : op.isImm = false) (hcarries : Carries m op signed a) :
    ∃ f : Flags, runLines [.ins .cmp [op, .imm ⟨0, op.size, false⟩]] m
      = .next { m with flags := some f } ∧ f.zero = (a == 0) := by
  obtain ⟨hread, hrange⟩ := hcarries.read himm
  have hsource : (Asm.Operand.imm ⟨0, op.size, false⟩).source m op.bits
      = some (BitVec.ofInt op.bits 0) := by
    have hfits : (Asm.Operand.imm ⟨0, op.size, false⟩).isEncodable op.bits := by
      simp [Asm.Operand.isEncodable, Asm.Imm.fits32]
    exact if_pos hfits
  refine ⟨_, Asm.compare_runs himm (Bool.and_false _) rfl hread hsource, ?_⟩
  show (BitVec.ofInt op.bits a == BitVec.ofInt op.bits 0) = _
  rw [Bool.eq_iff_iff, beq_iff_eq, beq_iff_eq]
  exact ofInt_eq_zero hrange

/-- The jump is taken if what was compared is not zero, or if it is. -/
theorem jumpIf_runs {f : Flags} (hflags : m.flags = some f) (c : Bool) (l : String) :
    runLines [.ins (if c then .jne else .je) [.label l]] m
      = if (!f.zero) == c then .goto l m else .next m := by
  have hjump : ∀ op b, Asm.condition op f = some b → m.jumpIf op l = if b then .goto l m else .next m := by
    intro op b hb
    unfold Asm.Machine.jumpIf
    rw [hflags, Option.bind_some, hb]
    cases b <;> rfl
  obtain ⟨zero, carry, sign, overflow⟩ := f
  cases c with
  | true =>
    have hexec : (Asm.Line.ins .jne [.label l]).exec m = m.jumpIf .setne l := rfl
    rw [if_pos rfl, runLines, hexec, hjump .setne (!zero) rfl]
    cases zero <;> rfl
  | false =>
    have hexec : (Asm.Line.ins .je [.label l]).exec m = m.jumpIf .sete l := rfl
    rw [if_neg Bool.false_ne_true, runLines, hexec, hjump .sete zero rfl]
    cases zero <;> rfl

theorem follows_branch (hrep : Represents env base (LiveOut env bi) σ s m) (l : String) (c : Bool) :
    Follows env base bi s (if c then .goto l σ else .fall σ) (if c then .goto l m else .next m) := by
  cases c with
  | true => exact ⟨m, .inl rfl, hrep⟩
  | false => exact ⟨m, rfl, hrep⟩

theorem cjump_leads (hframed : env.Framed) (hfits : env.Fits base) (h : Faithful env base N σ K s m)
    (hN : ∀ i, LiveOut env bi i → N i) {x : Ir.Operand} (hx : Valued env N σ x a) (l : String)
    (sentinel : Int64) (type : Ty) :
    Leads (emitCJump env bi ⟨.cjump, none, [x, .label l, .int sentinel type]⟩) s m
      fun _ s' => Ended env base bi (if (a != 0) == (sentinel == 1) then .goto l σ else .fall σ)
        s'.scratches s' := by
  refine Leads.quiet rfl (Leads.quiet rfl (Leads.quiet rfl (Leads.quiet (constOf_eq h hx) ?_)))
  cases hknown : isKnown K x with
  | true =>
    -- the jump is decided already
    refine Leads.next (flush_runs hframed hfits (h.rep.weaken hN) h.order) ?_
    rintro _ s1 m1 ⟨hstored, hunbound⟩
    refine leads_jump ⟨hstored.order, hunbound, ?_⟩
    rw [int64_ofInt_bne_zero hx.reads.scalar (h.rep.inRange hx)]
    exact follows_branch hstored.rep l _
  | false =>
    refine Leads.next (Runs.within (operand_runs hframed h.rep h.order hx) _) ?_
    intro op s1 m1 hread
    have himm : op.isImm = false := by
      rw [← Bool.not_eq_true]
      intro himm
      have hconst := hread.known himm
      rw [h.isKnown_eq hread.growing.consts, hknown] at hconst
      exact Bool.false_ne_true hconst
    obtain ⟨f, hrun, hzero⟩ := compareZero_runs himm hread.carries
    refine Leads.next (Runs.ins (Q := fun _ s' m' => s' = s1 ∧ m' = { m1 with flags := some f }) ?_) ?_
    · rw [hrun]
      exact ⟨rfl, rfl⟩
    rintro _ s1 _ ⟨rfl, rfl⟩
    have hrep : Represents env base N σ s1 { m1 with flags := some f } :=
      hread.rep.sameBut (X := fun _ => False) ⟨rfl, fun _ _ => rfl⟩ id nofun
    refine Leads.next (flush_runs hframed hfits (hrep.weaken hN) hread.order) ?_
    rintro _ s2 m2 ⟨hstored, hunbound⟩
    refine Leads.ins ⟨hstored.order, hunbound, ?_⟩
    rw [jumpIf_runs hstored.flags, hzero]
    exact follows_branch hstored.rep l _

end TreeAsm.Emit
