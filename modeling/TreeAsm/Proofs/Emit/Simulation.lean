import TreeAsm.Proofs.Emit.Ends

/-!
# Blocks do what the intermediate code says

A block of computing instructions and a terminator leads where the intermediate code says, with the
values of the temporaries that later blocks need in their places. Between instructions the state says
where the values are of those temporaries that the rest of the block mentions or later blocks need
(`Needed`); registers of all others have been given back.
-/

namespace TreeAsm.Emit

open Asm (Exit Reg runLines)
open Ir

variable {env : Env} {base : BitVec 64} {N : Nat → Prop} {σ : Store} {s : State} {m m' : Asm.Machine}
  {F : Prop} {K : Nat → Bool} {bi : Nat} {i : Instr} {rest : List Instr}

/-! ## Instructions of a block -/

/-- An instruction that computes a value from values that fit a register. -/
inductive Computing (env : Env) (K : Nat → Bool) : Instr → Prop
  | moveTemp {t : Temp} {x : Operand} (ht : env.HasTemp t) (hx : env.Reads x) :
      Computing env K ⟨.move, none, [.temp t, x]⟩
  | moveVar {v : Local} {x : Operand} (hv : env.HasVar v) (hx : env.Reads x) :
      Computing env K ⟨.move, none, [.var v, x]⟩
  | arithmetic {op : Opcode} {t : Temp} {x y : Operand}
      (hop : op ∈ [.add, .sub, .and, .mul, .div]) (ht : env.HasTemp t) (hx : env.Reads x)
      (hy : env.Reads y) (hxt : x ≠ .temp t) (hyt : y ≠ .temp t) :
      Computing env K ⟨op, some t, [x, y]⟩
  | compare {op : Opcode} {t : Temp} {x y : Operand} (hop : op.isCompare = true)
      (ht : env.HasTemp t) (hbool : t.type = .bool) (hx : env.Reads x) (hy : env.Reads y)
      (hxt : x ≠ .temp t) (hyt : y ≠ .temp t)
      (hknown : (isKnown K x && isKnown K y) = false) :
      Computing env K ⟨op, some t, [x, y]⟩

/-- An instruction that ends a block. A jump goes to a block of the function. -/
inductive Terminating (env : Env) : Instr → Prop
  | retNothing : Terminating env ⟨.ret, none, []⟩
  | ret {x : Operand} (hx : env.Reads x) : Terminating env ⟨.ret, none, [x]⟩
  | jump {l : String} (hl : (env.func.blockIndex? l).isSome = true) :
      Terminating env ⟨.jump, none, [.label l]⟩
  | cjump {x : Operand} (hx : env.Reads x) (l : String) (sentinel : Int64) (type : Ty) :
      Terminating env ⟨.cjump, none, [x, .label l, .int sentinel type]⟩

/-- Which temporaries are known after an instruction. -/
def learned (K : Nat → Bool) (i : Instr) : Nat → Bool :=
  match i.op, i.result, i.args with
  | .move, none, [.temp t, x] => learn K t.id (isKnown K x)
  | _, some t, _ => learn K t.id false
  | _, _, _ => K

/-- The code of a block: computing instructions, and one that ends it. -/
inductive BlockCode (env : Env) : (Nat → Bool) → List Instr → Prop
  | last {K : Nat → Bool} {i : Instr} (h : Terminating env i) : BlockCode env K [i]
  | cons {K : Nat → Bool} {i : Instr} {rest : List Instr} (h : Computing env K i)
      (hrest : BlockCode env (learned K i) rest) : BlockCode env K (i :: rest)

/-- The temporaries that instructions mention or later blocks need. -/
def Needed (env : Env) (bi : Nat) (code : List Instr) (i : Nat) : Prop :=
  (code.any fun j => mentions j i) = true ∨ isLiveOut env bi i = true

/-! ## Registers between instructions -/

/-- The registers taken for an instruction are given back. -/
theorem releaseScratches_eq {rs : List Reg} : ∀ {s : State}, Holds s rs →
    ∃ p, releaseScratches rs s = ⟨[], .ok ((), { s with pool := p })⟩ ∧ Holds { s with pool := p } [] := by
  induction rs with
  | nil => exact fun h => ⟨_, rfl, h⟩
  | cons r rs ih =>
    intro s h
    obtain ⟨p, hp, hholds⟩ := h.release
    obtain ⟨p', hp', hholds'⟩ := ih hholds
    refine ⟨p', ?_, hholds'⟩
    have hrelease : release r s = ⟨[], .ok ((), { s with pool := p })⟩ := by
      show (Emitter.lift (s.pool.release r) >>= fun pool =>
        modify fun s : State => { s with pool := pool } : Emitter PUnit) s = _
      rw [hp]
      rfl
    exact (bind_quiet (congrArg (Asm.Text.within "scratch") hrelease)).trans hp'

/-- Everything is as between two instructions: no register is taken but for temporaries. -/
abbrev Between (env : Env) (base : BitVec 64) (N : Nat → Prop) (σ : Store) (K : Nat → Bool)
    (s : State) (m : Asm.Machine) : Prop :=
  Faithful env base N σ K { s with scratches := [] } m

variable {t : Temp} {x : Operand} {ts : List Temp}

theorem releaseTemps_runs (hfits : env.Fits base) : ∀ {s : State},
    (∀ t ∈ ts, t.id < env.func.temps.length) → Between env base (Needed env bi rest) σ K s m →
    Runs F (releaseTemps env bi rest ts) s m fun _ s' m' =>
      m' = m ∧ Between env base (Needed env bi rest) σ K s' m := by
  induction ts with
  | nil => exact fun _ h => Runs.pure ⟨rfl, h⟩
  | cons t ts ih =>
    intro s hts h
    have hrelease : Runs F (releaseTemp env bi rest t) s m fun _ s' m' =>
        m' = m ∧ Between env base (Needed env bi rest) σ K s' m := by
      have hbound := h.order.boundAt (hts t (List.mem_cons_self ..))
      refine runs_boundAt hbound ?_
      cases hr : State.bound? { s with scratches := [] } t.id with
      | none => exact Runs.pure ⟨rfl, h⟩
      | some r =>
        refine Runs.ite (fun _ => Runs.pure ⟨rfl, h⟩) fun hdead => ?_
        -- neither the rest of the block nor later blocks need it
        have hnot : ¬ Needed env bi rest t.id := by
          rw [Bool.or_eq_true] at hdead
          exact hdead
        have hs : Ordered env [] s := ⟨h.order.holds.congr rfl rfl, h.order.length, h.order.owner⟩
        obtain ⟨p, hunbind, horder⟩ := unbind_eq hs (hr ▸ hbound)
        refine runs_quiet hunbind ⟨rfl, ?_, ⟨horder.holds.congr rfl rfl, horder.length, horder.owner⟩,
          h.known⟩
        obtain ⟨t', ht', hid⟩ := h.order.owner t.id r hr
        rw [← hid] at hr hnot ⊢
        exact h.rep.unbind hfits h.order ht' hr p (.inl ⟨rfl, hnot⟩) rfl
    refine Runs.bind hrelease ?_
    rintro _ s1 _ ⟨rfl, h1⟩
    exact ih (fun t' ht' => hts t' (List.mem_cons_of_mem _ ht')) h1

/-! ## One instruction -/

theorem apart_of_ne (ht : env.HasTemp t) (hx : env.Reads x) (h : x ≠ .temp t) :
    ∀ t', x = .temp t' → t'.id ≠ t.id := by
  rintro t' rfl hid
  exact h (congrArg Operand.temp (Env.HasTemp.eq hx ht hid))

/-- A value that the machine computes in place. -/
theorem arithmetic_add (a b : Int) : Arithmetic .add a b (a + b) :=
  ⟨.inl rfl, fun _ _ => congrArg some (BitVec.ofInt_add a b).symm⟩

theorem arithmetic_sub (a b : Int) : Arithmetic .sub a b (a - b) :=
  ⟨.inr (.inl rfl), fun w _ => congrArg some (ofInt_sub w a b).symm⟩

theorem arithmetic_and (a b : Int) : Arithmetic .and a b (BitVec.ofInt 64 a &&& BitVec.ofInt 64 b).toInt :=
  ⟨.inr (.inr (.inl rfl)), fun _ hw => congrArg some (Asm.ofInt_and hw a b)⟩

theorem arithmetic_mul (a b : Int) : Arithmetic .imul a b (a * b) :=
  ⟨.inr (.inr (.inr rfl)), fun _ _ => congrArg some (BitVec.ofInt_mul a b).symm⟩

/-- An operand of an instruction that is not stuck has a value. -/
theorem valued (hx : env.Reads x) (hmem : x ∈ i.args) (hN : ∀ j, mentions i j → N j)
    {a : Int} (ha : x.value env.types σ = some a) : Valued env N σ x a := by
  refine ⟨hx, fun t ht => hN t.id ?_, ha⟩
  rw [mentions, Bool.or_eq_true, List.any_eq_true]
  refine Or.inl ⟨x, hmem, ?_⟩
  rw [ht]
  exact beq_self_eq_true t.id

/-- The lines of an instruction lead on with the values that it gives, or fault with it. -/
def Performs (env : Env) (base : BitVec 64) (N : Nat → Prop) (σ : Store) (K : Nat → Bool) (s : State)
    (m : Asm.Machine) (i : Instr) (x : Emitter Unit) : Prop :=
  Runs (i.exec env.types σ = .fault) x s m fun _ s' m' =>
    ∃ σ', i.exec env.types σ = .next σ' ∧ Faithful env base N σ' (learned K i) s' m'

theorem performs_next {x : Emitter Unit} {σ' : Store} (hexec : i.exec env.types σ = .next σ')
    (h : Runs False x s m fun _ => Faithful env base N σ' (learned K i)) :
    Performs env base N σ K s m i x :=
  (h.mono fun _ _ _ hdone => ⟨σ', hexec, hdone⟩).fault False.elim

section

variable {t : Temp} {x y : Operand} {a b : Int} {op : Opcode}

theorem exec_valued (hx : Valued env N σ x a) (hy : Valued env N σ y b) :
    Instr.exec env.types ⟨op, some t, [x, y]⟩ σ = match compute env.types op x.type y.type t.type a b with
        | .value v => .next (σ.setTemp t.id v)
        | .fault => .fault
        | .undefined => .stuck := by
  rw [Instr.exec_binary, hx.value, hy.value]
  rfl

theorem mulDiv_performs (hframed : env.Framed) (hfits : env.Fits base)
    (h : Faithful env base N σ K s m) (ht : env.HasTemp t) (hx : Valued env N σ x a)
    (hy : Valued env N σ y b) (hop : op = .mul ∨ op = .div) :
    Performs env base N σ K s m ⟨op, some t, [x, y]⟩ (emitMulDiv env ⟨op, some t, [x, y]⟩) := by
  have heffect : Instr.exec env.types ⟨op, some t, [x, y]⟩ σ
      = (mulDivResult op (env.types.workWidth t.type) (isSigned t.type) a b).elim .fault fun c =>
        .next (σ.setTemp t.id (env.types.wrap t.type c)) := by
    rw [exec_valued hx hy]
    rcases hop with rfl | rfl
    · rfl
    · have hsigned : isSigned t.type = t.type.isInteger := rfl
      rw [mulDivResult, if_neg (by decide), compute, hsigned]
      cases quotient (env.types.workWidth t.type) t.type.isInteger a b <;> rfl
  have hlearned : learned K ⟨op, some t, [x, y]⟩ = learn K t.id false := by
    rcases hop with rfl | rfl <;> rfl
  rw [← width_work ht.2] at heffect
  unfold Performs
  rw [heffect, hlearned]
  refine ((mulDiv_runs hframed hfits h ht hx hy rfl).fault fun hnone => ?_).mono ?_
  · rw [hnone, Option.elim_none]
  · rintro _ s' m' ⟨c, hc, hdone⟩
    rw [hc]
    exact ⟨_, rfl, hdone⟩

theorem arithmetic_performs (hframed : env.Framed) (hfits : env.Fits base)
    (h : Faithful env base N σ K s m) (hop : op ∈ [.add, .sub, .and, .mul, .div])
    (ht : env.HasTemp t) (hx : Valued env N σ x a) (hy : Valued env N σ y b) (hyt : y ≠ .temp t)
    (last : Bool) :
    Performs env base N σ K s m ⟨op, some t, [x, y]⟩ (emitOp env bi last ⟨op, some t, [x, y]⟩) := by
  have hexec : Instr.exec env.types ⟨op, some t, [x, y]⟩ σ = _ := exec_valued hx hy
  have hyt' := apart_of_ne ht hy.reads hyt
  simp only [List.mem_cons, List.not_mem_nil, or_false] at hop
  rcases hop with rfl | rfl | rfl | rfl | rfl
  · exact performs_next hexec (binary_runs hframed hfits h ht hx hy hyt' (arithmetic_add a b))
  · exact performs_next hexec (binary_runs hframed hfits h ht hx hy hyt' (arithmetic_sub a b))
  · exact performs_next hexec (binary_runs hframed hfits h ht hx hy hyt' (arithmetic_and a b))
  · refine runs_after rfl (Runs.ite (fun _ => ?_) fun _ => ?_)
    · exact performs_next hexec (binary_runs hframed hfits h ht hx hy hyt' (arithmetic_mul a b))
    · exact mulDiv_performs hframed hfits h ht hx hy (.inl rfl)
  · exact mulDiv_performs hframed hfits h ht hx hy (.inr rfl)

theorem compare_performs (hframed : env.Framed) (hfits : env.Fits base)
    (h : Faithful env base N σ K s m) (hop : op.isCompare) (ht : env.HasTemp t)
    (hbool : t.type = .bool) (hx : Valued env N σ x a) (hy : Valued env N σ y b)
    (hxt : x ≠ .temp t) (hyt : y ≠ .temp t) (hknown : (isKnown K x && isKnown K y) = false)
    (last : Bool) :
    Performs env base N σ K s m ⟨op, some t, [x, y]⟩ (emitOp env bi last ⟨op, some t, [x, y]⟩) := by
  have hexec : Instr.exec env.types ⟨op, some t, [x, y]⟩ σ = _ := exec_valued hx hy
  rw [compute_compare env.types hop] at hexec
  have hrun := compare_runs (F := False) hframed hfits h ht hbool hx (apart_of_ne ht hx.reads hxt) hy
    (apart_of_ne ht hy.reads hyt) hknown hop
  refine performs_next hexec ?_
  cases op with
  | eq | ne | lt | le | gt | ge => exact hrun
  | _ => cases hop

end

/-- What goes on with a value is not stuck only if there is one. -/
theorem withValue_of_ne_stuck {v : Option Int} {k : Int → Effect}
    (h : Effect.withValue v k ≠ .stuck) : ∃ a, v = some a ∧ Effect.withValue v k = k a := by
  cases v with
  | none => exact absurd rfl h
  | some a => exact ⟨a, rfl, rfl⟩

/-- The operands of an operation that is not stuck have values. -/
theorem valued_both {y : Operand} {op : Opcode} (hx : env.Reads x) (hy : env.Reads y)
    (hN : ∀ j, mentions ⟨op, some t, [x, y]⟩ j → N j)
    (hstuck : Instr.exec env.types ⟨op, some t, [x, y]⟩ σ ≠ .stuck) :
    ∃ a b, Valued env N σ x a ∧ Valued env N σ y b := by
  rw [Instr.exec_binary] at hstuck
  obtain ⟨a, ha, hexec⟩ := withValue_of_ne_stuck hstuck
  rw [hexec] at hstuck
  obtain ⟨b, hb, -⟩ := withValue_of_ne_stuck hstuck
  exact ⟨a, b, valued hx (by simp) hN ha, valued hy (by simp) hN hb⟩

/-- The lines of a computing instruction do what it does. -/
theorem op_performs (hframed : env.Framed) (hfits : env.Fits base)
    (h : Faithful env base N σ K s m) (hi : Computing env K i)
    (hN : ∀ j, mentions i j → N j) (hstuck : i.exec env.types σ ≠ .stuck) (last : Bool) :
    Performs env base N σ K s m i (emitOp env bi last i) := by
  cases hi with
  | moveTemp ht hx =>
    obtain ⟨a, ha, hexec⟩ := withValue_of_ne_stuck hstuck
    exact performs_next hexec (move_runs hframed hfits h ht (valued hx (by simp) hN ha))
  | moveVar hv hx =>
    obtain ⟨a, ha, hexec⟩ := withValue_of_ne_stuck hstuck
    exact performs_next hexec (moveToVar_runs hframed hfits h hv (valued hx (by simp) hN ha))
  | arithmetic hop ht hx hy hxt hyt =>
    obtain ⟨a, b, ha, hb⟩ := valued_both hx hy hN hstuck
    exact arithmetic_performs hframed hfits h hop ht ha hb hyt last
  | compare hop ht hbool hx hy hxt hyt hknown =>
    obtain ⟨a, b, ha, hb⟩ := valued_both hx hy hN hstuck
    exact compare_performs hframed hfits h hop ht hbool ha hb hxt hyt hknown last

/-! ## The code of a block -/

theorem mem_mentioned (h : t ∈ mentioned i) : .temp t ∈ i.args ∨ i.result = some t := by
  rcases List.mem_append.mp h with harg | hresult
  · obtain ⟨x, hx, htemp⟩ := List.mem_filterMap.mp harg
    cases x with
    | temp t' =>
      obtain rfl : t' = t := Option.some.inj htemp
      exact .inl hx
    | _ => exact absurd htemp nofun
  · exact .inr (Option.mem_toList.mp hresult)

/-- An instruction mentions temporaries of the function only. -/
theorem Computing.hasTemp (hi : Computing env K i) (ht : t ∈ mentioned i) : env.HasTemp t := by
  have hpair : ∀ {x y : Operand}, env.Reads x → env.Reads y → .temp t ∈ [x, y] → env.HasTemp t := by
    intro x y hx hy hmem
    rcases List.mem_pair.mp hmem with rfl | rfl
    · exact hx
    · exact hy
  cases hi with
  | @moveTemp t' x ht' hx =>
    rcases mem_mentioned ht with hmem | hresult
    · exact hpair (x := .temp t') ht' hx hmem
    · cases hresult
  | @moveVar v x hv hx =>
    rcases mem_mentioned ht with hmem | hresult
    · exact hpair (x := .var v) hv hx hmem
    · cases hresult
  | arithmetic hop ht' hx hy hxt hyt =>
    rcases mem_mentioned ht with hmem | hresult
    · exact hpair hx hy hmem
    · exact Option.some.inj hresult ▸ ht'
  | compare hop ht' hbool hx hy hxt hyt hknown =>
    rcases mem_mentioned ht with hmem | hresult
    · exact hpair hx hy hmem
    · exact Option.some.inj hresult ▸ ht'

/-- The lines of an instruction lead on to those of the next one. -/
theorem next_performs (hframed : env.Framed) (hfits : env.Fits base)
    (h : Between env base (Needed env bi (i :: rest)) σ K s m) (hi : Computing env K i)
    (hstuck : i.exec env.types σ ≠ .stuck) :
    Runs (i.exec env.types σ = .fault) (emitNext env bi i rest) s m fun _ s' m' =>
      ∃ σ', i.exec env.types σ = .next σ' ∧
        Between env base (Needed env bi rest) σ' (learned K i) s' m' := by
  have hmentions : ∀ j, mentions i j → Needed env bi (i :: rest) j := by
    intro j hj
    refine Or.inl ?_
    rw [List.any_cons, hj, Bool.true_or]
  have hlater : ∀ j, Needed env bi rest j → Needed env bi (i :: rest) j := by
    intro j hj
    refine hj.imp_left fun hrest => ?_
    rw [List.any_cons, hrest, Bool.or_true]
  have hinstr : Runs (i.exec env.types σ = .fault)
      (emitInstr env bi (bi + 1 == env.func.blocks.length && rest.isEmpty) i) s m fun _ s' m' =>
        ∃ σ', i.exec env.types σ = .next σ' ∧
          Between env base (Needed env bi (i :: rest)) σ' (learned K i) s' m' := by
    refine runs_modify (Runs.bind (op_performs hframed hfits h hi hmentions hstuck _) ?_)
    rintro _ s1 m1 ⟨σ', hexec, hdone⟩
    obtain ⟨p, hrelease, hholds⟩ := releaseScratches_eq hdone.order.holds
    exact runs_quiet ((bind_quiet rfl).trans hrelease) ⟨σ', hexec, hdone.rep.state rfl rfl,
      ⟨hholds.congr rfl rfl, hdone.order.length, hdone.order.owner⟩, hdone.known⟩
  refine Runs.bind hinstr ?_
  rintro _ s1 m1 ⟨σ', hexec, hdone⟩
  have hneeded : Between env base (Needed env bi rest) σ' (learned K i) s1 m1 :=
    ⟨hdone.rep.weaken hlater, hdone.order, hdone.known⟩
  refine (releaseTemps_runs hfits (fun t ht => (hi.hasTemp ht).lt) hneeded).mono ?_
  rintro _ s2 _ ⟨rfl, hdone2⟩
  exact ⟨σ', hexec, hdone2⟩

/-- The lines of a terminator lead where it does. -/
theorem terminator_leads (hframed : env.Framed) (hfits : env.Fits base)
    (h : Faithful env base N σ K s m) (hi : Terminating env i)
    (hN : ∀ j, mentions i j → N j) (hlive : ∀ j, LiveOut env bi j → N j)
    (hstuck : i.exec env.types σ ≠ .stuck) :
    Leads (emitOp env bi (bi + 1 == env.func.blocks.length) i) s m fun _ s' =>
      Ended env base bi (i.exec env.types σ) s'.scratches s' := by
  cases hi with
  | retNothing => exact ret_leads hframed hfits h.rep hlive h.order (.inl ⟨rfl, rfl⟩)
  | @ret x hx =>
    obtain ⟨a, ha, hexec⟩ := withValue_of_ne_stuck hstuck
    have hret : Instr.exec env.types ⟨.ret, none, [x]⟩ σ = .ret (some a) := hexec
    rw [hret]
    exact ret_leads hframed hfits h.rep hlive h.order (.inr ⟨x, a, rfl, valued hx (by simp) hN ha, rfl⟩)
  | @jump l hl => exact jump_leads hframed hfits h.rep hlive h.order l
  | @cjump x hx l sentinel type =>
    obtain ⟨a, ha, hexec⟩ := withValue_of_ne_stuck hstuck
    have hbranch : Instr.exec env.types ⟨.cjump, none, [x, .label l, .int sentinel type]⟩ σ
        = if (a != 0) == (sentinel == 1) then .goto l σ else .fall σ := hexec
    rw [hbranch]
    exact cjump_leads hframed hfits h hlive (valued hx (by simp) hN ha) l sentinel type

/-- Where a block leads does not depend on the registers at hand. -/
theorem Follows.state {effect : Effect} {s' : State} {e : Exit} (h : Follows env base bi s effect e)
    (hconsts : s'.consts = s.consts) (hbound : s'.bound = s.bound) :
    Follows env base bi s' effect e := by
  cases effect with
  | goto l σ =>
    obtain ⟨m, he, hrep⟩ := h
    exact ⟨m, he, hrep.state hconsts hbound⟩
  | fall σ =>
    obtain ⟨m, he, hrep⟩ := h
    exact ⟨m, he, hrep.state hconsts hbound⟩
  | _ => exact h

/-- Nothing is given back if no temporary has a register. -/
theorem releaseTemps_unbound (hs : Ordered env [] s) (hunbound : ∀ j, s.bound? j = none)
    (hts : ∀ t ∈ ts, t.id < env.func.temps.length) :
    releaseTemps env bi rest ts s = ⟨[], .ok ((), s)⟩ := by
  induction ts with
  | nil => rfl
  | cons t ts ih =>
    have hbound : s.bound[t.id]? = some none :=
      hunbound t.id ▸ hs.boundAt (hts t (List.mem_cons_self ..))
    have hrelease : releaseTemp env bi rest t s = ⟨[], .ok ((), s)⟩ := by
      have hat : boundAt t.id s = ⟨[], .ok (none, s)⟩ := by
        rw [boundAt_eq, hbound]
        rfl
      exact bind_quiet hat
    exact (bind_quiet hrelease).trans (ih fun t' ht' => hts t' (List.mem_cons_of_mem _ ht'))

theorem Terminating.hasTemp (hi : Terminating env i) (ht : t ∈ mentioned i) : env.HasTemp t := by
  cases hi with
  | retNothing => cases ht
  | ret hx =>
    rcases mem_mentioned ht with hmem | hresult
    · obtain rfl := List.mem_singleton.mp hmem
      exact hx
    · cases hresult
  | jump hl => cases ht
  | cjump hx l sentinel type =>
    rcases mem_mentioned ht with hmem | hresult
    · rcases List.mem_cons.mp hmem with rfl | hmem
      · exact hx
      · simp at hmem
    · cases hresult

theorem last_leads (hframed : env.Framed) (hfits : env.Fits base)
    (h : Between env base (Needed env bi [i]) σ K s m) (hi : Terminating env i)
    (hstuck : i.exec env.types σ ≠ .stuck) :
    Leads (emitNext env bi i []) s m fun _ s' =>
      Ended env base bi (i.exec env.types σ) [] s' := by
  have hmentions : ∀ j, mentions i j → Needed env bi [i] j := by
    intro j hj
    refine Or.inl ?_
    rw [List.any_cons, hj, Bool.true_or]
  have hlive : ∀ j, LiveOut env bi j → Needed env bi [i] j := fun _ => .inr
  have hinstr : Leads (emitInstr env bi (bi + 1 == env.func.blocks.length && true) i) s m
      fun _ s' => Ended env base bi (i.exec env.types σ) [] s' := by
    rw [Bool.and_true]
    refine Leads.quiet rfl ?_
    refine (terminator_leads hframed hfits h hi hmentions hlive hstuck).finish fun _ s1 e hend => ?_
    obtain ⟨p, hrelease, hholds⟩ := releaseScratches_eq hend.order.holds
    exact ⟨(), _, (bind_quiet rfl).trans hrelease,
      ⟨hholds, hend.order.length, hend.order.owner⟩, hend.unbound, hend.follows.state rfl rfl⟩
  refine hinstr.finish fun _ s1 e hend => ⟨(), s1, ?_, hend⟩
  exact releaseTemps_unbound hend.order hend.unbound fun t ht => (hi.hasTemp ht).lt

theorem runCode_one (u : Universe) (i : Instr) (σ : Store) : runCode u [i] σ = i.exec u σ := by
  rw [runCode]
  cases i.exec u σ <;> rfl

/-- The lines of a block fault with its code, or they lead where it does. -/
def Simulates (env : Env) (base : BitVec 64) (bi : Nat) (effect : Effect) (s : State) (e : Exit) :
    Prop :=
  effect = .fault ∧ e = .fault ∨ Ended env base bi effect [] s e

theorem code_leads (hframed : env.Framed) (hfits : env.Fits base) (label : String)
    {code : List Instr} (hcode : BlockCode env K code) : ∀ {σ : Store} {s : State} {m : Asm.Machine},
    Between env base (Needed env bi code) σ K s m → runCode env.types code σ ≠ .stuck →
    Leads (emitCode env bi label code) s m fun _ s' =>
      Simulates env base bi (runCode env.types code σ) s' := by
  induction hcode with
  | @last K i hi =>
    intro σ s m h hstuck
    rw [runCode_one] at hstuck ⊢
    refine ((last_leads hframed hfits h hi hstuck).within _).finish fun _ s1 e hend => ?_
    exact ⟨(), s1, rfl, .inr hend⟩
  | @cons K i rest hi hrest ih =>
    intro σ s m h hstuck
    rw [runCode] at hstuck
    have hexec : i.exec env.types σ ≠ .stuck := by
      intro hexec
      rw [hexec] at hstuck
      exact hstuck rfl
    refine Leads.after (Runs.within (next_performs hframed hfits h hi hexec) _) ?_ fun hfault _ _ => ?_
    · rintro _ s1 m1 ⟨σ', hnext, hbetween⟩
      rw [hnext] at hstuck
      rw [runCode, hnext]
      exact ih hbetween hstuck
    · rw [runCode, hfault]
      exact .inl ⟨rfl, rfl⟩

/-! ## Blocks -/

/-- Nothing but the label comes before the code of a block. -/
theorem block_leads {b : Block} {E : Unit → State → Exit → Prop} (hb : b.isTerminated)
    (h : Leads (emitCode env bi b.label b.code) s m E) : Leads (emitBlock env bi b) s m E := by
  refine Leads.next (Runs.write (Q := fun _ s' m' => s' = s ∧ m' = m) fun _ _ => ⟨rfl, rfl⟩) ?_
  rintro _ _ _ ⟨rfl, rfl⟩
  refine h.finish fun _ s1 e he => ⟨(), s1, ?_, he⟩
  rw [endBlock, if_pos hb]
  rfl

/-- The code of a block ends with a terminator. -/
theorem BlockCode.isTerminated {b : Block} (h : BlockCode env K b.code) : b.isTerminated := by
  have hlast : ∀ {K : Nat → Bool} {code : List Instr}, BlockCode env K code →
      ∃ i, Terminating env i ∧ code.getLast? = some i := by
    intro K code h
    induction h with
    | last hi => exact ⟨_, hi, rfl⟩
    | @cons K i rest hi hrest ih =>
      obtain ⟨j, hj, hrest⟩ := ih
      refine ⟨j, hj, ?_⟩
      rw [List.getLast?_cons, hrest]
      rfl
  obtain ⟨i, hi, hcode⟩ := hlast h
  have hterminated : b.isTerminated = i.op.isTerminator := by
    rw [Block.isTerminated, hcode]
  rw [hterminated]
  cases hi <;> rfl

end TreeAsm.Emit
