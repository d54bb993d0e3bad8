import TreeAsm.Proofs.Emit.Tracks

/-!
# Operands and results

How operands are read and where results go, in two runs side by side. Reading takes no register that
has to be given back; an operand that is brought to a width takes one if it ends up in a register
(`taken`). What has to be known of temporaries, operands and types for this to go through in code
that is in order is said by `Setting.Has`, `Setting.Reads` and `Setting.Fit`.
-/

namespace TreeAsm.Emit

open Asm (Mem Mnemonic Reg Register Text frameRegs widths)
open Ir

/-! ## Checks and lookups -/

theorem checkScalar_gives (u : Universe) (t : Ty) : (checkScalar u t).Gives Spares fun _ => True := by
  unfold checkScalar
  split
  · exact rfl
  · exact trivial

theorem workBits_mem (u : Universe) (t : Ty) : workBits u t ∈ widths := by
  unfold workBits
  split <;> decide

/-- A register has names at the widths of registers only. -/
theorem sized_mem (r : Register) (bits : Int64) :
    (r.sized bits).Gives Spares fun d => d = ⟨r.reg, bits⟩ ∧ bits ∈ widths := by
  show Outcome.Gives Spares (r.reg.at bits) _
  unfold Reg.at Reg.name
  cases hname : r.reg.name? bits with
  | none => exact rfl
  | some name =>
    refine ⟨rfl, Classical.byContradiction fun hwidth => ?_⟩
    rw [Asm.mem_widths] at hwidth
    simp_all [Reg.name?]

namespace Setting

variable (σ : Setting)

/-- A type that is checked to fit a register. -/
def Fit (t : Ty) : Prop :=
  (checkScalar σ.env.types t).Gives σ.causes fun _ => σ.env.types.bits t ∈ widths

/-- A temporary that may have a register; in code that is in order, one of the function that fits
it. -/
structure Has (t : Temp) : Prop where
  owns : σ.owns t
  lt : σ.strict → t.id < σ.env.func.temps.length
  typed : σ.strict → t.type ≠ .untyped
  fit : σ.strict → σ.Fit t.type

/-- An operand that refers to known symbols; in code that is in order, to what is there. -/
def Reads : Ir.Operand → Prop
  | .temp t => σ.Has t
  | .var v => σ.strict → (σ.env.frame.localSlot? v).isSome = true
  | .outer _ _ => ¬ σ.strict
  | .int _ _ => True
  | .str c => σ.shift.fixed.symbols c.label
  | .symbol name =>
    σ.shift.fixed.symbols name ∧ (σ.strict → ∃ x, symbol σ.env name = .ok x)
  | .label name => σ.shift.fixed.symbols name

end Setting

/-! ## Operands of the machine -/

section

variable {σ : Setting}

/-- Numbers, labels and addresses are the same in both runs. -/
theorem twins_value {x : Asm.Operand} (hr : ∀ r, x ≠ .reg r) (hm : ∀ m, x ≠ .mem m)
    (hsymbols : ∀ name ∈ x.symbols, σ.shift.fixed.symbols name) (hname : x.Nameable) : σ.Twins x x :=
  ⟨⟨.same x ⟨fun m h => absurd h (hm m), hsymbols⟩, fun r h => absurd h (hr r), hname⟩,
    fun m h => absurd h (hm m)⟩

theorem twins_imm (i : Asm.Imm) : σ.Twins (.imm i) (.imm i) :=
  twins_value (by simp) (by simp) (fun _ h => nomatch h) trivial

theorem twins_ptr {l : String} (h : σ.shift.fixed.symbols l) (pic : Bool) :
    σ.Twins (.ptr l pic) (.ptr l pic) :=
  twins_value (by simp) (by simp) (fun _ hl => List.mem_singleton.mp hl ▸ h) trivial

theorem twins_label {l : String} (h : σ.shift.fixed.symbols l) : σ.Twins (.label l) (.label l) :=
  twins_value (by simp) (by simp) (fun _ hl => List.mem_singleton.mp hl ▸ h) trivial

/-- A place that is not in the frame. -/
theorem twins_outside {m : Mem} (h : m.base ≠ some .rbp)
    (hsymbol : m.symbol ≠ "" → σ.shift.fixed.symbols m.symbol) : σ.Twins (.mem m) (.mem m) := by
  refine ⟨⟨.outside h hsymbol, fun r hr => absurd hr (by simp), trivial⟩, ?_⟩
  intro m' hm hframed
  obtain rfl := Asm.Operand.mem.inj hm
  exact absurd hframed.base h

theorem Setting.Twins.resize {m m' : Mem} (h : σ.Twins (.mem m) (.mem m')) (bits : Int64) :
    σ.Twins (.mem (m.resize bits)) (.mem (m'.resize bits)) := by
  have htwins := h.twins.resize bits
  exact ⟨⟨htwins.alike, htwins.isOpen.spare, trivial⟩, htwins.isOpen.slot⟩

/-- The registers that an operand may have taken for an instruction. -/
def taken : Asm.Operand → Nat
  | .reg _ => 1
  | _ => 0

end

section

variable {σ : Setting} {I : State → Prop} {n : Nat} {x y : Asm.Operand} {t : Temp} {bits : Int64}

/-- An operand is the result of a step. -/
theorem Tracks.twins (h : σ.Twins x y) :
    Tracks σ I (Pure.pure x : Emitter Asm.Operand) (Pure.pure y) (fun _ => I) σ.Twins :=
  .pure h h.toKin.eq fun _ hs => hs

variable (hσ : σ.Ready)

include hσ

theorem checkScalar_tracks {t : Ty} (ht : σ.strict → σ.Fit t) (step : String) :
    Tracks σ I (Emitter.within step (Emitter.lift (checkScalar σ.env.types t)))
      (Emitter.within step (Emitter.lift (checkScalar σ.final.types t))) (fun _ => I) fun a b =>
        a = b ∧ (σ.strict → σ.env.types.bits t ∈ widths ∧ scalarBits σ.env.types t ∈ widths) := by
  have hgives := hσ.gives (checkScalar_gives σ.env.types t) ht
  have hall : (checkScalar σ.env.types t).Gives σ.causes fun _ => True :=
    hgives.mono (fun _ hc => hc) fun _ _ => trivial
  refine (Tracks.same (hall.known fun a ha hstrict => ?_)).within step
  have hbits := hgives.of_ok ha hstrict
  refine ⟨hbits, ?_⟩
  rw [scalarBits, ha]
  exact hbits

theorem work_tracks {t : Ty} (ht : σ.strict → t ≠ .untyped) :
    Tracks σ I (Emitter.lift (work σ.env.types t)) (Emitter.lift (work σ.final.types t)) (fun _ => I)
      fun a b => a = b ∧ b ∈ widths := by
  refine .same ?_
  unfold work
  split
  next h => exact hσ.excuse (fun hstrict => ht hstrict h) trivial
  next => exact workBits_mem _ _

/-- A register at another width. -/
theorem sized_tracks {r : Register} (hr : σ.Kin (.reg r) (.reg r)) (hbits : σ.strict → bits ∈ widths) :
    Tracks σ I (Emitter.lift (r.sized bits)) (Emitter.lift (r.sized bits)) (fun _ => I) fun a b =>
      a = b ∧ b = ⟨r.reg, bits⟩ ∧ bits ∈ widths := by
  have hname : r.Nameable := hr.nameable
  exact .same (hσ.known (sized_mem r bits) fun hstrict => ⟨_, hname.1.at_eq (hbits hstrict)⟩)

theorem symbol_tracks (name : String) (hok : σ.strict → ∃ x, symbol σ.env name = .ok x) :
    Tracks σ I (Emitter.lift (symbol σ.env name)) (Emitter.lift (symbol σ.final name)) (fun _ => I)
      σ.Twins := by
  have hgives : (symbol σ.env name).Gives Spares fun x => σ.Twins x x := by
    unfold symbol
    cases hstring : σ.env.module.stringByLabel? name with
    | some c => exact twins_ptr (hσ.strings c (List.mem_of_find?_eq_some hstring)) _
    | none =>
      show Outcome.Gives _ (if _ then _ else _) _
      split
      next hfunc =>
        obtain ⟨f, hf⟩ := Option.isSome_iff_exists.mp hfunc
        obtain ⟨hmem, hname⟩ := Ir.Table.find?_some hf
        exact twins_label (hname ▸ hσ.funcs f hmem)
      next =>
        cases hglobal : σ.env.module.global? name with
        | some g =>
          exact twins_outside (by simp) fun _ => hσ.globals g (Ir.Table.find?_some hglobal).1
        | none => exact rfl
  refine (Tracks.same (hσ.known hgives hok)).mono (fun _ _ hs => hs) ?_
  rintro a _ ⟨rfl, htwins⟩
  exact htwins

/-- A variable is read from its slot. -/
theorem var_tracks {v : Local} (hv : σ.Reads (.var v)) :
    Tracks σ I (operand σ.env (.var v)) (operand σ.final (.var v)) (fun _ => I) fun d d' =>
      σ.Twins d d' ∧ ∃ disp, d' = .mem (slot disp (scalarBits σ.env.types v.type)) := by
  simp only [operand]
  rcases hσ.locals v with ⟨hnone, hnone'⟩ | ⟨disp, disp', hdisp, hdisp', htwins⟩
  · rw [hnone, hnone']
    refine .fail (hσ.excuse (fun hstrict => ?_) rfl)
    have hsome := hv hstrict
    rw [hnone] at hsome
    cases hsome
  · rw [hdisp, hdisp']
    exact .pure ⟨htwins _, disp', rfl⟩ (htwins _).toKin.eq fun _ hs => hs

/-- A result goes to a place for it: a register, or the slot of its temporary. -/
theorem dest_uses (ht : σ.Has t) : Uses σ n (dest σ.env t) (dest σ.final t) (fun _ => n) fun d d' =>
      σ.Landing d d' ∧ t.id < σ.env.func.temps.length ∧ (σ.strict → σ.env.types.bits t.type ∈ widths) := by
  refine (checkScalar_tracks hσ ht.fit _).bindSame fun _ hbits => (forget_uses t.id).next ?_
  refine (boundAt_tracks hσ ht.lt fun s hs => ⟨_, hs.1⟩).bindSame fun o ho => ?_
  have hbits : σ.strict → σ.env.types.bits t.type ∈ widths := fun hstrict => (hbits hstrict).1
  have hreg : ∀ {r : Reg}, r ∈ Asm.SysV.scratch →
      σ.Landing (.reg ⟨r, workBits σ.env.types t.type⟩) (.reg ⟨r, workBits σ.env.types t.type⟩) :=
    fun hr => ⟨σ.twins_scratch hr (workBits_mem _ _), fun _ =>
      ⟨Asm.SysV.scratch_whole _ hr, workBits_mem _ _⟩⟩
  cases o with
  | some r => exact .pure ⟨hreg (ho.2 r rfl), ho.1, hbits⟩ (fun _ => rfl) fun _ hs => hs.1
  | none =>
    refine (takeSpare_tracks ht.owns).bindSame fun o hspare => ?_
    cases o with
    | none =>
      have hslot := hσ.temps t ho.1
      exact .pure ⟨⟨hslot, hbits⟩, ho.1, hbits⟩ hslot.toKin.eq fun _ hs => hs
    | some r =>
      exact (Tracks.modify (J := σ.Working n) fun _ hs => hs).next
        (.pure ⟨hreg (hspare r rfl), ho.1, hbits⟩ (fun _ => rfl) fun _ hs => hs)

/-- A result is computed in the register of its temporary, or in one that is taken. -/
theorem resultRegister_uses (ht : σ.Has t) (hbits : bits ∈ widths) (hn : n < Pool.headroom) :
    Uses σ n (resultRegister σ.env t bits) (resultRegister σ.final t bits) (fun _ => n + 1)
      fun a b => a = b ∧ σ.Twins (.reg b.1) (.reg b.1) ∧ t.id < σ.env.func.temps.length ∧
        (σ.strict → σ.env.types.bits t.type ∈ widths) := by
  refine (dest_uses hσ ht).bind ?_
  rintro d d' ⟨hd, hid, hwidth⟩
  have hscratch : Uses σ n (do return (← scratch bits, true)) (do return (← scratch bits, true))
      (fun _ => n + 1) fun a b : Register × Bool => a = b ∧ σ.Twins (.reg b.1) (.reg b.1) ∧
        t.id < σ.env.func.temps.length ∧ (σ.strict → σ.env.types.bits t.type ∈ widths) :=
    (scratch_uses hbits hn).bindSame fun r hr =>
      .pure ⟨rfl, hr.1, hid, hwidth⟩ (fun _ => rfl) fun _ hs => hs
  cases hd.alike with
  | moved m hframed hslot => exact hscratch
  | same =>
    cases d with
    | reg r =>
      refine (sized_tracks hσ hd.toKin fun _ => hbits).bindSame ?_
      rintro _ ⟨rfl, -⟩
      exact .pure ⟨rfl, hd.toKin.sized hbits, hid, hwidth⟩ (fun _ => rfl) fun _ hs =>
        ⟨hs.1, Nat.le_succ_of_le hs.2⟩
    | mem _ | imm _ | label _ | ptr _ _ | absent => exact hscratch

/-! ## What is read -/

section

variable (hP : ∀ op args, op.isMove = true → σ.lines (.ins op args))

include hP

theorem readTemp_uses (ht : σ.Has t) :
    Uses σ n (readTemp σ.env t) (readTemp σ.final t) (fun _ => n) σ.Twins := by
  refine (constAt_tracks t.id).bindSame fun c _ => ?_
  cases c with
  | some c => exact (work_tracks hσ ht.typed).bindSame fun w _ => .twins (twins_imm _)
  | none =>
    refine (checkScalar_tracks hσ ht.fit _).bindSame fun _ _ => ?_
    refine (boundAt_tracks hσ ht.lt fun s hs => ⟨_, hs.1⟩).bindSame fun o ho => ?_
    cases o with
    | some r =>
      exact (Tracks.twins (σ.twins_scratch (ho.2 r rfl) (workBits_mem _ _))).mono
        (fun _ _ hs => hs.1) fun _ _ h => h
    | none =>
      have hslot := hσ.temps t ho.1
      refine (takeSpare_tracks ht.owns).bindSame fun o hspare => ?_
      cases o with
      | none => exact .twins hslot
      | some r =>
        have hr : σ.Twins (.reg ⟨r, workBits σ.env.types t.type⟩) _ :=
          σ.twins_scratch (hspare r rfl) (workBits_mem _ _)
        -- the register belongs to the temporary only after the value has been loaded
        refine ((Tracks.moveToReg hP _ hr hslot.toKin none).within _).next ?_
        exact (Tracks.modify (J := σ.Working n) fun _ hs => hs).next (.twins hr)

/-- Nothing but moves is needed to read an operand. -/
theorem operand_uses {x : Ir.Operand} (hx : σ.Reads x) :
    Uses σ n (operand σ.env x) (operand σ.final x) (fun _ => n) σ.Twins := by
  cases x with
  | temp t => exact readTemp_uses hσ hP hx
  | var v => exact (var_tracks hσ hx).mono (fun _ _ hs => hs) fun _ _ h => h.1
  | outer name type => exact .fail (hσ.excuse hx rfl)
  | int value type => exact .twins (twins_imm _)
  | str c => exact .twins (twins_ptr hx _)
  | symbol name => exact symbol_tracks hσ name hx.2
  | label name => exact .twins (twins_label hx)

omit hσ in
theorem toScratch_uses (signed : Bool) (h : σ.Kin x y) (hbits : bits ∈ widths) (hn : n < Pool.headroom) :
    Uses σ n (toScratch x bits signed) (toScratch y bits signed) (fun z => n + taken z) σ.Twins :=
  (scratch_uses hbits hn).bindSame fun _ hr => (Tracks.moveToReg hP signed hr.1 h none).next
    (.pure hr.1 (fun _ => rfl) fun _ hs => hs)

/-- A register is brought to another width in place; what goes through a register takes one. -/
theorem atWidth_uses (signed : Bool) (h : σ.Twins x y) (hbits : bits ∈ widths) (hn : n < Pool.headroom) :
    Uses σ n (atWidth x bits signed) (atWidth y bits signed) (fun z => n + taken z) σ.Twins := by
  have hthrough := toScratch_uses hP signed h.toKin hbits hn
  have hkept : ∀ {x y : Asm.Operand}, σ.Twins x y →
      Uses σ n (Pure.pure x : Emitter Asm.Operand) (Pure.pure y) (fun z => n + taken z) σ.Twins :=
    fun h => (Tracks.twins h).widen fun _ => Nat.le_add_right n _
  have hmem : ∀ {m m' : Mem}, σ.Twins (.mem m) (.mem m') →
      Uses σ n (toScratch (.mem m) bits signed) (toScratch (.mem m') bits signed)
        (fun z => n + taken z) σ.Twins →
      Uses σ n (atWidth (.mem m) bits signed) (atWidth (.mem m') bits signed)
        (fun z => n + taken z) σ.Twins := by
    intro m m' hm hthrough
    have hsize : m.bits = m'.bits := hm.alike.size
    simp only [atWidth, hsize]
    exact .ite (hkept (hm.resize bits)) hthrough
  cases h.alike with
  | moved m hframed hslot => exact hmem h hthrough
  | same x hx =>
    cases x with
    | mem m => exact hmem h hthrough
    | imm i => exact .ite (hkept (twins_imm _)) hthrough
    | reg r =>
      refine .ite (hkept h) ((sized_tracks hσ h.toKin fun _ => hbits).bindSame ?_)
      rintro _ ⟨rfl, -⟩
      have hd := h.toKin.sized hbits
      exact (Tracks.onlyIf fun _ => .moveToReg hP signed hd h.toKin none).next (hkept hd)
    | label _ | ptr _ _ | absent => exact hthrough

theorem spill_tracks (ht : t.id < σ.env.func.temps.length)
    (hbits : σ.strict → σ.env.types.bits t.type ∈ widths) {r : Register}
    (hr : σ.Kin (.reg r) (.reg r)) : Steady σ I (spill σ.env t r) (spill σ.final t r) :=
  .moveReg hσ hP _ ⟨hσ.temps t ht, hbits⟩ hr

theorem narrow_tracks (hbits : σ.strict → σ.env.types.bits t.type ∈ widths) (h : σ.Twins x y) :
    Steady σ I (narrow σ.env t x) (narrow σ.final t y) := by
  cases h.alike with
  | moved m hframed hslot => exact .done
  | same x hx =>
    cases x with
    | reg r =>
      refine .ite .done ((sized_tracks hσ h.toKin hbits).bindSame ?_)
      rintro _ ⟨rfl, hwidth⟩
      refine .writer ?_ h (h.toKin.sized hwidth).toKin (hP _ _ ?_)
      · cases isSigned t.type <;> decide
      · cases isSigned t.type <;> rfl
    | mem _ | imm _ | label _ | ptr _ _ | absent => exact .done

end

/-! ## Ends of blocks -/

section

variable (hP : ∀ op args, op.isCopy = true → σ.lines (.ins op args))

include hP

theorem flushTemp_keeps (bi : Nat) {id : Nat} (htemp : σ.env.func.temps[id]? = some t) :
    Keeps σ (flushTemp σ.env bi id t) (flushTemp σ.final bi id t) := by
  intro taken scratches
  have hlt : id < σ.env.func.temps.length := (List.getElem?_eq_some_iff.mp htemp).1
  refine (boundAt_tracks hσ (fun _ => hlt) fun s hs => ⟨_, hs.1⟩).bindSame fun o ho => ?_
  cases o with
  | none => exact Tracks.done.weaken fun _ hs => hs.1
  | some r =>
    intro s hs
    obtain ⟨t', howns, rfl⟩ := hs.1.1.owner id r (Option.join_eq_some_iff.mpr hs.2)
    have hr : σ.Twins (.reg ⟨r, workBits σ.env.types t.type⟩) _ :=
      σ.twins_scratch (ho.2 r rfl) (workBits_mem _ _)
    -- the store does not touch the state, so the temporary still has its register
    refine ((Tracks.onlyIf fun hlive => (Tracks.store hσ hP _ ?_ hr.toKin).within _).next
      (unbind_tracks _ r)) s hs
    exact ⟨hσ.temps ⟨t'.id, t.type⟩ hlt, fun hstrict => hσ.stores (t := t) hstrict htemp howns hlive⟩

/-- At the end of a block registers are stored with copies only. -/
theorem flush_keeps (bi : Nat) : Keeps σ (flush σ.env bi) (flush σ.final bi) := by
  have htemps : ∀ (ts : List Temp) (id : Nat), σ.env.func.temps.drop id = ts →
      Keeps σ (flushTemps σ.env bi id ts) (flushTemps σ.final bi id ts) := by
    intro ts
    induction ts with
    | nil => exact fun _ _ _ _ => .done
    | cons t ts ih =>
      intro id hdrop
      have htemp : σ.env.func.temps[id]? = some t := by
        rw [← List.head?_drop, hdrop]
        rfl
      have hrest : σ.env.func.temps.drop (id + 1) = ts := by
        rw [← List.tail_drop, hdrop]
        rfl
      exact (flushTemp_keeps hσ hP bi htemp).next (ih (id + 1) hrest)
  exact htemps σ.env.func.temps 0 List.drop_zero

end

end

end TreeAsm.Emit
