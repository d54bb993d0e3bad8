import TreeAsm.Proofs.Emit.Computes

/-!
# What comparisons do

Both operands are brought to the wider of their widths, and the flags of their difference tell whether
the comparison holds (`compareTo_runs`). A known value is always the right operand: if it is on the left,
`compare_runs` turns the comparison round.
-/

namespace TreeAsm.Emit

open Asm (Carries Flags IsWidth IsWork Mem Reg Register asInt asInt_inj asInt_ofInt condition
  runLines width)
open Ir
open BitVec (ofInt)

variable {env : Env} {base : BitVec 64} {N : Nat → Prop} {σ : Store} {s : State} {m m' : Asm.Machine}
  {F : Prop} {t : Temp} {K : Nat → Bool}

/-! ## Conditions -/

/-- Every comparison is made up of two. -/
theorem compares_eq (op : Opcode) (a b : Int) : compares op a b = (match op with
      | .eq => compares .eq a b
      | .ne => !compares .eq a b
      | .lt => compares .lt a b
      | .le => compares .lt a b || compares .eq a b
      | .gt => !compares .lt a b && !compares .eq a b
      | .ge => !compares .lt a b
      | _ => false) := by
  cases op with
  | ne => exact decide_not
  | le | gt | ge =>
    rw [Bool.eq_iff_iff]
    simp only [compares, Bool.or_eq_true, Bool.and_eq_true, Bool.not_eq_true', decide_eq_true_iff,
      decide_eq_false_iff_not]
    omega
  | _ => rfl

variable {w : Nat} {op : Opcode} {x y : Asm.Operand}

/-- The condition that is written after a comparison is whether it holds. -/
theorem condition_setMnemonic (hw : 0 < w) (hop : op.isCompare) (signed : Bool) (x y : BitVec w) :
    condition (setMnemonic op signed) (Flags.ofSub x y)
      = some (compares op (asInt signed x) (asInt signed y)) := by
  have hzero : (Flags.ofSub x y).zero = compares .eq (asInt signed x) (asInt signed y) := by
    show (x == y) = decide _
    rw [Bool.eq_iff_iff, beq_iff_eq, decide_eq_true_iff, asInt_inj]
  rw [compares_eq]
  cases signed with
  | true =>
    have hless : ((Flags.ofSub x y).sign != (Flags.ofSub x y).overflow)
        = compares .lt (asInt true x) (asInt true y) := Asm.sign_ne_overflow hw x y
    have hnotLess : ((Flags.ofSub x y).sign == (Flags.ofSub x y).overflow)
        = !compares .lt (asInt true x) (asInt true y) := by
      rw [← hless, bne, Bool.not_not]
    cases op with
    | eq => exact congrArg some hzero
    | ne => exact congrArg (fun e => some !e) hzero
    | lt => exact congrArg some hless
    | le => exact congrArg some ((Bool.or_comm _ _).trans (congrArg₂ or hless hzero))
    | gt => exact congrArg some ((Bool.and_comm _ _).trans (congrArg₂ and hnotLess (congrArg not hzero)))
    | ge => exact congrArg some hnotLess
    | _ => cases hop
  | false =>
    have hless : (Flags.ofSub x y).carry = compares .lt (asInt false x) (asInt false y) := by
      show decide (x.toNat < y.toNat) = decide ((x.toNat : Int) < y.toNat)
      rw [decide_eq_decide]
      omega
    cases op with
    | eq => exact congrArg some hzero
    | ne => exact congrArg (fun e => some !e) hzero
    | lt => exact congrArg some hless
    | le => exact congrArg some (congrArg₂ or hless hzero)
    | gt => exact congrArg some (congrArg₂ and (congrArg not hless) (congrArg not hzero))
    | ge => exact congrArg (fun e => some !e) hless
    | _ => cases hop

/-- A comparison holds if it does with the operands exchanged. -/
theorem compares_swapped (op : Opcode) (a b : Int) : compares (swapped op) b a = compares op a b := by
  cases op with
  | eq => exact decide_eq_decide.mpr eq_comm
  | ne => exact decide_eq_decide.mpr ne_comm
  | _ => rfl

/-! ## Writing whether a comparison holds -/

/-- What a comparison writes. -/
def truth (c : Bool) : Int := if c then 1 else 0

/-- Two operands can be compared at a width. -/
structure Comparable (m : Asm.Machine) (w : Nat) (x y : Asm.Operand) (a b : Int) : Prop where
  imm : x.isImm = false
  mem : (x.isMem && y.isMem) = false
  left : x.read m w = some (ofInt w a)
  right : y.source m w = some (ofInt w b)

theorem Comparable.of_same {a b : Int} {X : Reg → Prop} (h : Comparable m w x y a b)
    (hsame : m.SameBut X m') (hx : ∀ r ∈ x.regs, ¬ X r) (hy : ∀ r ∈ y.regs, ¬ X r) :
    Comparable m' w x y a b := by
  refine ⟨h.imm, h.mem, (read_of_same hsame hx w).trans h.left, ?_⟩
  have hright := h.right
  unfold Asm.Operand.source at hright ⊢
  rw [read_of_same hsame hy w]
  exact hright

/-- The flags after a comparison, and what is written from them. -/
theorem Comparable.setIf (hw : 0 < w) {a b : Int} (h : Comparable m w x y a b)
    (hop : op.isCompare) (signed : Bool) (d : Asm.Operand) :
    ∃ f, runLines [.ins .cmp [x, y]] m = .next { m with flags := some f } ∧
      Asm.Machine.setIf { m with flags := some f } (setMnemonic op signed) d
        = d.write { m with flags := some f }
          (ofInt 8 (truth (compares op (wrapTo w signed a) (wrapTo w signed b)))) := by
  refine ⟨_, Asm.compare_runs h.imm h.mem (bits_of_read h.imm h.left) h.left h.right, ?_⟩
  have hcondition := condition_setMnemonic hw hop signed (ofInt w a) (ofInt w b)
  rw [asInt_ofInt, asInt_ofInt] at hcondition
  unfold Asm.Machine.setIf truth
  simp only [bind, Option.bind, hcondition]
  cases compares op (wrapTo w signed a) (wrapTo w signed b) <;> rfl

theorem wrap_truth (u : Universe) (c : Bool) : u.wrap .bool (truth c) = truth c := by
  cases c <;> rfl

/-- The lowest byte of a register that is clear is the whole of it. -/
theorem merge_truth (c : Bool) : (Asm.merge 0 (ofInt 8 (truth c))).setWidth 32 = ofInt 32 (truth c) := by
  cases c <;> decide

theorem exec_setMnemonic (signed : Bool) {d : Asm.Operand} {m1 : Asm.Machine}
    (h : m.setIf (setMnemonic op signed) d = some m1) :
    runLines [.ins (setMnemonic op signed) [d]] m = .next m1 := by
  have hexec : (Asm.Line.ins (setMnemonic op signed) [d]).exec m
      = Asm.Exit.ofOption (m.setIf (setMnemonic op signed) d) := by
    cases op <;> cases signed <;> rfl
  rw [runLines, hexec, h]
  rfl

section

variable {s1 : State} {d x y : Asm.Operand} {w : Nat} {a b : Int} {op : Opcode}

theorem compareTo_runs (hframed : env.Framed) (hfits : env.Fits base) (hw : 0 < w)
    (ht : env.HasTemp t) (hbool : t.type = .bool) (hplaced : Placed env s1 t d s)
    (hothers : Represents env base (fun i => N i ∧ i ≠ t.id) σ s m)
    (hcmp : Comparable m w x y a b) (hop : op.isCompare) (signed : Bool)
    (hregs : ∀ r, s.bound? t.id = some r → r ∉ x.regs ∧ r ∉ y.regs) :
    Runs F (compareTo (setMnemonic op signed) x y d) s m fun _ s' m' => s' = s ∧
      Represents env base N (σ.setTemp t.id
        (truth (compares op (wrapTo w signed a) (wrapTo w signed b)))) s m' := by
  rw [← wrap_truth env.types, ← hbool]
  generalize hc : compares op (wrapTo w signed a) (wrapTo w signed b) = c
  have hwork : workBits env.types t.type = 32 := by rw [hbool]; rfl
  rcases hplaced.place with ⟨r, rfl, hr⟩ | ⟨rfl, hr⟩
  · have hgeneral := hplaced.order.general (hplaced.order.used_of_bound hr)
    obtain ⟨m1, hclear, hsame, hzero⟩ := Asm.clear_runs m (d := ⟨r, 32⟩) (.inl rfl)
    obtain ⟨hxr, hyr⟩ := hregs r hr
    have hcmp1 := hcmp.of_same (X := (· = r)) hsame (fun q hq h => hxr (h ▸ hq)) fun q hq h => hyr (h ▸ hq)
    obtain ⟨f, hcompare, hset⟩ := hcmp1.setIf hw hop signed (.reg ⟨r, 8⟩)
    rw [hc] at hset
    refine runs_lift (Asm.Reg.at_eq hgeneral (.inr (.inr (.inl rfl)))) ?_
    refine runs_lift (Asm.Reg.at_eq hgeneral (.inl rfl)) ?_
    refine runs_ins hclear (runs_ins hcompare (Runs.ins ?_))
    have hwrite : (Asm.Operand.reg ⟨r, 8⟩).write { m1 with flags := some f }
        (ofInt 8 (truth c)) = some (Asm.Machine.setReg { m1 with flags := some f } r
          (ofInt 8 (truth c))) := rfl
    rw [exec_setMnemonic signed (hset.trans hwrite)]
    have hsame2 : m.SameBut (· = r) (Asm.Machine.setReg { m1 with flags := some f } r
        (ofInt 8 (truth c))) := by
      refine ⟨hsame.mem, fun q hq => ?_⟩
      rw [Asm.Machine.setReg_of_ne _ _ _ hq]
      exact hsame.regs q hq
    refine ⟨rfl, (hothers.writeOwn hplaced.order hr hsame2).setReg ht hplaced.const hr ?_⟩
    · rw [hwork, Asm.Machine.setReg_self, hbool, wrap_truth]
      rw [hzero]
      exact merge_truth c
  · have hslot : (tempSlot env t).resize 8 = slot (env.slotAt (tempIndex env.func t.id)) 8 := by
      rw [slot_eq hframed ht]
      rfl
    obtain ⟨f, hcompare, hset⟩ := hcmp.setIf hw hop signed
      (.mem (slot (env.slotAt (tempIndex env.func t.id)) 8))
    rw [hc] at hset
    refine runs_ins hcompare (Runs.ins ?_)
    have hwrite : (Asm.Operand.mem (slot (env.slotAt (tempIndex env.func t.id)) 8)).write
        { m with flags := some f } (ofInt 8 (truth c)) = some (Asm.Machine.setMem { m with flags := some f }
            (env.place base (tempIndex env.func t.id)) (ofInt 8 (truth c))) := by
      show ((slot (env.slotAt (tempIndex env.func t.id)) 8).address { m with flags := some f }).map
        (fun a => Asm.Machine.setMem { m with flags := some f } a (ofInt 8 (truth c))) = _
      rw [slot_address]
      show some (Asm.Machine.setMem _ (env.place (m.regs .rbp) _) _) = _
      rw [hothers.rbp]
    rw [hslot, exec_setMnemonic signed (hset.trans hwrite)]
    refine ⟨rfl, hothers.setSlot hfits ht hplaced.const hr rfl (fun _ _ _ _ => rfl) ?_⟩
    rw [hbool]
    rfl

end

/-! ## Operands at one width -/

theorem wider_isWork {v w : Int64} (hv : IsWork v) (hw : IsWork w) :
    IsWork (wider v w) ∧ width (wider v w) = max (width v) (width w) := by
  rcases hv with rfl | rfl <;> rcases hw with rfl | rfl
  · exact ⟨.inl rfl, rfl⟩
  · exact ⟨.inr rfl, rfl⟩
  · exact ⟨.inr rfl, rfl⟩
  · exact ⟨.inr rfl, rfl⟩

theorem wider_self (w : Int64) : wider w w = w := by
  unfold wider
  split <;> rfl

section

variable {x y : Ir.Operand} {op op' : Asm.Operand} {a b : Int} {bits : Int64}

/-- A register that is filled up for one operand is none of the other: if both are the same temporary,
there is nothing to fill up. -/
theorem Fetched.apart (hs : InOrder env s) (hx : env.Reads x) (hy : env.Reads y)
    (hheld : HeldBy s x op) (hother : Fetched env y b op' s m)
    (hsame : ∀ t, x = .temp t → y = .temp t → workBits env.types t.type = bits) {r : Reg}
    (hr : r ∈ op.regs) : ¬ (r ∈ s.pool.free ∨ ∃ c, c ≠ bits ∧ op' = .reg ⟨r, c⟩) := by
  rintro (hfree | ⟨c, hne, hreg⟩)
  · exact hheld.not_free hs r hr hfree
  · obtain ⟨t, rfl, hbound, hc⟩ := hother.temp _ hreg
    rcases hheld r hr with rfl | hscratch | ⟨t', rfl, hbound'⟩
    · exact hs.bound_ne_rbp hbound rfl
    · exact hs.scratch_not_bound hscratch hbound
    · obtain rfl := hx.eq hy (hs.bound_inj hbound' hbound)
      exact hne (hc.trans (hsame t' rfl rfl))

/-- If both operands are in memory, the right one is put into a register. -/
theorem besideMemory_runs {l : Asm.Operand} {s' : State} (hbits : IsWork bits)
    (hfit : Fitted env base N σ s m y b bits op op' s' m') :
    Runs F (besideMemory l op' bits (isSigned y.type)) s' m' fun f s'' m'' =>
      (l.isMem && f.isMem) = false ∧ Fitted env base N σ s m y b bits op f s'' m'' := by
  by_cases hboth : (l.isMem && op'.isMem)
  · cases l with
    | mem v =>
      cases op' with
      | mem v' =>
        refine (hfit.toScratch_runs hbits).mono ?_
        rintro _ s'' m'' ⟨⟨r, rfl⟩, hfit'⟩
        exact ⟨rfl, hfit'⟩
      | _ => cases hboth
    | _ => cases hboth
  · have hsame : besideMemory l op' bits (isSigned y.type) = pure op' := by
      cases l with
      | mem v =>
        cases op' with
        | mem v' => exact absurd rfl hboth
        | _ => rfl
      | _ => rfl
    rw [hsame]
    exact Runs.pure ⟨Bool.eq_false_iff.mpr hboth, hfit⟩

end

/-! ## Comparisons -/

section

variable {x y : Ir.Operand} {a b : Int} {op : Opcode}

theorem compareOf_runs (hframed : env.Framed) (hfits : env.Fits base)
    (h : Faithful env base N σ K s m) (ht : env.HasTemp t) (hbool : t.type = .bool)
    (hx : Valued env N σ x a) (hxt : ∀ t', x = .temp t' → t'.id ≠ t.id)
    (hy : Valued env N σ y b) (hyt : ∀ t', y = .temp t' → t'.id ≠ t.id)
    (hknown : isKnown K x = false) (hop : op.isCompare) (i : Instr) (hi : i.result = some t) :
    Runs F (emitCompareOf env op x y i) s m fun _ =>
      Faithful env base N (σ.setTemp t.id (truth (compares op
        (wrapTo (width (wider (workBits env.types x.type) (workBits env.types y.type)))
          (isSigned x.type || isSigned y.type) a)
        (wrapTo (width (wider (workBits env.types x.type) (workBits env.types y.type)))
          (isSigned x.type || isSigned y.type) b)))) (learn K t.id false) := by
  obtain ⟨hwork, -⟩ := wider_isWork (workBits_isWork env.types x.type) (workBits_isWork env.types y.type)
  refine runs_lift (work_eq hx.reads.scalar) (runs_lift (work_eq hy.reads.scalar) ?_)
  generalize hbits : wider (workBits env.types x.type) (workBits env.types y.type) = bits at hwork ⊢
  refine runs_operands hframed h.rep h.order hx hy fun lop rop s1 m1 hread => ?_
  refine Runs.bind (Runs.within (atWidth_runs hread.rep hread.order hx.reads hwork hread.left) _) ?_
  intro lop' s2 m2 hleft
  -- neither operand is touched while the other is made usable
  have hself : ∀ t, x = .temp t → y = .temp t → workBits env.types t.type = bits := by
    rintro t rfl rfl
    rw [← hbits]
    exact (wider_self _).symm
  have hright2 : Fetched env y b rop s2 m2 := hread.right.grows hleft.grows hleft.same
    fun r hr => Fetched.apart hread.order hy.reads hx.reads hread.right.held hread.left
      (fun t h h' => hself t h' h) hr
  refine Runs.bind (Runs.within (atWidth_runs hleft.rep hleft.order hy.reads hwork hright2) _) ?_
  intro rop' s3 m3 hfit
  refine Runs.bind (besideMemory_runs hwork hfit) ?_
  rintro rop2 s4 m4 ⟨hmem, hright⟩
  have himm : lop'.isImm = false := by
    rw [← Bool.not_eq_true]
    intro himm
    have hconst := hread.left.known (hleft.imm himm)
    rw [h.isKnown_eq hread.consts, hknown] at hconst
    exact Bool.false_ne_true hconst
  have hcmp : Comparable m4 (width bits) lop' rop2 a b :=
    ⟨himm, hmem, (read_of_same hright.same (fun r hr => Fetched.apart hleft.order hx.reads hy.reads
      hleft.held hright2 hself hr) _).trans (read_of_source hleft.supplies), hright.supplies⟩
  refine runs_after (by rw [resultOf, hi]; rfl) ?_
  refine Runs.bind (dest_runs hright.order ht) ?_
  rintro d s5 _ ⟨rfl, hplaced⟩
  have hpos : 0 < width bits := by have := hwork.bounds; omega
  refine (compareTo_runs hframed hfits hpos ht hbool hplaced (hplaced.represents hright.rep) hcmp hop _
    fun r hr => ⟨hplaced.not_mem_regs (hleft.held.grows hright.grows) hxt hr,
      hplaced.not_mem_regs hright.held hyt hr⟩).mono ?_
  rintro _ _ m5 ⟨rfl, hdone⟩
  exact ⟨hdone, hplaced.order, hplaced.known h
    (hright.grows.consts.trans (hleft.grows.consts.trans hread.consts))⟩

/-- What is known of an operand is its value. -/
theorem constOf_eq (h : Faithful env base N σ K s m) (hx : Valued env N σ x a) :
    constOf x s = ⟨[], .ok (if isKnown K x then some (Int64.ofInt a) else none, s)⟩ := by
  cases x with
  | temp t =>
    have hknown := h.known t.id
    have hconst : constOf (.temp t) s = ⟨[], .ok ((s.const? t.id).map (·.value), s)⟩ := rfl
    rw [hconst, isKnown, ← hknown]
    cases hc : s.const? t.id with
    | some c =>
      obtain ⟨rfl, -⟩ := h.const hx hc
      rfl
    | none => rfl
  | var v => rfl
  | int value type =>
    obtain rfl : env.types.wrap type value.toInt = a := Option.some.inj hx.value
    have hconst : constOf (.int value type) s = ⟨[], .ok (some value, s)⟩ := rfl
    rw [hconst, isKnown, if_pos rfl, hx.reads.2]
  | _ => exact hx.reads.elim

theorem isCompare_swapped (op : Opcode) : (swapped op).isCompare = op.isCompare := by
  cases op <;> rfl

theorem compare_runs (hframed : env.Framed) (hfits : env.Fits base)
    (h : Faithful env base N σ K s m) (ht : env.HasTemp t) (hbool : t.type = .bool)
    (hx : Valued env N σ x a) (hxt : ∀ t', x = .temp t' → t'.id ≠ t.id)
    (hy : Valued env N σ y b) (hyt : ∀ t', y = .temp t' → t'.id ≠ t.id)
    (hknown : (isKnown K x && isKnown K y) = false) (hop : op.isCompare) :
    Runs F (emitCompare env ⟨op, some t, [x, y]⟩) s m fun _ =>
      Faithful env base N (σ.setTemp t.id (truth (compares op
        (wrapTo (max (env.types.workWidth x.type) (env.types.workWidth y.type))
          (x.type.isInteger || y.type.isInteger) a)
        (wrapTo (max (env.types.workWidth x.type) (env.types.workWidth y.type))
          (x.type.isInteger || y.type.isInteger) b)))) (learn K t.id false) := by
  obtain ⟨-, hwidth⟩ := wider_isWork (workBits_isWork env.types x.type) (workBits_isWork env.types y.type)
  obtain ⟨-, hwidth'⟩ := wider_isWork (workBits_isWork env.types y.type) (workBits_isWork env.types x.type)
  rw [width_work hx.reads.scalar, width_work hy.reads.scalar] at hwidth hwidth'
  refine runs_lift rfl (runs_lift rfl (runs_after (constOf_eq h hx) (runs_after (constOf_eq h hy) ?_)))
  cases hkx : isKnown K x with
  | false =>
    have hrun := compareOf_runs (F := F) hframed hfits h ht hbool hx hxt hy hyt hkx hop
      ⟨op, some t, [x, y]⟩ rfl
    rw [hwidth] at hrun
    exact hrun
  | true =>
    -- the known operand is the right one
    have hky : isKnown K y = false := by
      rw [hkx, Bool.true_and] at hknown
      exact hknown
    have hrun := compareOf_runs (F := F) hframed hfits h ht hbool hy hyt hx hxt hky
      ((isCompare_swapped op).trans hop) ⟨op, some t, [x, y]⟩ rfl
    rw [hwidth', compares_swapped, Nat.max_comm, Bool.or_comm] at hrun
    rw [hky]
    exact hrun

end

end TreeAsm.Emit
