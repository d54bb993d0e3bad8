import TreeAsm.Proofs.Emit.Total

/-!
# Comparisons of known values

A comparison of two known values is decided while code is emitted (`fold`), on the numbers as they are
written and with a sign if the left type has one. Code for the same comparison, with the operands in
registers, compares what is left of the numbers in their types, at the wider of the two widths, and with
a sign if either type has one (`compared`).

So the two come to the same result if the numbers are in the range of their types and the types agree
on the sign, and not always otherwise: for numbers in range `fold_eq_iff_of_inRange` says exactly when.
-/

namespace TreeAsm.Emit

open Asm (runLines)
open Ir

/-! ## Comparing numbers of 64 bits -/

section

variable {op : Opcode} {v w : Int64}

theorem wrapTo_toInt_true (v : Int64) : wrapTo 64 true v.toInt = v.toInt := by
  rw [wrapTo_true, ← Int64.toInt_toBitVec, BitVec.ofInt_toInt]

theorem wrapTo_toInt_false (v : Int64) : wrapTo 64 false v.toInt = v.toUInt64.toNat := by
  rw [wrapTo_false, ← Int64.toInt_toBitVec, BitVec.ofInt_toInt]
  rfl

/-- The number without a sign, from the number with one. -/
theorem wrapTo_toInt_false_eq (v : Int64) :
    wrapTo 64 false v.toInt = if v.toInt < 0 then v.toInt + 2 ^ 64 else v.toInt := by
  have hlow := Int64.le_toInt v
  have hhigh := Int64.toInt_lt v
  rw [wrapTo, if_neg Bool.false_ne_true]
  by_cases hneg : v.toInt < 0
  · rw [if_pos hneg]
    omega
  · rw [if_neg hneg]
    omega

/-- Known values are compared as numbers of 64 bits. -/
theorem fold_eq_compares (hop : op.isCompare) (v w : Int64) (signed : Bool) :
    fold op v w signed = compares op (wrapTo 64 signed v.toInt) (wrapTo 64 signed w.toInt) := by
  have hinj : v = w ↔ wrapTo 64 signed v.toInt = wrapTo 64 signed w.toInt := by
    cases signed with
    | true => rw [wrapTo_toInt_true, wrapTo_toInt_true, Int64.toInt_inj]
    | false =>
      rw [wrapTo_toInt_false, wrapTo_toInt_false, Int.natCast_inj, UInt64.toNat_inj]
      exact ⟨congrArg _, fun h => by rw [← Int64.toInt64_toUInt64 v, h]; rfl⟩
  rw [Bool.eq_iff_iff]
  cases op with
  | eq => cases signed <;> simp [fold, compares, hinj]
  | ne => cases signed <;> simp [fold, compares, hinj]
  | lt | le | gt | ge =>
    cases signed with
    | true =>
      simp [fold, compares, wrapTo_toInt_true, Int64.lt_iff_toInt_lt, Int64.le_iff_toInt_le]
    | false =>
      simp [fold, compares, wrapTo_toInt_false, UInt64.lt_iff_toNat_lt, UInt64.le_iff_toNat_le]
  | _ => cases hop

/-- With and without a sign, two numbers compare alike if both are negative or none is, and they always
do for equality. -/
theorem fold_sign_iff (hop : op.isCompare) (v w : Int64) : fold op v w false = fold op v w true ↔
      op = .eq ∨ op = .ne ∨ (v.toInt < 0 ↔ w.toInt < 0) := by
  rw [fold_eq_compares hop, fold_eq_compares hop, wrapTo_toInt_true, wrapTo_toInt_true,
    wrapTo_toInt_false_eq, wrapTo_toInt_false_eq, Bool.eq_iff_iff]
  have hv := Int64.le_toInt v
  have hv' := Int64.toInt_lt v
  have hw := Int64.le_toInt w
  have hw' := Int64.toInt_lt w
  generalize v.toInt = a at *
  generalize w.toInt = b at *
  cases op with
  | eq | ne | lt | le | gt | ge =>
    simp only [compares, decide_eq_true_iff, reduceCtorEq, false_or, true_or, or_true, iff_true]
    split <;> split <;> omega
  | _ => cases hop

end

/-! ## What code compares -/

/-- What code compares of a number of type `t`, one of the types `l` and `r`: what is left of it in its
type, at the wider of the widths, and with a sign if either type has one. -/
def compared (u : Universe) (l r t : Ty) (v : Int64) : Int64 :=
  Int64.ofInt (wrapTo (max (u.workWidth l) (u.workWidth r)) (isSigned l || isSigned r) (u.wrap t v.toInt))

section

variable {u : Universe} {l r t : Ty} {op : Opcode} {v w : Int64}

theorem workWidth_le (u : Universe) (l r : Ty) : max (u.workWidth l) (u.workWidth r) ≤ 64 := by
  unfold Universe.workWidth
  split <;> split <;> decide

theorem wrapTo_compared (u : Universe) (l r t : Ty) (v : Int64) :
    wrapTo 64 (isSigned l || isSigned r) (compared u l r t v).toInt =
      wrapTo (max (u.workWidth l) (u.workWidth r)) (isSigned l || isSigned r) (u.wrap t v.toInt) := by
  rw [compared, Int64.toInt_ofInt]
  exact (wrapTo_wrapTo (Nat.le_refl 64) _ true _).trans
    (wrapTo_of_le (workWidth_le u l r) (wrapTo_wrapTo (Nat.le_refl _) _ _ _))

/-- A type without a sign that is computed at 32 bits has fewer. -/
theorem width_lt_of_unsigned (hptr : u.ptrBits ≠ 32) (ht : u.isScalar t)
    (hsigned : isSigned t = false) (hwork : u.workWidth t = 32) : u.width t < 32 := by
  unfold Universe.workWidth Universe.width at hwork
  unfold Universe.width
  rcases isWidth_of_scalar ht with h | h | h | h
  · rw [h]
    decide
  · rw [h]
    decide
  · -- of the types with 32 bits, numbers have a sign
    cases t with
    | int => cases hsigned
    | ptr e => exact absurd h hptr
    | byte | bool | u16 | u64 | long => cases h
    | _ => cases ht
  · rw [h] at hwork
    cases hwork

/-- A number in the range of its type is compared as it is, at 64 bits. Pointers of 32 bits are left
out: next to a number with a sign they would be taken for one. -/
theorem compared_of_inRange (hptr : u.ptrBits ≠ 32) (hl : u.isScalar l)
    (hr : u.isScalar r) (ht : t = l ∨ t = r) (hv : truncate u v t = v) :
    compared u l r t v = v := by
  have hscalar : u.isScalar t := by
    rcases ht with rfl | rfl
    · exact hl
    · exact hr
  rw [truncate_eq hscalar] at hv
  have hwork : u.workWidth t ≤ max (u.workWidth l) (u.workWidth r) := by
    rcases ht with rfl | rfl
    · exact Nat.le_max_left _ _
    · exact Nat.le_max_right _ _
  rw [compared]
  by_cases hwide : max (u.workWidth l) (u.workWidth r) = 64
  · -- nothing is cut off
    rw [hwide]
    refine Eq.trans ?_ hv
    rw [← Int64.toBitVec_inj, Int64.toBitVec_ofInt, Int64.toBitVec_ofInt]
    exact ofInt_wrapTo (Nat.le_refl 64) _ _
  · have hnarrow : max (u.workWidth l) (u.workWidth r) = 32 ∧ u.workWidth t = 32 := by
      revert hwide hwork
      unfold Universe.workWidth
      split <;> split <;> split <;> simp
    have hwidth : u.width t ≤ 32 := by
      rw [← hnarrow.2, ← width_work hscalar]
      exact width_le_work hscalar
    have hrange : wrapTo (u.width t) (isSigned t) (u.wrap t v.toInt) = u.wrap t v.toInt :=
      wrap_inRange u t v.toInt
    refine Eq.trans (congrArg Int64.ofInt ?_) hv
    rw [hnarrow.1]
    by_cases hsign : isSigned t = (isSigned l || isSigned r)
    · rw [← hsign]
      exact wrapTo_of_le hwidth hrange
    · -- the sign is that of the other type, and this one is narrower
      have hunsigned : isSigned t = false := by
        rw [← Bool.not_eq_true]
        intro hsigned
        refine hsign ?_
        rcases ht with rfl | rfl
        · rw [hsigned, Bool.true_or]
        · rw [hsigned, Bool.or_true]
      have hsigned : (isSigned l || isSigned r) := by
        rw [hunsigned] at hsign
        exact (Bool.eq_false_or_eq_true _).resolve_right fun h => hsign h.symm
      rw [hsigned]
      rw [hunsigned] at hrange
      exact wrapTo_true_of_lt (width_lt_of_unsigned hptr hscalar hunsigned hnarrow.2) hrange

/-- Of numbers in the range of their types, the result is the same exactly if the comparison is one of
equality, or the left type has a sign, or the right type has none, or both numbers have the same sign. -/
theorem fold_eq_iff_of_inRange (hop : op.isCompare) (hptr : u.ptrBits ≠ 32)
    (hl : u.isScalar l) (hr : u.isScalar r) (hv : truncate u v l = v) (hw : truncate u w r = w) :
    fold op v w (isSigned l) =
        fold op (compared u l r l v) (compared u l r r w) (isSigned l || isSigned r) ↔
      op = .eq ∨ op = .ne ∨ isSigned l ∨ isSigned r = false ∨ (v.toInt < 0 ↔ w.toInt < 0) := by
  rw [compared_of_inRange hptr hl hr (.inl rfl) hv, compared_of_inRange hptr hl hr (.inr rfl) hw]
  cases hsl : isSigned l with
  | true => simp
  | false =>
    cases hsr : isSigned r with
    | false => simp
    | true =>
      rw [Bool.false_or, fold_sign_iff hop]
      simp

end

/-- Code for a comparison of operands of types `l` and `r`, which are not both known and hold `a` and
`b`, is emitted, and it writes whether the comparison holds as `c` says. -/
def CodeGives (u : Universe) (op : Opcode) (l r : Ty) (a b : Int) (c : Bool) : Prop :=
  ∀ {env : Env} {base : BitVec 64} {N : Nat → Prop} {σ : Store} {K : Nat → Bool} {s : State}
    {m : Asm.Machine} {t : Temp} {x y : Ir.Operand},
    env.types = u → env.Framed → env.Fits base → Faithful env base N σ K s m → s.scratches = [] →
    env.HasTemp t → t.type = .bool → x.type = l → y.type = r →
    Valued env N σ x a → (∀ t', x = .temp t' → t'.id ≠ t.id) →
    Valued env N σ y b → (∀ t', y = .temp t' → t'.id ≠ t.id) →
    (isKnown K x && isKnown K y) = false →
    ∃ s' m', (emitCompare env ⟨op, some t, [x, y]⟩ s).result = .ok ((), s') ∧
      runLines (emitCompare env ⟨op, some t, [x, y]⟩ s).lines m = .next m' ∧
      Faithful env base N (σ.setTemp t.id (truth c)) (learn K t.id false) s' m'

variable {op : Opcode} {env : Env} {s : State} {t : Temp} {x y : Ir.Operand}

/-- A comparison is emitted: types fit, and there are registers enough. -/
theorem emitCompare_gives (hframed : env.Framed) (hs : InOrder env s) (hnone : s.scratches = [])
    (hop : op.isCompare) (ht : env.HasTemp t) (hx : env.Reads x) (hy : env.Reads y) :
    ∃ s', (emitCompare env ⟨op, some t, [x, y]⟩ s).result = .ok ((), s') := by
  have hworking : (Setting.sure env).Working 0 s :=
    ⟨ordered_iff_owned.mp hs, by rw [hnone]; exact Nat.le_refl 0⟩
  have hgives := (emitCompare_uses Setting.sure_ready (fun _ _ => trivial) hop
    (Setting.sure_binary hframed (isBinary_of_isCompare hop) ht hx hy)).gives rfl hworking
  cases hresult : (emitCompare env ⟨op, some t, [x, y]⟩ s).result with
  | error e => exact (Outcome.Gives.of_error hgives hresult).elim
  | ok p => exact ⟨p.2, rfl⟩

/-- Code for a comparison of operands that are not both known is emitted, and writes whether the
comparison holds. -/
theorem compare_gives {base : BitVec 64} {N : Nat → Prop} {σ : Store} {K : Nat → Bool}
    {m : Asm.Machine} {a b : Int} (hframed : env.Framed) (hfits : env.Fits base)
    (h : Faithful env base N σ K s m) (hnone : s.scratches = []) (ht : env.HasTemp t)
    (hbool : t.type = .bool) (hx : Valued env N σ x a) (hxt : ∀ t', x = .temp t' → t'.id ≠ t.id)
    (hy : Valued env N σ y b) (hyt : ∀ t', y = .temp t' → t'.id ≠ t.id)
    (hknown : (isKnown K x && isKnown K y) = false) (hop : op.isCompare) :
    ∃ s' m', (emitCompare env ⟨op, some t, [x, y]⟩ s).result = .ok ((), s') ∧
      runLines (emitCompare env ⟨op, some t, [x, y]⟩ s).lines m = .next m' ∧
      Faithful env base N (σ.setTemp t.id (truth (compares op
        (wrapTo (max (env.types.workWidth x.type) (env.types.workWidth y.type))
          (isSigned x.type || isSigned y.type) a)
        (wrapTo (max (env.types.workWidth x.type) (env.types.workWidth y.type))
          (isSigned x.type || isSigned y.type) b)))) (learn K t.id false) s' m' := by
  obtain ⟨s', hok⟩ := emitCompare_gives hframed h.order hnone hop ht hx.reads hy.reads
  have hruns := compare_runs (F := False) hframed hfits h ht hbool hx hxt hy hyt hknown hop () s' hok
  cases hrun : runLines (emitCompare env ⟨op, some t, [x, y]⟩ s).lines m with
  | next m' =>
    rw [hrun] at hruns
    exact ⟨s', m', hok, rfl, hruns⟩
  | fault | goto _ _ | stuck =>
    rw [hrun] at hruns
    exact hruns.elim

theorem codeGives_compared {u : Universe} (hop : op.isCompare) (l r : Ty) (v w : Int64) :
    CodeGives u op l r (u.wrap l v.toInt) (u.wrap r w.toInt)
      (fold op (compared u l r l v) (compared u l r r w) (isSigned l || isSigned r)) := by
  intro env base N σ K s m t x y htypes hframed hfits h hnone ht hbool hxl hyr hx hxt hy hyt hknown
  subst htypes hxl hyr
  rw [fold_eq_compares hop, wrapTo_compared, wrapTo_compared]
  exact compare_gives hframed hfits h hnone ht hbool hx hxt hy hyt hknown hop

/-- A comparison of two known values writes nothing, and what `fold` says is remembered. -/
theorem emitCompare_eq_remember {l r : Ir.Operand} {v w : Int64}
    (hl : constOf l s = ⟨[], .ok (some v, s)⟩) (hr : constOf r s = ⟨[], .ok (some w, s)⟩) :
    emitCompare env ⟨op, some t, [l, r]⟩ s = ⟨[], .ok ((), s.remember t.id
        ⟨if fold op v w (isSigned l.type) then 1 else 0, t.type⟩)⟩ := by
  refine (bind_quiet rfl).trans ((bind_quiet rfl).trans ?_)
  refine (bind_quiet hl).trans ((bind_quiet hr).trans ?_)
  rfl

/-- What is remembered of a comparison of two known values, and what code for it writes if the operands
are held in registers. The results are the same exactly if the two values of `fold` are; for numbers in
the range of their types that depends on signs only. -/
theorem emitCompare_folds {env : Env} {s : State} {op : Opcode} (hop : op.isCompare = true) (t : Temp)
    {l r : Ir.Operand} {v w : Int64} (hl : env.types.isScalar l.type = true)
    (hr : env.types.isScalar r.type = true) (hv : constOf l s = ⟨[], .ok (some v, s)⟩)
    (hw : constOf r s = ⟨[], .ok (some w, s)⟩) :
    emitCompare env ⟨op, some t, [l, r]⟩ s = ⟨[], .ok ((), s.remember t.id
          ⟨if fold op v w (isSigned l.type) then 1 else 0, t.type⟩)⟩ ∧
      CodeGives env.types op l.type r.type (env.types.wrap l.type v.toInt) (env.types.wrap r.type w.toInt)
        (fold op (compared env.types l.type r.type l.type v)
          (compared env.types l.type r.type r.type w) (isSigned l.type || isSigned r.type)) ∧
      (env.types.ptrBits ≠ 32 → truncate env.types v l.type = v → truncate env.types w r.type = w →
        (fold op v w (isSigned l.type) = fold op (compared env.types l.type r.type l.type v)
              (compared env.types l.type r.type r.type w) (isSigned l.type || isSigned r.type) ↔
          op = .eq ∨ op = .ne ∨ isSigned l.type = true ∨ isSigned r.type = false ∨
            (v.toInt < 0 ↔ w.toInt < 0))) :=
  ⟨emitCompare_eq_remember hv hw, codeGives_compared hop l.type r.type v w,
    fun hptr => fold_eq_iff_of_inRange hop hptr hl hr⟩

/-- A function with temporaries of two types, and one for whether they compare. -/
def pairFunc (l r : Ty) : Func :=
  { name := "pair", ret := .bool, isPublic := false, external := false
    locals := [], temps := [⟨0, l⟩, ⟨1, r⟩, ⟨2, .bool⟩], blocks := [] }

def pairEnv (l r : Ty) : Env :=
  let types := Universe.make 64 true
  ⟨types, default, pairFunc l r, Frame.ofFunc types (pairFunc l r) Asm.SysV.stackAlign, []⟩

/-- The two temporaries are in registers. -/
def pairState : State := ⟨⟨[.r13, .r14, .r15], [.rbx, .r12]⟩, [], [some .rbx, some .r12, none], []⟩

/-- Their registers hold what is left of two numbers in their types. -/
def pairMachine (l r : Ty) (v w : Int64) : Asm.Machine :=
  let word (t : Ty) (x : Int64) := BitVec.ofInt 64 ((pairEnv l r).types.wrap t x.toInt)
  ⟨fun q => if q = .rbp then 4096 else if q = .rbx then word l v else if q = .r12 then word r w else 0,
    fun _ => 0, none⟩

/-- The values of the two temporaries. -/
def pairStore (a b : Int) : Store :=
  ⟨fun i => if i = 0 then some a else if i = 1 then some b else none, fun _ => 0⟩

theorem pairState_order {l r : Ty} (hl : (pairEnv l r).types.isScalar l)
    (hr : (pairEnv l r).types.isScalar r) : InOrder (pairEnv l r) pairState := by
  refine ⟨⟨by decide, by decide, by decide⟩, rfl, fun i q hq => ?_⟩
  match i with
  | 0 => exact ⟨⟨0, l⟩, ⟨rfl, hl⟩, rfl⟩
  | 1 => exact ⟨⟨1, r⟩, ⟨rfl, hr⟩, rfl⟩
  | 2 | _ + 3 => cases hq

/-- The registers hold what the store says. -/
theorem pair_faithful {l r : Ty} (hl : (pairEnv l r).types.isScalar l)
    (hr : (pairEnv l r).types.isScalar r) (v w : Int64) :
    Faithful (pairEnv l r) 4096 (fun _ => True)
      (pairStore ((pairEnv l r).types.wrap l v.toInt) ((pairEnv l r).types.wrap r w.toInt))
      (fun _ => false) pairState (pairMachine l r v w) := by
  have hword : ∀ (t : Ty) (a : Int), (BitVec.ofInt 64 a).setWidth
      (Asm.width (workBits (pairEnv l r).types t)) = BitVec.ofInt _ a :=
    fun _ _ => setWidth_ofInt (workBits_isWork _ _).bounds.2 _
  refine ⟨⟨rfl, fun t a ht _ ha => ?_, fun v hv => ?_⟩, pairState_order hl hr, fun _ => rfl⟩
  · have hmem := List.mem_of_getElem? ht.1
    simp only [pairEnv, pairFunc, List.mem_cons, List.not_mem_nil, or_false] at hmem
    rcases hmem with rfl | rfl | rfl
    · cases ha
      exact ⟨wrap_inRange _ _ _, hword l _⟩
    · cases ha
      exact ⟨wrap_inRange _ _ _, hword r _⟩
    · cases ha
  · exact absurd (List.mem_of_getElem? hv.1) List.not_mem_nil

/-- A number of a byte and one with a sign: decided while code is emitted, and by code. -/
theorem emitCompare_folds_mixed :
    emitCompare (pairEnv .byte .int) ⟨.lt, some ⟨2, .bool⟩, [.int 200 .byte, .int 300 .int]⟩
        pairState = ⟨[], .ok ((), pairState.remember 2 ⟨1, .bool⟩)⟩ ∧
      ∃ s' m', (emitCompare (pairEnv .byte .int)
          ⟨.lt, some ⟨2, .bool⟩, [.temp ⟨0, .byte⟩, .temp ⟨1, .int⟩]⟩ pairState).result = .ok ((), s') ∧
        runLines (emitCompare (pairEnv .byte .int)
          ⟨.lt, some ⟨2, .bool⟩, [.temp ⟨0, .byte⟩, .temp ⟨1, .int⟩]⟩ pairState).lines
          (pairMachine .byte .int 200 300) = .next m' ∧
        Faithful (pairEnv .byte .int) 4096 (fun _ => True) ((pairStore 200 300).setTemp 2 1)
          (learn (fun _ => false) 2 false) s' m' := by
  obtain ⟨hrecorded, hcode, -⟩ := @emitCompare_folds (pairEnv .byte .int) pairState .lt rfl ⟨2, .bool⟩
    (.int 200 .byte) (.int 300 .int) 200 300 rfl rfl rfl rfl
  refine ⟨hrecorded, ?_⟩
  have hfaithful := pair_faithful (l := .byte) (r := .int) rfl rfl 200 300
  exact hcode rfl rfl (by unfold Env.Fits; decide) hfaithful rfl ⟨rfl, rfl⟩ rfl rfl rfl
    ⟨⟨rfl, rfl⟩, fun _ _ => trivial, rfl⟩ (by rintro _ ⟨⟩; decide)
    ⟨⟨rfl, rfl⟩, fun _ _ => trivial, rfl⟩ (by rintro _ ⟨⟩; decide) rfl

/-- A number out of the range of its type, and a left type without a sign next to a right type with
one: what is remembered is not what code writes. -/
theorem emitCompare_differs :
    (emitCompare (pairEnv .byte .byte) ⟨.eq, some ⟨2, .bool⟩, [.int 0 .byte, .int 256 .byte]⟩
        pairState = ⟨[], .ok ((), pairState.remember 2 ⟨0, .bool⟩)⟩ ∧
      ∃ m', runLines (emitCompare (pairEnv .byte .byte)
          ⟨.eq, some ⟨2, .bool⟩, [.temp ⟨0, .byte⟩, .temp ⟨1, .byte⟩]⟩ pairState).lines
          (pairMachine .byte .byte 0 256) = .next m' ∧ m'.regs .r13 = 1) ∧
    emitCompare (pairEnv .u64 .int) ⟨.lt, some ⟨2, .bool⟩, [.int 1 .u64, .int (-1) .int]⟩
        pairState = ⟨[], .ok ((), pairState.remember 2 ⟨1, .bool⟩)⟩ ∧
      ∃ m', runLines (emitCompare (pairEnv .u64 .int)
          ⟨.lt, some ⟨2, .bool⟩, [.temp ⟨0, .u64⟩, .temp ⟨1, .int⟩]⟩ pairState).lines
          (pairMachine .u64 .int 1 (-1)) = .next m' ∧ m'.regs .r13 = 0 := by
  refine ⟨⟨rfl, _, rfl, ?_⟩, rfl, _, rfl, ?_⟩
  · decide
  · decide

end TreeAsm.Emit
