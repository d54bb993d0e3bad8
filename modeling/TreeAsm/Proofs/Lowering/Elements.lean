import TreeAsm.Proofs.Emit.Values
import TreeAsm.Proofs.Lowering.Coherence

/-!
# Offsets of elements

An element is read and written at an offset from the pointer to the first one: the index times the size
of an element. An index that is a number is multiplied while code is lowered, at 64 bits, and an index
of bytes is the offset itself; any other is multiplied by an instruction, whose result has the type of
the index (`elementPlace_ok`). So the offset is the index times the size, up to 2^64, exactly if that
product is in the range of the type of the index (`lowerExpr_elementOffset`): always for an index of 64
bits, and not for a byte that counts past 255 bytes.
-/

namespace TreeAsm

open BitVec (ofInt)

/-! ## Products in a range -/

section

variable {u : Universe} {t : Ty}

/-- Numbers that agree at a width are the same in its range. -/
theorem wrapTo_congr {w : Nat} {x y : Int} (h : ofInt w x = ofInt w y) (signed : Bool) :
    wrapTo w signed x = wrapTo w signed y := by
  cases signed with
  | true => rw [wrapTo_true, wrapTo_true, h]
  | false => rw [wrapTo_false, wrapTo_false, h]

/-- The factors of a product may be brought into range first. -/
theorem wrap_mul_wrap (u : Universe) (t : Ty) (x y : Int) :
    u.wrap t (x * u.wrap t y) = u.wrap t (x * y) := by
  refine wrapTo_congr ?_ _
  rw [BitVec.ofInt_mul, BitVec.ofInt_mul, Universe.wrap, ofInt_wrapTo (Nat.le_refl _)]

/-- A number keeps its 64 bits in the range of a type exactly if these bits are a number in that
range. -/
theorem ofInt_wrap_eq_iff (hwidth : u.width t ≤ 64) (x : Int) :
    ofInt 64 (u.wrap t x) = ofInt 64 x ↔ u.InRange t (wrapTo 64 t.isInteger x) := by
  have hrange : u.InRange t (u.wrap t x) := wrapTo_wrapTo (Nat.le_refl _) _ _ x
  have hsame : u.wrap t (wrapTo 64 t.isInteger x) = u.wrap t x := wrapTo_wrapTo hwidth _ _ x
  constructor
  · intro h
    rw [← wrapTo_congr h, wrapTo_of_le hwidth hrange]
    exact hrange
  · intro h
    rw [Universe.InRange, hsame] at h
    rw [h, ofInt_wrapTo (Nat.le_refl 64)]

end

namespace Lowering

open Ir
open Program (Expr)

variable {env : Env} {s s' : State} {w : World} {σ σ' : Snapshot}

/-! ## The place of an element -/

variable {index base : Operand} {p : Place} {u : Universe}

/-- The types that are known by their width and their sign alone. -/
def isIndexType (t : Ty) : Bool := t ∈ [Ty.byte, .u16, .int, .u64, .long]

theorem width_indexType {t : Ty} (h : isIndexType t) : u.width t ≤ 64 ∧ isLiteralType u t := by
  cases t with
  | byte | u16 | int | u64 | long => exact ⟨(by simp [Universe.width, Universe.bits]), rfl⟩
  | _ => cases h

/-! ## What the offset is worth -/

/-- What the offset of an element of some size is worth if the index is worth `v`. -/
def offsetOf (u : Universe) (index : Operand) (size : Int64) (v : Int) : Int :=
  match index with
  | .int value _ => u.wrap .u64 (value * size).toInt
  | _ => if size = 1 then v else u.wrap index.type (v * size.toInt)

theorem offsetOf_of_not_literal (h : isLiteral index = false) (size : Int64) (v : Int) :
    offsetOf u index size v = if size = 1 then v else u.wrap index.type (v * size.toInt) := by
  cases index with
  | int value type => cases h
  | _ => rfl

/-- Whether nothing of the product is lost that counts at 64 bits. A number must not be more than its
own type holds, unless what is lost of it goes beyond 64 bits; what is multiplied by an instruction must
come to a product in the range of its own type. -/
def KeepsProduct (u : Universe) (index : Operand) (size : Int64) (v : Int) : Prop :=
  match index with
  | .int value _ => ofInt 64 (value.toInt * size.toInt) = ofInt 64 (v * size.toInt)
  | _ => size = 1 ∨ u.InRange index.type (wrapTo 64 index.type.isInteger (v * size.toInt))

theorem ofInt_toInt_mul (x y : Int64) : ofInt 64 (x * y).toInt = ofInt 64 (x.toInt * y.toInt) := by
  rw [BitVec.ofInt_mul, ← Int64.toInt_toBitVec, ← Int64.toInt_toBitVec, ← Int64.toInt_toBitVec,
    BitVec.ofInt_toInt, BitVec.ofInt_toInt, BitVec.ofInt_toInt, Int64.toBitVec_mul]

/-- The offset is the product at 64 bits exactly if nothing of the product is lost. -/
theorem offsetOf_eq_iff (htype : isIndexType index.type) (size : Int64) (v : Int) :
    ofInt 64 (offsetOf u index size v) = ofInt 64 (v * size.toInt) ↔ KeepsProduct u index size v := by
  have hmultiplied : ofInt 64 (if size = 1 then v else u.wrap index.type (v * size.toInt)) =
          ofInt 64 (v * size.toInt) ↔
        size = 1 ∨ u.InRange index.type (wrapTo 64 index.type.isInteger (v * size.toInt)) := by
    by_cases hone : size = 1
    · simp [hone]
    · rw [if_neg hone, or_iff_right hone]
      exact ofInt_wrap_eq_iff (width_indexType htype).1 _
  cases index with
  | int value type =>
    have hwrap : ofInt 64 (u.wrap .u64 (value * size).toInt) = ofInt 64 (value.toInt * size.toInt) := by
      rw [← ofInt_toInt_mul]
      exact ofInt_wrapTo (Nat.le_refl 64) _ _
    show ofInt 64 (u.wrap .u64 (value * size).toInt) = _ ↔ _
    rw [hwrap]
    rfl
  | _ => exact hmultiplied

/-- The code of an element's place leaves the offset in its operand. -/
theorem elementPlace_value (hplace : elementPlace env base index s = .ok (p, s')) (hs' : s'.Orderly)
    (hindex : s.Ready index) (htype : isIndexType index.type) {code : List Instr}
    (hcode : s'.block.code = s.block.code ++ code) (hunder : Underway env s w σ)
    (hrun : w.run code σ = some σ') :
    ∃ v, w.value σ' index = some v ∧ w.value σ' p.offset =
      some (offsetOf env.types index (env.types.size base.type.elem) v) := by
  obtain ⟨v, hv⟩ := hunder.value hindex
  have hkept : w.value σ' index = some v := (value_kept_last hindex.has hs' hcode hrun).trans hv
  obtain ⟨-, -, ⟨value, type, rfl, hoffset, rfl⟩ | ⟨hliteral, hone, hoffset, rfl⟩ |
    ⟨hliteral, hmany, r, hoffset, hr, hmul⟩⟩ := elementPlace_ok hplace
  · refine ⟨v, hkept, ?_⟩
    rw [hoffset, ← hunder.types]
    rfl
  · refine ⟨v, hkept, ?_⟩
    rw [hoffset, hkept, offsetOf_of_not_literal hliteral, if_pos hone]
  · obtain ⟨-, hcoerced⟩ := width_indexType (u := env.types) htype
    have hsize : coerce env.types (.int (env.types.size base.type.elem) .untyped) index.type =
        .int (env.types.size base.type.elem) index.type := if_pos hcoerced
    rw [hsize] at hr hmul
    have hresult : r.type = index.type := by
      rw [hr]
      simp [resultType, Opcode.isCompare, Operand.type]
    obtain rfl := List.append_cancel_left (hcode.symm.trans hmul)
    rw [World.run_singleton, World.act_binary rfl, hv] at hrun
    obtain rfl := Option.some.inj hrun
    refine ⟨v, hkept, ?_⟩
    rw [hoffset, World.setTemp_value, offsetOf_of_not_literal hliteral, if_neg hmany, hresult, hunder.types]
    exact congrArg some (wrap_mul_wrap _ _ _ _)

/-! ## Accesses to elements -/

/-- An expression reads an element, or it assigns to it. -/
inductive Accesses (x i : Expr) : Expr → Prop
  | read (pos : Position) : Accesses x i (.index pos x i)
  | assigned (pos pos' : Position) (value : Expr) : Accesses x i (.assign pos' (.index pos x i) value)

/-- An instruction reads or writes at a base and an offset. -/
inductive AccessAt (base offset : Operand) : Instr → Prop
  | load (r : Temp) : AccessAt base offset ⟨.load, some r, [base, offset]⟩
  | store (v : Operand) : AccessAt base offset ⟨.store, none, [base, offset, v]⟩

/-- What the code of an element's place begins with: the pointer, then the index. -/
theorem lowerPlace_index {x i : Expr} {pos : Position}
    (h : lowerPlace env (.index pos x i) s = .ok (p, s')) :
    ∃ t1 index t2, lowerExpr env x s = .ok (some p.base, t1) ∧ p.base.type.isPtr ∧
      lowerExpr env i t1 = .ok (some index, t2) ∧ elementPlace env p.base index t2 = .ok (p, s') := by
  unfold lowerPlace at h
  obtain ⟨base, t1, hbase, h⟩ := Lower.bind_ok h
  obtain ⟨_, _, hlift, h⟩ := Lower.bind_ok h
  obtain ⟨hcheck, rfl⟩ := Lower.lift_ok hlift
  obtain ⟨index, t2, hindex, h⟩ := Lower.bind_ok h
  obtain rfl := (elementPlace_ok h).1
  exact ⟨t1, index, t2, required_ok.mp (Lower.within_ok hbase), checkIndexable_ok hcheck,
    required_ok.mp (Lower.within_ok hindex), h⟩

/-- An expression that accesses an element computes its place, perhaps what is to be stored there, and
accesses it last. -/
theorem accesses_ok (hsound : s.Sound) (hs : s.Orderly) {x i e : Expr} (he : Accesses x i e)
    {y : Option Operand} (hok : lowerExpr env e s = .ok (y, s')) :
    ∃ pos p t, lowerPlace env (.index pos x i) s = .ok (p, t) ∧
      ∃ between access, s'.block.code = t.block.code ++ (between ++ [access]) ∧
        AccessAt p.base p.offset access := by
  cases he with
  | read pos =>
    unfold lowerExpr at hok
    obtain ⟨p, t, hplace, hok⟩ := atElement_ok hok pos
    obtain ⟨-, rfl⟩ := Prod.mk.inj (Except.ok.inj hok)
    exact ⟨pos, p, t, hplace, [], _, rfl, .load _⟩
  | assigned pos pos' value =>
    unfold lowerExpr at hok
    obtain ⟨p, t, hplace, hok⟩ := atElement_ok hok pos
    obtain ⟨ht, hadds, -⟩ := lowerPlace_builds env _ s hsound hs p t hplace
    obtain ⟨_, _, v, _, between, -, -, -, -, hcode⟩ := stored_ok (hadds.sound hsound) ht hok
    exact ⟨pos, p, t, hplace, between, _, hcode, .store v⟩

/-- For every element that is read or assigned to, the operand for its offset, right before the access,
is worth `offsetOf`, and that is the index times the size of an element, at 64 bits, exactly if the type
of the index keeps the product. The code comes to the access if nothing calls or divides. -/
theorem lowerExpr_elementOffset (hsound : s.Sound) (hs : s.Orderly) {x i e : Expr}
    (he : Accesses x i e) {y : Option Operand} (hok : lowerExpr env e s = .ok (y, s')) :
    ∃ base t₁ index t₂ offset before access,
      lowerExpr env x s = .ok (some base, t₁) ∧ base.type.isPtr = true ∧
      lowerExpr env i t₁ = .ok (some index, t₂) ∧
      s'.block.code = s.block.code ++ (before ++ [access]) ∧ AccessAt base offset access ∧
      (e.isTotal = true → ∀ w σ, Underway env s w σ → ∃ σ', w.run before σ = some σ') ∧
      ∀ w σ σ', isIndexType index.type = true → Underway env s w σ → w.run before σ = some σ' →
        ∃ v, w.value σ' index = some v ∧ w.value σ' offset =
            some (offsetOf env.types index (env.types.size base.type.elem) v) ∧
          (BitVec.ofInt 64 (offsetOf env.types index (env.types.size base.type.elem) v) =
              BitVec.ofInt 64 (v * (env.types.size base.type.elem).toInt) ↔
            KeepsProduct env.types index (env.types.size base.type.elem) v) := by
  obtain ⟨pos, p, t, hplace, between, access, hcode, hat⟩ := accesses_ok hsound hs he hok
  obtain ⟨t₁, index, t₂, hx, hptr, hi, helement⟩ := lowerPlace_index hplace
  obtain ⟨hs₁, hadds₁, -⟩ := lowerExpr_builds env x s hsound hs _ t₁ hx
  obtain ⟨-, hadds₂, hindex⟩ := lowerExpr_builds env i t₁ (hadds₁.sound hsound) hs₁ _ t₂ hi
  obtain ⟨ht, -, hp⟩ := lowerPlace_builds env _ s hsound hs p t hplace
  have hs' : s'.Orderly := (lowerExpr_builds env e s hsound hs y s' hok).1
  have hindex : t₂.Ready index := hindex index rfl
  -- the code: what the index is computed by, its product with the size, and what is to be stored
  obtain ⟨first, hfirst⟩ := (hadds₁.trans hadds₂).pre
  obtain ⟨placing, hplacing, -⟩ := elementPlace_calm p.base index t₂ p t helement
  have hcode' : s'.block.code = s.block.code ++ (first ++ placing ++ between ++ [access]) := by
    rw [hcode, hplacing, ← hfirst]
    simp only [List.append_assoc]
  refine ⟨p.base, t₁, index, t₂, p.offset, first ++ placing ++ between, access, hx, hptr, hi, hcode',
    hat, fun htotal w σ hunder => ?_, fun w σ σ' htype hunder hrun => ?_⟩
  · obtain ⟨σ', hrun⟩ := hunder.goes_on (lowerExpr_calm env e htotal) (lowerExpr_builds env e s)
      hsound hs hok hcode'
    rw [World.run_append] at hrun
    obtain ⟨σ₁, hbefore, -⟩ := Option.bind_eq_some_iff.mp hrun
    exact ⟨σ₁, hbefore⟩
  · rw [World.run_append, World.run_append] at hrun
    obtain ⟨σ₂, hrun, hbetween⟩ := Option.bind_eq_some_iff.mp hrun
    obtain ⟨σ₁, hbegun, hplaced⟩ := Option.bind_eq_some_iff.mp hrun
    obtain ⟨v, hv, hoffset⟩ := elementPlace_value helement ht hindex htype hplacing
      (hunder.next hfirst.symm hbegun) hplaced
    have hkept : t.Has index := hindex.has.mono ⟨placing, hplacing.symm⟩
    refine ⟨v, ?_, ?_, offsetOf_eq_iff htype _ v⟩
    · rw [← hv]
      exact value_kept_of_has hkept hs' hcode hbetween
    · rw [← hoffset]
      exact value_kept_of_has hp.offset.has hs' hcode hbetween

/-- A function of a row of numbers and of the place of one of them. -/
def numbersFunc : Func :=
  ⟨"f", .long, true, false, [⟨0, "a", .ptr .long, true⟩, ⟨1, "i", .byte, true⟩], [], []⟩

/-- What the lowering of its body starts with. -/
def numbersState : State := State.start .empty numbersFunc

/-- The types on a machine of 64 bits. -/
def numbersEnv : Env := ⟨Universe.make 64 false, "", .int⟩

/-- The number at the place `i`. -/
def numberAt : Expr := .index default (.ident default "a") (.ident default "i")

/-- Surroundings where the variables are at 16 and 24, and nothing can be called. -/
def numbersWorld : World :=
  ⟨numbersEnv.types, fun k => BitVec.ofNat 64 (16 + 8 * k), fun _ => 0, fun _ => 0, fun _ _ _ => none⟩

/-- The row is at 0, and `i` has a value. -/
def numbersSnapshot (i : BitVec 8) : Snapshot := ⟨fun _ => none, fun a => if a = 24 then i else 0, []⟩

/-- What `numberAt` comes to. -/
def numberAtCode : List Instr :=
  [⟨.move, none, [.temp ⟨0, .ptr .long⟩, .var ⟨0, "a", .ptr .long, true⟩]⟩,
   ⟨.move, none, [.temp ⟨1, .byte⟩, .var ⟨1, "i", .byte, true⟩]⟩,
   ⟨.mul, some ⟨2, .byte⟩, [.temp ⟨1, .byte⟩, .int 8 .byte]⟩,
   ⟨.load, some ⟨3, .long⟩, [.temp ⟨0, .ptr .long⟩, .temp ⟨2, .byte⟩]⟩]

theorem numberAt_lowered : ∃ y s', lowerExpr numbersEnv numberAt numbersState = .ok (y, s') ∧
    s'.block.code = numberAtCode := by
  refine ⟨_, _, rfl, ?_⟩
  decide +kernel

theorem lowerExpr_elementOffset_numberAt : (numbersState.Sound ∧ numbersState.Orderly) ∧
      ∃ y s', lowerExpr numbersEnv numberAt numbersState = .ok (y, s') ∧
        ∃ base offset before access, s'.block.code = before ++ [access] ∧
          AccessAt base offset access ∧ ∀ i, ∃ σ' v, numbersWorld.run before (numbersSnapshot i) = some σ' ∧
            numbersWorld.value σ' (.temp ⟨1, .byte⟩) = some v ∧
            numbersWorld.value σ' offset = some (offsetOf numbersEnv.types (.temp ⟨1, .byte⟩) 8 v) := by
  have hready : numbersState.Sound ∧ numbersState.Orderly := by
    obtain ⟨hwf, -⟩ := State.start_wf numbersEnv typed_empty (f := numbersFunc)
      (by simp [numbersFunc, Ty.Proper]) (by decide)
    exact ⟨hwf.sound, hwf.orderly⟩
  obtain ⟨y, s', hok, -⟩ := numberAt_lowered
  refine ⟨hready, y, s', hok, ?_⟩
  obtain ⟨base, t₁, index, t₂, offset, before, access, hx, -, hi, hcode, hat, hgoes, hoffset⟩ :=
    lowerExpr_elementOffset hready.1 hready.2 (.read default) hok
  cases hx
  cases hi
  refine ⟨_, offset, before, access, hcode, hat, fun i => ?_⟩
  have hunder : Underway numbersEnv numbersState numbersWorld (numbersSnapshot i) :=
    ⟨rfl, by simp [numbersState, State.start, Snapshot.Holds]⟩
  obtain ⟨σ', hrun⟩ := hgoes rfl numbersWorld _ hunder
  obtain ⟨v, hv, hb, -⟩ := hoffset numbersWorld _ σ' rfl hunder hrun
  exact ⟨σ', v, hrun, hv, hb⟩

/-- The number at 32 begins 256 bytes after the first one, but with a byte for the place it is the first
one that is read. -/
theorem lowerExpr_elementOffset_lost :
    (∃ y s', lowerExpr numbersEnv numberAt numbersState = .ok (y, s') ∧ s'.block.code = numberAtCode) ∧
    numbersEnv.types.size .long = 8 ∧
    (numbersWorld.run numberAtCode (numbersSnapshot 32)).map
        (fun σ => (numbersWorld.value σ (.temp ⟨1, .byte⟩), σ.accesses.head?)) =
      some (some 32, some (.read 0)) := by
  refine ⟨numberAt_lowered, rfl, ?_⟩
  decide +kernel

end Lowering

end TreeAsm
