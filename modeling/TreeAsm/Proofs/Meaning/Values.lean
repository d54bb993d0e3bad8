import TreeAsm.Proofs.Ir.Exec
import TreeAsm.Proofs.Program.Eval

/-!
# Numbers of 32 bits as values of type `int`

An operation of the source on numbers of 32 bits and the operation of the intermediate code on values
of type `int` are the same (`compute_applyOp`, `compute_compareOp`).
-/

namespace TreeAsm.Meaning

open Ir
open Program (applyOp arithOps compareOp compareOps divide)

theorem wrapTo_toInt (a : Int32) : wrapTo 32 true a.toInt = a.toInt :=
  Int32.toInt_bmod_size a

theorem wrap_int (u : Universe) (v : Int) : u.wrap .int v = v.bmod (2 ^ 32) := rfl

@[simp] theorem wrap_toInt (u : Universe) (a : Int32) : u.wrap .int a.toInt = a.toInt :=
  wrapTo_toInt a

/-- The lowest 32 bits of a conjunction of wider numbers. -/
theorem bmod_and (a b : Int32) :
    (BitVec.ofInt 64 a.toInt &&& BitVec.ofInt 64 b.toInt).toInt.bmod (2 ^ 32) = (a &&& b).toInt := by
  have hlow : ∀ c : Int32, (BitVec.ofInt 64 c.toInt).setWidth 32 = c.toBitVec := by
    intro c
    rw [setWidth_ofInt (by decide), ← Int32.toInt_toBitVec, BitVec.ofInt_toInt]
  rw [← BitVec.toInt_signExtend_eq_toInt_bmod_of_le _ (by decide),
    BitVec.signExtend_eq_setWidth_of_le _ (by decide), BitVec.setWidth_and, hlow, hlow]
  rfl

/-- The code of an operation of the source. -/
theorem ofOperator_arith {op : String} (h : op ∈ arithOps) :
    ∃ code, Opcode.ofOperator? op = some code ∧ code.isCompare = false ∧ code.isTerminator = false := by
  simp only [arithOps, List.mem_cons, List.not_mem_nil, or_false] at h
  rcases h with rfl | rfl | rfl | rfl | rfl
  · exact ⟨.add, rfl, rfl, rfl⟩
  · exact ⟨.sub, rfl, rfl, rfl⟩
  · exact ⟨.mul, rfl, rfl, rfl⟩
  · exact ⟨.div, rfl, rfl, rfl⟩
  · exact ⟨.and, rfl, rfl, rfl⟩

/-- What an operation of the source comes to as one of the intermediate code. -/
def computed : Program.Eval Int32 → Computed
  | .ok v => .value v.toInt
  | .error .fault => .fault
  | .error _ => .undefined

theorem compute_div (u : Universe) (a b : Int32) :
    compute u .div .int .int .int a.toInt b.toInt = computed (divide a b) := by
  have hwidth : u.workWidth .int = 32 := rfl
  have hzero : b.toInt = 0 ↔ b = 0 := by
    rw [← Int32.toInt_inj]
    exact Iff.rfl
  have hmin : a.toInt = -2 ^ (32 - 1) ↔ a = Int32.minValue := by
    rw [← Int32.toInt_inj, Int32.toInt_minValue]
  have hone : b.toInt = -1 ↔ b = -1 := by
    rw [← Int32.toInt_inj]
    exact Iff.rfl
  unfold compute quotient divide
  simp only [hwidth, wrapTo_toInt, show Ty.isInteger .int = true from rfl, hzero, hmin, hone, true_and]
  by_cases hfault : b = 0 ∨ a = Int32.minValue ∧ b = -1
  · rw [if_pos hfault, if_pos hfault]
    rfl
  · rw [if_neg hfault, if_neg hfault]
    exact congrArg Computed.value (Int32.toInt_div a b).symm

/-- An operation has a result or faults. -/
theorem applyOp_arith {op : String} (h : op ∈ arithOps) (a b : Int32) :
    (∃ c, applyOp op a b = .ok c) ∨ applyOp op a b = .error .fault := by
  simp only [arithOps, List.mem_cons, List.not_mem_nil, or_false] at h
  rcases h with rfl | rfl | rfl | rfl | rfl
  · exact .inl ⟨_, rfl⟩
  · exact .inl ⟨_, rfl⟩
  · exact .inl ⟨_, rfl⟩
  · show (∃ c, divide a b = .ok c) ∨ divide a b = .error .fault
    unfold divide
    split
    · exact .inr rfl
    · exact .inl ⟨_, rfl⟩
  · exact .inl ⟨_, rfl⟩

theorem compute_applyOp (u : Universe) {op : String} {code : Opcode} (h : op ∈ arithOps)
    (hcode : Opcode.ofOperator? op = some code) (a b : Int32) :
    compute u code .int .int .int a.toInt b.toInt = computed (applyOp op a b) := by
  simp only [arithOps, List.mem_cons, List.not_mem_nil, or_false] at h
  rcases h with rfl | rfl | rfl | rfl | rfl
  all_goals
    cases hcode
  · exact congrArg Computed.value (Int32.toInt_add a b).symm
  · exact congrArg Computed.value (Int32.toInt_sub a b).symm
  · exact congrArg Computed.value (Int32.toInt_mul a b).symm
  · exact compute_div u a b
  · exact congrArg Computed.value (bmod_and a b)

theorem compute_compareOp (u : Universe) {op : String} (h : op ∈ compareOps) (a b : Int32) :
    ∃ code c, Opcode.ofOperator? op = some code ∧ code.isCompare ∧ compareOp op a b = some c ∧
      compute u code .int .int .bool a.toInt b.toInt = .value (if c then 1 else 0) := by
  have hcompute : ∀ {code : Opcode} {c : Bool}, code.isCompare → compares code a.toInt b.toInt = c →
      compute u code .int .int .bool a.toInt b.toInt = .value (if c then 1 else 0) := by
    intro code c hcode hc
    have hwrap : ∀ x : Int32, wrapTo (max (u.workWidth .int) (u.workWidth .int))
        (Ty.isInteger .int || Ty.isInteger .int) x.toInt = x.toInt := wrapTo_toInt
    rw [compute_compare u hcode, hwrap, hwrap, hc]
  simp only [compareOps, List.mem_cons, List.not_mem_nil, or_false] at h
  rcases h with rfl | rfl | rfl | rfl | rfl | rfl
  · refine ⟨.eq, _, rfl, rfl, rfl, hcompute rfl ?_⟩
    simp [compares, Int32.toInt_inj]
  · refine ⟨.ne, _, rfl, rfl, rfl, hcompute rfl ?_⟩
    simp [compares, Int32.toInt_inj]
  · refine ⟨.lt, _, rfl, rfl, rfl, hcompute rfl ?_⟩
    simp [compares, Int32.lt_iff_toInt_lt]
  · refine ⟨.le, _, rfl, rfl, rfl, hcompute rfl ?_⟩
    simp [compares, Int32.le_iff_toInt_le]
  · refine ⟨.gt, _, rfl, rfl, rfl, hcompute rfl ?_⟩
    simp [compares, Int32.lt_iff_toInt_lt]
  · refine ⟨.ge, _, rfl, rfl, rfl, hcompute rfl ?_⟩
    simp [compares, Int32.le_iff_toInt_le]

end TreeAsm.Meaning
