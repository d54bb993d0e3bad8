import TreeAsm.Proofs.Meaning.Variables

/-!
# What a lowered expression computes

Lowering an expression adds instructions to the open block (`State.add`). Run from values that
correspond to the variables of the source, they come to the value of the expression in the operand
that lowering gives, and to values that correspond to the variables after it; they fault exactly if
the evaluation of the expression does (`lowerExpr_computes`). Nothing that was there before is
disturbed, neither a temporary nor a variable without a name: the value of a left operand is still
there after the right one.
-/

namespace TreeAsm.Lowering

open Ir

/-- A state with more temporaries and with more instructions in its open block. -/
def State.add (s : State) (temps : List Temp) (code : List Instr) : State :=
  { s with
    temps := s.temps ++ temps
    block := { s.block with code := s.block.code ++ code } }

@[simp] theorem State.add_scopes (s : State) (temps : List Temp) (code : List Instr) :
    (s.add temps code).scopes = s.scopes := rfl

@[simp] theorem State.add_locals (s : State) (temps : List Temp) (code : List Instr) :
    (s.add temps code).locals = s.locals := rfl

theorem State.add_nil (s : State) : s.add [] [] = s := by
  simp [State.add]

theorem State.add_add (s : State) (temps temps' : List Temp) (code code' : List Instr) :
    (s.add temps code).add temps' code' = s.add (temps ++ temps') (code ++ code') := by
  simp [State.add]

theorem emit_eq (op : Opcode) (result : Option Temp) (args : List Operand) (s : State) :
    emit op result args s = .ok ((), s.add [] [⟨op, result, args⟩]) := by
  simp only [State.add, List.append_nil]
  rfl

end TreeAsm.Lowering

namespace TreeAsm.Meaning

open Ir Lowering
open Lower (bind_eq)
open Program (Eval Expr Halt Vars applyOp arithOps compareOp compareOps evalCond evalExpr expect isSmall)

variable {α β : Type} {u : Universe}

/-! ## Code and evaluation -/

/-- Code does what a step of evaluation does: it leads on to values that are as the result says, or
both fault. -/
def Computes (u : Universe) (code : List Instr) (σ : Store) (r : Eval α) (post : α → Store → Prop) :
    Prop :=
  match r with
  | .ok a => ∃ σ', runCode u code σ = .next σ' ∧ post a σ'
  | .error .fault => runCode u code σ = .fault
  | .error _ => False

variable {code code' : List Instr} {σ σ' : Store} {r : Eval α} {post : α → Store → Prop}

theorem Computes.mono {post' : α → Store → Prop} (h : Computes u code σ r post)
    (himp : ∀ a σ', post a σ' → post' a σ') : Computes u code σ r post' := by
  cases r with
  | ok a =>
    obtain ⟨σ', hrun, hpost⟩ := h
    exact ⟨σ', hrun, himp a σ' hpost⟩
  | error halt => cases halt <;> exact h

/-- Code after code that leads on to it. -/
theorem Computes.after (hrun : runCode u code σ = .next σ') (h : Computes u code' σ' r post) :
    Computes u (code ++ code') σ r post := by
  unfold Computes
  rw [runCode_append hrun]
  exact h

/-- Code after code, as a step of evaluation after a step of evaluation. -/
theorem Computes.bind {f : α → Eval β} {post' : β → Store → Prop} (h : Computes u code σ r post)
    (hf : ∀ a σ', post a σ' → Computes u code' σ' (f a) post') :
    Computes u (code ++ code') σ (r >>= f) post' := by
  cases r with
  | ok a =>
    obtain ⟨σ', hrun, hpost⟩ := h
    exact Computes.after hrun (hf a σ' hpost)
  | error halt =>
    cases halt with
    | fault => exact runCode_append_fault h
    | _ => exact h.elim

/-! ## Operands -/

/-- A literal or a temporary of type `int`, the temporaries being below a bound. -/
inductive IsValue (n : Nat) : Operand → Prop
  | literal (value : Int64) : IsValue n (.int value .int)
  | temp (i : Nat) (h : i < n) : IsValue n (.temp ⟨i, .int⟩)

variable {n m : Nat} {x y : Operand}

theorem IsValue.type (h : IsValue n x) : x.type = .int := by
  cases h <;> rfl

theorem IsValue.mono (h : IsValue n x) (hm : n ≤ m) : IsValue m x := by
  cases h with
  | literal value => exact .literal value
  | temp i hi => exact .temp i (Nat.lt_of_lt_of_le hi hm)

variable {w : Operand} {value : Int64} {z : Operand → Operand → Lower Operand}
  {changed : Nat → Prop} {eval : Vars → Eval (α × Vars)} {vis : List String}

/-- What an operand is worth does not change as long as the temporaries keep their values. -/
theorem IsValue.value_eq (h : IsValue n x) (hkeeps : Keeps n changed σ σ') :
    x.value u σ' = x.value u σ := by
  cases h with
  | literal value => rfl
  | temp i hi => exact hkeeps.temps i hi

theorem IsValue.coerce (h : IsValue n x) : coerce u x .int = x := by
  cases h <;> rfl

theorem IsValue.balance (hx : IsValue n x) (hy : IsValue m y) : balance u x y = (x, y) := by
  cases hx <;> cases hy <;> rfl

theorem literal_of_isSmall (h : isSmall value) : literal value = .int value .int := by
  rw [isSmall, Bool.and_eq_true, decide_eq_true_eq, decide_eq_true_eq] at h
  have hhigh : ¬ value > 2147483647 := Int64.not_lt.mpr h.2
  have hlow : ¬ value < -2147483648 := by
    rw [Int64.lt_iff_toInt_lt]
    have := Int64.le_iff_toInt_le.mp h.1
    have h1 : (-2147483647 : Int64).toInt = -2147483647 := by decide
    have h2 : (-2147483648 : Int64).toInt = -2147483648 := by decide
    omega
  rw [literal, if_neg (by simp [hhigh, hlow])]

/-- What a literal is worth. -/
theorem value_literal (value : Int64) (σ : Store) :
    (Operand.int value .int).value u σ = some value.toInt32.toInt := by
  rw [Operand.value, wrap_int, Int64.toInt_toInt32]

/-! ## Steps of lowering -/

/-- How the variables of the source correspond to those of the function. -/
abbrev Relation := Vars → (Nat → Int) → Prop

/-- The values after code that has evaluated something to `p`, from the values `σ` before it: the
operand is worth the result, the variables correspond, and the rest is as before. -/
structure Evaluated (u : Universe) (s : State) (rel : Relation) (worth : α → Int → Prop) (x : Operand)
    (σ : Store) (p : α × Vars) (σ' : Store) : Prop where
  value : ∃ w, x.value u σ' = some w ∧ worth p.1 w
  vars : rel p.2 σ'.locals
  keeps : Keeps s.temps.length (· ∈ indices s.scopes) σ σ'

/-- A step of lowering adds code that does what a step of evaluation does, and gives the operand that
holds the result. -/
def Lowers (u : Universe) (s : State) (rel : Relation) (x : Lower Operand)
    (form : Nat → Operand → Prop) (worth : α → Int → Prop) (eval : Vars → Eval (α × Vars)) : Prop :=
  ∃ v temps code, x s = .ok (v, s.add temps code) ∧ form (s.add temps code).temps.length v ∧
    (∀ i ∈ code, i.op.isTerminator = false) ∧
    ∀ σ vars, rel vars σ.locals → Computes u code σ (eval vars) (Evaluated u s rel worth v σ)

/-- A number is worth itself. -/
def IsNumber (a : Int32) (w : Int) : Prop := w = a.toInt

/-- A truth value is worth zero if it is false, and anything else if it is true. -/
def IsTruth (c : Bool) (w : Int) : Prop := (w != 0) = c

/-- Any operand can hold a truth value. -/
def IsCondition (_ : Nat) (_ : Operand) : Prop := True

variable {s : State} {rel : Relation} {form : Nat → Operand → Prop} {worth : α → Int → Prop}

/-- Another step with the same successes. -/
theorem Lowers.of_imp {x y : Lower Operand} (h : Lowers u s rel x form worth eval)
    (himp : ∀ v s', x s = .ok (v, s') → y s = .ok (v, s')) : Lowers u s rel y form worth eval := by
  obtain ⟨v, temps, code, hx, hrest⟩ := h
  exact ⟨v, temps, code, himp v _ hx, hrest⟩

/-- A literal needs no code. -/
theorem literal_lowers (value : Int64) : Lowers u s rel (pure (.int value .int)) IsValue IsNumber
      fun vars => .ok (value.toInt32, vars) := by
  refine ⟨.int value .int, [], [], ?_, .literal value, by simp, ?_⟩
  · rw [State.add_nil]
    rfl
  · intro σ vars hvars
    exact ⟨σ, rfl, ⟨_, value_literal value σ, rfl⟩, hvars, Keeps.refl σ⟩

/-- A new temporary gets a value. -/
theorem keeps_setTemp (changed : Nat → Prop) (σ : Store) (w : Int) : Keeps n changed σ (σ.setTemp n w) :=
  ⟨fun i hi => by rw [Store.setTemp_temps, if_neg (Nat.ne_of_lt hi)], fun _ _ => rfl⟩

theorem load_var {v : Local} (s : State) : load (.var v) s = .ok (.temp ⟨s.temps.length, v.type⟩,
      s.add [⟨s.temps.length, v.type⟩] [⟨.move, none, [.temp ⟨s.temps.length, v.type⟩, .var v]⟩]) :=
  rfl

/-- A variable whose value evaluation knows is read into a temporary. -/
theorem load_lowers {v : Local} (read : Vars → Eval Int32) (htype : v.type = .int)
    (hread : ∀ vars values, rel vars values →
      ∃ a, read vars = .ok a ∧ u.wrap .int (values v.index) = a.toInt) :
    Lowers u s rel (load (.var v)) IsValue IsNumber (fun vars => do
        let a ← read vars
        return (a, vars)) := by
  refine ⟨_, _, _, load_var s, ?_, by simp [Opcode.isTerminator], ?_⟩
  · rw [htype]
    exact .temp _ (by simp [State.add])
  · intro σ vars hvars
    obtain ⟨a, ha, hvalue⟩ := hread vars σ.locals hvars
    have hexec : Instr.exec u ⟨.move, none, [.temp ⟨s.temps.length, v.type⟩, .var v]⟩ σ
        = .next (σ.setTemp s.temps.length a.toInt) := by
      show Effect.next (σ.setTemp s.temps.length (u.wrap v.type (σ.locals v.index))) = _
      rw [htype, hvalue]
    simp only [ha]
    refine ⟨_, runCode_singleton hexec, ⟨a.toInt, ?_, rfl⟩, hvars, keeps_setTemp _ σ _⟩
    simp [Operand.value]

/-- A step of lowering after another, given the operand that the first one has come to. -/
theorem Lowers.bind {x : Lower Operand} {z : Operand → Lower Operand} {form' : Nat → Operand → Prop}
    {worth' : β → Int → Prop} (evalZ : α → Vars → Eval (β × Vars))
    (hx : Lowers u s rel x form worth eval)
    (hz : ∀ temps code v, form (s.add temps code).temps.length v →
      ∃ w temps' code', z v (s.add temps code) = .ok (w, (s.add temps code).add temps' code') ∧
        form' ((s.add temps code).add temps' code').temps.length w ∧
        (∀ i ∈ code', i.op.isTerminator = false) ∧
        ∀ σ vars a, rel vars σ.locals → (∃ k, v.value u σ = some k ∧ worth a k) →
          Computes u code' σ (evalZ a vars) (Evaluated u (s.add temps code) rel worth' w σ)) :
    Lowers u s rel (x >>= z) form' worth' (fun vars => do
        let (a, vars) ← eval vars
        evalZ a vars) := by
  obtain ⟨v, temps, code, hv, hform, hplain, hrun⟩ := hx
  obtain ⟨w, temps', code', hw, hform', hplain', hrun'⟩ := hz temps code v hform
  rw [State.add_add] at hw hform'
  refine ⟨w, temps ++ temps', code ++ code', ?_, hform', ?_, ?_⟩
  · rw [bind_eq hv, hw]
  · simp only [List.mem_append]
    rintro i (hi | hi)
    · exact hplain i hi
    · exact hplain' i hi
  · intro σ vars hvars
    refine Computes.bind (hrun σ vars hvars) ?_
    rintro ⟨a, vars1⟩ σ1 ⟨hvalue, hvars1, hkeeps1⟩
    refine (hrun' σ1 vars1 a hvars1 hvalue).mono fun p σ' h => ?_
    exact ⟨h.value, h.vars, hkeeps1.trans h.keeps (by simp [State.add])⟩

/-! ## Operations -/

/-- The type of the result of an operation on numbers. -/
def opType (op : Opcode) : Ty := if op.isCompare then .bool else .int

theorem emitBinary_values {env : Env} {op : Opcode} (hx : IsValue n x) (hy : IsValue m y) (s : State) :
    emitBinary env op x y s = .ok (.temp ⟨s.temps.length, opType op⟩,
      s.add [⟨s.temps.length, opType op⟩] [⟨op, some ⟨s.temps.length, opType op⟩, [x, y]⟩]) := by
  have htype : resultType op x y = opType op := by
    rw [resultType, hx.type, hy.type]
    rfl
  unfold emitBinary
  rw [hx.balance hy]
  dsimp only
  rw [htype]
  rfl

/-- An operation of the intermediate code comes to what one of the source does. -/
def Implements (u : Universe) (op : Opcode) (worth : α → Int → Prop)
    (combine : Int32 → Int32 → Eval α) : Prop :=
  ∀ a b, match combine a b with
    | .ok c => ∃ w, compute u op .int .int (opType op) a.toInt b.toInt = .value w ∧ worth c w
    | .error .fault => compute u op .int .int (opType op) a.toInt b.toInt = .fault
    | .error _ => False

/-- A step of lowering that makes a result of two operands. -/
def Combines (u : Universe) (rel : Relation) (z : Operand → Operand → Lower Operand)
    (form : Nat → Operand → Prop) (worth : α → Int → Prop) (combine : Int32 → Int32 → Eval α) : Prop :=
  ∀ s x y, IsValue s.temps.length x → IsValue s.temps.length y →
    ∃ v temps code, z x y s = .ok (v, s.add temps code) ∧ form (s.add temps code).temps.length v ∧
      (∀ i ∈ code, i.op.isTerminator = false) ∧
      ∀ σ vars a b, rel vars σ.locals → x.value u σ = some a.toInt → y.value u σ = some b.toInt →
        Computes u code σ (do return (← combine a b, vars)) (Evaluated u s rel worth v σ)

theorem Combines.flip {combine : Int32 → Int32 → Eval α} (h : Combines u rel z form worth combine) :
    Combines u rel (fun x y => z y x) form worth (fun a b => combine b a) := by
  intro s x y hx hy
  obtain ⟨v, temps, code, hz, hform, hplain, hcomputes⟩ := h s y x hy hx
  exact ⟨v, temps, code, hz, hform, hplain, fun σ vars a b hvars ha hb => hcomputes σ vars b a hvars hb ha⟩

/-- A literal on the right may be given its type again. -/
theorem Combines.coerce {combine : Int32 → Int32 → Eval α} (h : Combines u rel z form worth combine)
    (types : Universe) :
    Combines u rel (fun x y => z x (Lowering.coerce types y .int)) form worth combine := by
  intro s x y hx hy
  obtain ⟨v, temps, code, hz, hrest⟩ := h s x y hx hy
  exact ⟨v, temps, code, by simpa only [hy.coerce] using hz, hrest⟩

theorem emitBinary_combines (env : Env) {op : Opcode} {combine : Int32 → Int32 → Eval α}
    (himpl : Implements u op worth combine) (hop : op.isTerminator = false)
    (hform : ∀ k, form (k + 1) (.temp ⟨k, opType op⟩)) :
    Combines u rel (emitBinary env op) form worth combine := by
  intro s x y hx hy
  refine ⟨_, _, _, emitBinary_values hx hy s, ?_, by simpa using hop, ?_⟩
  · have hlen := hform s.temps.length
    simpa [State.add] using hlen
  · intro σ vars a b hvars ha hb
    have hexec := Instr.exec_binary u op ⟨s.temps.length, opType op⟩ x y σ
    rw [ha, hb, hx.type, hy.type] at hexec
    have himpl := himpl a b
    cases hc : combine a b with
    | ok c =>
      rw [hc] at himpl
      obtain ⟨w, hw, hworth⟩ := himpl
      simp only [Effect.withValue, hw] at hexec
      refine ⟨_, runCode_singleton hexec, ⟨w, ?_, hworth⟩, hvars, keeps_setTemp _ σ _⟩
      simp [Operand.value]
    | error halt =>
      rw [hc] at himpl
      cases halt with
      | fault =>
        show runCode u _ σ = .fault
        rw [runCode, hexec]
        simp only [Effect.withValue, himpl]
      | _ => exact himpl.elim

/-- The operations of the source on numbers. -/
theorem arith_combines (env : Env) {op : String} (h : op ∈ arithOps) :
    ∃ code, Opcode.ofOperator? op = some code ∧ code.isCompare = false ∧
      Combines u rel (emitBinary env code) IsValue IsNumber (applyOp op) := by
  obtain ⟨code, hcode, hcompare, hterm⟩ := ofOperator_arith h
  have htype : opType code = .int := by rw [opType, hcompare]; rfl
  refine ⟨code, hcode, hcompare, emitBinary_combines env ?_ hterm ?_⟩
  · intro a b
    have hcompute := compute_applyOp u h hcode a b
    rw [htype]
    rcases applyOp_arith h a b with ⟨c, hc⟩ | hc
    · rw [hc] at hcompute
      simp only [hc]
      exact ⟨c.toInt, hcompute, rfl⟩
    · rw [hc] at hcompute
      simp only [hc]
      exact hcompute
  · intro k
    rw [htype]
    exact .temp k (Nat.lt_succ_self k)

/-- The comparisons of the source. -/
theorem compare_combines (env : Env) {op : String} (h : op ∈ compareOps) :
    ∃ code, Opcode.ofOperator? op = some code ∧ Combines u rel (emitBinary env code) IsCondition IsTruth
        fun a b => expect (compareOp op a b) := by
  obtain ⟨code, -, hcode, hcompare, -, -⟩ := compute_compareOp u h 0 0
  have htype : opType code = .bool := by rw [opType, hcompare]; rfl
  have hterm : code.isTerminator = false := by
    cases code <;> first
      | rfl
      | cases hcompare
  refine ⟨code, hcode, emitBinary_combines env ?_ hterm fun _ => trivial⟩
  intro a b
  obtain ⟨code', c, hcode', -, hc, hcompute⟩ := compute_compareOp u h a b
  obtain rfl : code = code' := Option.some.inj (hcode.symm.trans hcode')
  simp only [htype, hc]
  refine ⟨_, hcompute, ?_⟩
  cases c <;> rfl

/-- Two operands, one after the other, and what is made of them. -/
theorem Lowers.combine {x y : Lower Operand} {evalX evalY : Vars → Eval (Int32 × Vars)}
    {combine : Int32 → Int32 → Eval α} (hx : Lowers u s rel x IsValue IsNumber evalX)
    (hy : ∀ temps code, Lowers u (s.add temps code) rel y IsValue IsNumber evalY)
    (hz : Combines u rel z form worth combine) :
    Lowers u s rel (do z (← x) (← y)) form worth (fun vars => do
        let (a, vars) ← evalX vars
        let (b, vars) ← evalY vars
        let c ← combine a b
        return (c, vars)) := by
  obtain ⟨l, temps1, code1, hl, hlform, hlplain, hlrun⟩ := hx
  obtain ⟨r, temps2, code2, hr, hrform, hrplain, hrrun⟩ := hy temps1 code1
  have hle : (s.add temps1 code1).temps.length ≤ ((s.add temps1 code1).add temps2 code2).temps.length := by
    simp [State.add]
  have hle1 : s.temps.length ≤ (s.add temps1 code1).temps.length := by
    simp [State.add]
  obtain ⟨v, temps3, code3, hv, hvform, hvplain, hvrun⟩ :=
    hz ((s.add temps1 code1).add temps2 code2) l r (hlform.mono hle) hrform
  have hadd : ((s.add temps1 code1).add temps2 code2).add temps3 code3
      = s.add (temps1 ++ (temps2 ++ temps3)) (code1 ++ (code2 ++ code3)) := by
    rw [State.add_add, State.add_add]
  rw [hadd] at hv hvform
  refine ⟨v, temps1 ++ (temps2 ++ temps3), code1 ++ (code2 ++ code3), ?_, hvform, ?_, ?_⟩
  · rw [bind_eq hl, bind_eq hr]
    exact hv
  · simp only [List.mem_append]
    rintro i (hi | hi | hi)
    · exact hlplain i hi
    · exact hrplain i hi
    · exact hvplain i hi
  · intro σ vars hvars
    refine Computes.bind (hlrun σ vars hvars) ?_
    rintro ⟨a, vars1⟩ σ1 ⟨⟨_, hlvalue, rfl⟩, hvars1, hkeeps1⟩
    refine Computes.bind (hrrun σ1 vars1 hvars1) ?_
    rintro ⟨b, vars2⟩ σ2 ⟨⟨_, hrvalue, rfl⟩, hvars2, hkeeps2⟩
    have hlvalue2 : l.value u σ2 = some a.toInt := (hlform.value_eq hkeeps2).trans hlvalue
    refine (hvrun σ2 vars2 a b hvars2 hlvalue2 hrvalue).mono ?_
    intro p σ' h
    have hkeeps : Keeps s.temps.length (· ∈ indices s.scopes) σ σ2 := hkeeps1.trans hkeeps2 hle1
    exact ⟨h.value, h.vars, hkeeps.trans h.keeps (Nat.le_trans hle1 hle)⟩

/-! ## Names -/

variable {env : Env} {name : String} {v : Local}

theorem readName_lowers (env : Env) (hscopes : IntScopes n s.scopes) (hv : lookupIn s.scopes name = some v) :
    Lowers u s (Matches s.scopes) (readName env name) IsValue IsNumber (fun vars => do
        let a ← expect (vars.get? name)
        return (a, vars)) := by
  have hread : readName env name s = load (.var v) s := by
    have hlookup : lookup name s = .ok (some v, s) := by rw [lookup, hv]
    exact bind_eq hlookup
  refine Lowers.of_imp (load_lowers (fun vars => expect (vars.get? name)) (hscopes.type hv) ?_)
    (fun w s' h => hread.trans h)
  intro vars values hvars
  obtain ⟨a, ha, hvalue⟩ := Matches.get hvars hv
  exact ⟨a, by rw [ha]; rfl, by rw [hvalue, wrap_toInt]⟩

theorem assignName_value (hscopes : IntScopes n s.scopes) (hv : lookupIn s.scopes name = some v)
    (hx : IsValue m x) :
    assignName env name x s = .ok (x, s.add [] [⟨.move, none, [.var v, x]⟩]) := by
  have hlookup : lookup name s = .ok (some v, s) := by rw [lookup, hv]
  rw [assignName, bind_eq hlookup]
  dsimp only
  rw [hscopes.type hv, hx.coerce, bind_eq (emit_eq _ _ _ _)]
  rfl

/-- An assignment to a variable in scope. -/
theorem exec_move_var (htype : v.type = .int) {a : Int32} (hx : x.value u σ = some a.toInt) :
    Instr.exec u ⟨.move, none, [.var v, x]⟩ σ = .next (σ.setLocal v.index a.toInt) := by
  show Effect.withValue (x.value u σ) (fun a => .next (σ.setLocal v.index (u.wrap v.type a))) = _
  rw [hx, htype]
  simp only [Effect.withValue, wrap_toInt]

theorem keeps_setLocal {i : Nat} (h : changed i) (σ : Store) (w : Int) :
    Keeps n changed σ (σ.setLocal i w) := by
  refine ⟨fun _ _ => rfl, fun j hj => ?_⟩
  have hne : j ≠ i := fun he => hj (he ▸ h)
  rw [Store.setLocal_locals, if_neg hne]

theorem Lowers.assign (env : Env) {x : Lower Operand} {eval : Vars → Eval (Int32 × Vars)}
    (h : Lowers u s (Matches s.scopes) x IsValue IsNumber eval) (hscopes : IntScopes n s.scopes)
    (hv : lookupIn s.scopes name = some v) :
    Lowers u s (Matches s.scopes) (x >>= assignName env name) IsValue IsNumber (fun vars => do
        let (a, vars) ← eval vars
        return (a, vars.set name a)) := by
  refine h.bind (fun a vars => .ok (a, vars.set name a)) fun temps code w hw =>
    ⟨w, [], _, assignName_value hscopes hv hw, ?_, by simp [Opcode.isTerminator], ?_⟩
  · rw [State.add_add, List.append_nil]
    exact hw
  · rintro σ vars a hvars ⟨_, hvalue, rfl⟩
    have hkeeps : Keeps (s.add temps code).temps.length (· ∈ indices s.scopes) σ
        (σ.setLocal v.index a.toInt) := keeps_setLocal (index_mem hv) σ a.toInt
    exact ⟨_, runCode_singleton (exec_move_var (hscopes.type hv) hvalue),
      ⟨a.toInt, (hw.value_eq hkeeps).trans hvalue, rfl⟩, hvars.set hscopes hv a, hkeeps⟩

/-! ## Expressions -/

variable {e : Expr} {p : Position} {op : String} {l r : Expr} {s' : State}

theorem lowerValue_of_lowerExpr (h : lowerExpr env e s = .ok (some w, s')) :
    lowerValue env e s = .ok (w, s') :=
  bind_eq h

theorem lowerValue_binary {code : Opcode} (hcode : Opcode.ofOperator? op = some code)
    (h : (do emitBinary env code (← lowerValue env l) (← lowerValue env r) : Lower Operand) s
      = .ok (w, s')) : lowerValue env (.binary p op l r) s = .ok (w, s') := by
  obtain ⟨x, s1, hx, h⟩ := Lower.bind_ok h
  obtain ⟨y, s2, hy, h⟩ := Lower.bind_ok h
  rw [lowerValue] at hx hy
  refine lowerValue_of_lowerExpr ?_
  rw [lowerExpr, hcode]
  dsimp only
  rw [bind_eq (Lower.within_eq hx), bind_eq (Lower.within_eq hy), bind_eq h]
  rfl

theorem lowerValue_assign {q : Position} (h : (lowerValue env e >>= assignName env name) s = .ok (w, s')) :
    lowerValue env (.assign p (.ident q name) e) s = .ok (w, s') := by
  obtain ⟨x, s1, hx, h⟩ := Lower.bind_ok h
  rw [lowerValue] at hx
  refine lowerValue_of_lowerExpr ?_
  rw [lowerExpr, bind_eq (Lower.within_eq hx), bind_eq h]
  rfl

/-- A number other than a literal is subtracted from zero. -/
theorem lowerValue_negate {s1 : State} (he : ∀ q value, e ≠ .int q value)
    (hx : lowerValue env e s = .ok (x, s1)) (htype : x.type = .int)
    (h : emitBinary env .sub (.int 0 .int) x s1 = .ok (w, s')) :
    lowerValue env (.unary p "-" e) s = .ok (w, s') := by
  rw [lowerValue] at hx
  refine lowerValue_of_lowerExpr ?_
  rw [lowerExpr, if_neg (by simp), if_pos (by simp)]
  · rw [bind_eq hx, htype, bind_eq h]
    rfl
  · exact he

theorem isSmall_neg (h : isSmall value) : isSmall (-value) := by
  rw [isSmall, Bool.and_eq_true, decide_eq_true_eq, decide_eq_true_eq, Int64.le_iff_toInt_le,
    Int64.le_iff_toInt_le] at h ⊢
  have h1 : (-2147483647 : Int64).toInt = -2147483647 := by decide
  have h2 : (2147483647 : Int64).toInt = 2147483647 := by decide
  have hneg : (-value).toInt = -value.toInt := by
    rw [Int64.toInt_neg]
    exact Int.bmod_eq_of_le (by omega) (by omega)
  omega

theorem negated_literal_lowers (env : Env) (p q : Position) (h : isSmall value) :
    Lowers u s rel (lowerValue env (.unary p "-" (.int q value))) IsValue IsNumber
      (evalExpr (.unary p "-" (.int q value))) := by
  have hliteral : Lowers u s rel (pure (.int (-value) .int)) IsValue IsNumber _ :=
    literal_lowers (-value)
  rw [Int64.toInt32_neg] at hliteral
  refine hliteral.of_imp fun v s' hv => lowerValue_of_lowerExpr ?_
  rw [lowerExpr, if_neg (by simp), if_pos (by simp), literal_of_isSmall (isSmall_neg h)]
  obtain ⟨rfl, rfl⟩ := Lower.pure_ok hv
  rfl

theorem Lowers.negate (h : Lowers u s rel (lowerValue env e) IsValue IsNumber (evalExpr e))
    (he : ∀ q value, e ≠ .int q value) :
    Lowers u s rel (lowerValue env (.unary p "-" e)) IsValue IsNumber (evalExpr (.unary p "-" e)) := by
  obtain ⟨code, hcode, -, hcombines⟩ := arith_combines env (show "-" ∈ arithOps by decide)
  obtain rfl : Opcode.sub = code := Option.some.inj hcode
  have hsub : Lowers u s rel (lowerValue env e >>= emitBinary env .sub (.int 0 .int)) IsValue IsNumber
      (fun vars => do
        let (a, vars) ← evalExpr e vars
        return (-a, vars)) := by
    refine h.bind (fun a vars => .ok (-a, vars)) fun temps code v hv => ?_
    obtain ⟨w, temps', code', hw, hform, hplain, hrun⟩ :=
      hcombines (s.add temps code) (.int 0 .int) v (.literal 0) hv
    refine ⟨w, temps', code', hw, hform, hplain, ?_⟩
    rintro σ vars a hvars ⟨_, hvalue, rfl⟩
    have hzero : applyOp "-" 0 a = .ok (-a) := congrArg Except.ok (Int32.zero_sub a)
    have hcomputes := hrun σ vars 0 a hvars (value_literal 0 σ) hvalue
    rw [hzero] at hcomputes
    exact hcomputes
  obtain ⟨x, temps, code, hx, hform, -, -⟩ := h
  refine hsub.of_imp fun w s' hw => ?_
  rw [bind_eq hx] at hw
  exact lowerValue_negate he hx hform.type hw

/-- Lowering an expression succeeds, and its code computes what the expression evaluates to. -/
theorem lowerExpr_computes (env : Env) : ∀ (e : Expr) {s : State},
    e.isArith vis → Sees vis s.scopes → IntScopes n s.scopes →
    Lowers env.types s (Matches s.scopes) (lowerValue env e) IsValue IsNumber (evalExpr e)
  | .int p value, s, h, _, _ => by
    refine (literal_lowers value).of_imp fun v s' hv => lowerValue_of_lowerExpr ?_
    rw [lowerExpr, literal_of_isSmall h]
    obtain ⟨rfl, rfl⟩ := Lower.pure_ok hv
    rfl
  | .ident p name, s, h, hsees, hscopes => by
    obtain ⟨v, hv⟩ := hsees name (by simpa [Expr.isArith] using h)
    refine (readName_lowers env hscopes hv).of_imp fun w s' hw => lowerValue_of_lowerExpr ?_
    rw [lowerExpr, bind_eq hw]
    rfl
  | .binary p op l r, s, h, hsees, hscopes => by
    rw [Expr.isArith, Bool.and_eq_true, Bool.and_eq_true, List.contains_iff_mem] at h
    obtain ⟨⟨hop, hl⟩, hr⟩ := h
    obtain ⟨code, hcode, -, hcombines⟩ := arith_combines env hop
    exact (Lowers.combine (lowerExpr_computes env l hl hsees hscopes)
      (fun _ _ => lowerExpr_computes env r hr hsees hscopes) hcombines).of_imp
      fun v s' hv => lowerValue_binary hcode hv
  | .unary p op x, s, h, hsees, hscopes => by
    rw [Expr.isArith, Bool.and_eq_true, beq_iff_eq] at h
    obtain ⟨rfl, h⟩ := h
    by_cases hx : ∃ q value, x = .int q value
    · obtain ⟨q, value, rfl⟩ := hx
      exact negated_literal_lowers env p q h
    · exact (lowerExpr_computes env x h hsees hscopes).negate fun q value he => hx ⟨q, value, he⟩
  | .assign p (.ident q name) value, s, h, hsees, hscopes => by
    rw [Expr.isArith, Bool.and_eq_true] at h
    obtain ⟨v, hv⟩ := hsees name (by simpa using h.1)
    exact ((lowerExpr_computes env value h.2 hsees hscopes).assign env hscopes hv).of_imp fun w s' hw => lowerValue_assign hw

/-! ## Conditions -/

/-- A number is true unless it is zero. -/
theorem Lowers.truth {x : Lower Operand} {eval : Vars → Eval (Int32 × Vars)}
    (h : Lowers u s rel x form IsNumber eval) :
    Lowers u s rel x IsCondition IsTruth (fun vars => do
        let (a, vars) ← eval vars
        return (a != 0, vars)) := by
  obtain ⟨v, temps, code, hv, -, hplain, hrun⟩ := h
  refine ⟨v, temps, code, hv, trivial, hplain, ?_⟩
  intro σ vars hvars
  rw [← List.append_nil code]
  refine Computes.bind (hrun σ vars hvars) ?_
  rintro ⟨a, vars1⟩ σ1 ⟨⟨_, hvalue, rfl⟩, hvars1, hkeeps1⟩
  refine ⟨σ1, rfl, ⟨a.toInt, hvalue, ?_⟩, hvars1, hkeeps1⟩
  have hzero : a.toInt = 0 ↔ a = 0 := by
    rw [← Int32.toInt_inj]
    exact Iff.rfl
  simp [IsTruth, bne, BEq.beq, hzero]

/-- Lowering a condition succeeds, and its code computes whether the condition holds. -/
theorem lowerCond_computes (env : Env) (h : e.isCondition vis) (hsees : Sees vis s.scopes)
    (hscopes : IntScopes n s.scopes) :
    Lowers env.types s (Matches s.scopes) (lowerValue env e) IsCondition IsTruth (evalCond e) := by
  by_cases hcompare : ∃ p op l r, e = .binary p op l r ∧ op ∈ compareOps
  · obtain ⟨p, op, l, r, rfl, hop⟩ := hcompare
    have hcontains : compareOps.contains op := List.contains_iff_mem.mpr hop
    rw [Expr.isCondition, if_pos hcontains, Bool.and_eq_true] at h
    obtain ⟨code, hcode, hcombines⟩ := compare_combines env hop
    have hboth := Lowers.combine (lowerExpr_computes env l h.1 hsees hscopes)
      (fun _ _ => lowerExpr_computes env r h.2 hsees hscopes) hcombines
    unfold evalCond
    simp only [if_pos hcontains]
    exact hboth.of_imp fun v s' hv => lowerValue_binary hcode hv
  · have harith : e.isArith vis ∧ evalCond e = fun vars => do
        let (a, vars) ← evalExpr e vars
        return (a != 0, vars) := by
      cases e with
      | binary p op l r =>
        have hcontains : ¬ compareOps.contains op := by
          intro hop
          exact hcompare ⟨p, op, l, r, rfl, List.contains_iff_mem.mp hop⟩
        rw [Expr.isCondition, if_neg hcontains] at h
        refine ⟨h, ?_⟩
        funext vars
        rw [evalCond, if_neg hcontains]
      | _ => exact ⟨h, rfl⟩
    rw [harith.2]
    exact (lowerExpr_computes env e harith.1 hsees hscopes).truth

end TreeAsm.Meaning
