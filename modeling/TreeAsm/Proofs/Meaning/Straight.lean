import TreeAsm.Proofs.Meaning.Blocks

/-!
# What lowered statements do

Lowering a statement succeeds, and the finished function does from the place before the statement to
the place after it what the evaluation of the statement does (`Executes`). Here this is said, and
shown for the statements without branches: assignments, declarations, returns, and statements one
after the other or in a scope of their own.
-/

namespace TreeAsm.Meaning

open Ir Lowering
open Program (Arm Eval Expr Halt Stmt TypeRef Vars applyOp arithOps assigned compoundOp countAdvance countTest
  evalArms evalBlock evalCond evalExpr evalOptional evalStmt evalStmts expect isStep iterate
  literalStep setOps)
open Lower (bind_eq bind_ok within_eq)

variable {α γ : Type} {u : Universe} {s s' s'' : State} {vis : List String} {σ : Store} {n : Nat}

/-! ## States before and after a statement -/

/-- A variable that no name in scope stands for. -/
def Unnamed (s : State) (i : Nat) : Prop := i < s.locals.length ∧ i ∉ indices s.scopes

/-- A state at which statements can be lowered that see some names. -/
structure Ready (vis : List String) (s : State) : Prop where
  sees : Sees vis s.scopes
  scopes : IntScopes s.locals.length s.scopes

/-- Lowering has gone on: the scopes around the innermost one are the same, names in scope stand for
the variables they stood for or for new ones, and what has been lowered stays. -/
structure Follows (s s' : State) : Prop where
  locals : s.locals.length ≤ s'.locals.length
  outer : s'.scopes.drop 1 = s.scopes.drop 1
  fresh : ∀ i ∈ indices s'.scopes, i ∈ indices s.scopes ∨ s.locals.length ≤ i
  within : ∀ blocks, s'.Within blocks → s.Within blocks

theorem Follows.refl (s : State) : Follows s s :=
  ⟨Nat.le_refl _, rfl, fun _ hi => .inl hi, fun _ h => h⟩

theorem Follows.trans (h : Follows s s') (h' : Follows s' s'') : Follows s s'' := by
  refine ⟨Nat.le_trans h.locals h'.locals, h'.outer.trans h.outer, ?_,
    fun blocks hb => h.within blocks (h'.within blocks hb)⟩
  intro i hi
  rcases h'.fresh i hi with hi | hi
  · exact h.fresh i hi
  · exact .inr (Nat.le_trans h.locals hi)

theorem Follows.unnamed (h : Follows s s') {i : Nat} (hi : Unnamed s i) : Unnamed s' i := by
  refine ⟨Nat.lt_of_lt_of_le hi.1 h.locals, fun hmem => ?_⟩
  rcases h.fresh i hmem with hmem | hle
  · exact hi.2 hmem
  · exact absurd hi.1 (Nat.not_lt.mpr hle)

/-- A later state with the same scopes is as ready. -/
theorem Ready.follow (h : Ready vis s) (hf : Follows s s') (hscopes : s'.scopes = s.scopes) :
    Ready vis s' :=
  ⟨hscopes ▸ h.sees, hscopes ▸ h.scopes.mono hf.locals⟩

theorem follows_add (s : State) (temps : List Temp) (code : List Instr) : Follows s (s.add temps code) :=
  ⟨Nat.le_refl _, rfl, fun _ hi => .inl hi, fun _ h => h.of_add⟩

theorem follows_opened (s : State) (label : String) : Follows s (s.opened label) :=
  ⟨Nat.le_refl _, rfl, fun _ hi => .inl hi, fun _ h => h.of_opened⟩

/-- A state after a label has been taken. -/
def skipLabel (s : State) : State := { s with nextLabel := s.nextLabel + 1 }

@[simp] theorem skipLabel_scopes (s : State) : (skipLabel s).scopes = s.scopes := rfl

@[simp] theorem skipLabel_locals (s : State) : (skipLabel s).locals = s.locals := rfl

theorem freshLabel_eq (s : State) : freshLabel s = .ok (blockLabel s.nextLabel, skipLabel s) := rfl

theorem follows_skipLabel (s : State) : Follows s (skipLabel s) :=
  ⟨Nat.le_refl _, rfl, fun _ hi => .inl hi, fun _ h => h⟩

/-- The values at the place of `s'`, reached from the values `σ` at the place of `s`: the variables
correspond, and those without a name are as before. -/
structure Near (s : State) (scopes : List Scope) (values : Nat → Int) (vars : Vars)
    (values' : Nat → Int) : Prop where
  vars : Matches scopes vars values'
  unnamed : ∀ i, Unnamed s i → values' i = values i

/-- A run has come to the end of a statement. -/
def Reached (s s' : State) (σ : Store) (vars : Vars) (c : ExecState) : Prop :=
  ∃ σ', c = s'.here σ' ∧ s'.block.isTerminated = false ∧ Near s s'.scopes σ.locals vars σ'.locals

/-- Lowering succeeds, and the code does what an evaluation does, where `pre` ties something that the
evaluation depends on to the values at its start. Control reaches the end unless lowering says
otherwise. -/
def ExecutesFrom (u : Universe) (s : State) (x : Lower Bool) (after : State → Prop)
    (pre : γ → Store → Prop) (eval : γ → Nat → Vars → Eval Vars) : Prop :=
  ∃ ends s', x s = .ok (ends, s') ∧ s'.block.isTerminated = ends ∧ Follows s s' ∧ after s' ∧
    ∀ blocks, Labelled blocks → s'.Within blocks → s.block.isTerminated = false →
      ∀ n σ vars, Matches s.scopes vars σ.locals → ∀ g, pre g σ →
        Simulates u blocks n (s.here σ) (eval g n vars) (Reached s s' σ)

/-- Lowering succeeds, and the code does what an evaluation does. -/
def Executes (u : Universe) (s : State) (x : Lower Bool) (after : State → Prop)
    (eval : Nat → Vars → Eval Vars) : Prop :=
  ExecutesFrom u s x after (fun (_ : Unit) _ => True) fun _ => eval

variable {ref : TypeRef} {x : Lower Bool} {after after' : State → Prop} {pre : γ → Store → Prop}
  {eval : γ → Nat → Vars → Eval Vars}

theorem ExecutesFrom.of_imp {y : Lower Bool} (h : ExecutesFrom u s x after pre eval)
    (himp : ∀ ends s', x s = .ok (ends, s') → y s = .ok (ends, s'))
    (hafter : ∀ s', Follows s s' → after s' → after' s') : ExecutesFrom u s y after' pre eval := by
  obtain ⟨ends, s', hx, hterm, hfollows, hafter', hrun⟩ := h
  exact ⟨ends, s', himp ends s' hx, hterm, hfollows, hafter s' hfollows hafter', hrun⟩

/-- A statement that is straight code. -/
theorem Lowers.executes {x : Lower Operand} {form : Nat → Operand → Prop} {worth : α → Int → Prop}
    {eval : Vars → Eval (α × Vars)} (h : Lowers u s (Matches s.scopes) x form worth eval)
    (hterm : s.block.isTerminated = false) :
    Executes u s (do let _ ← x; return false) (fun s' => s'.scopes = s.scopes) (fun _ vars => do
        let (_, vars) ← eval vars
        return vars) := by
  obtain ⟨v, temps, code, hx, -, hplain, hrun⟩ := h
  refine ⟨false, s.add temps code, ?_, isTerminated_add hplain hterm, follows_add s temps code, rfl, ?_⟩
  · rw [bind_eq hx]
    rfl
  · intro blocks _ hwithin _ n σ vars hvars _ _
    refine ((hrun σ vars hvars).simulates hwithin).bind ?_
    rintro ⟨a, vars'⟩ c ⟨σ', rfl, h⟩
    exact ⟨0, _, rfl, σ', rfl, isTerminated_add hplain hterm, h.vars, fun i hi => h.keeps.locals i hi.2⟩

/-! ## Assignments -/

variable (env : Env) {name op : String} {e : Expr} {p : Position}

/-- The operation of an assignment that is not a plain one. -/
theorem compoundOp_eq_some (h : op ∈ setOps) (hop : op ≠ "=") :
    ∃ aop ∈ arithOps, compoundOp op = some aop ∧ (op == "=" || op == "") = false ∧
      ∀ code, Opcode.ofOperator? aop = some code → setOpcode? op = some code := by
  simp only [setOps, List.mem_cons, List.not_mem_nil, or_false] at h
  rcases h with rfl | rfl | rfl | rfl | rfl | rfl
  · exact absurd rfl hop
  · exact ⟨"+", by decide, rfl, by decide, fun code h => by cases h; decide⟩
  · exact ⟨"-", by decide, rfl, by decide, fun code h => by cases h; decide⟩
  · exact ⟨"*", by decide, rfl, by decide, fun code h => by cases h; decide⟩
  · exact ⟨"/", by decide, rfl, by decide, fun code h => by cases h; decide⟩
  · exact ⟨"&", by decide, rfl, by decide, fun code h => by cases h; decide⟩

/-- The value that an assignment assigns. The value on the right is there before the variable is
read. -/
theorem setValue_lowers (hready : Ready vis s) (hname : name ∈ vis) (hop : op ∈ setOps)
    (he : e.isArith vis) :
    Lowers env.types s (Matches s.scopes) (lowerValue env e >>= setValue env name op) IsValue IsNumber
      (fun vars => do
        let (v, vars) ← evalExpr e vars
        let v ← assigned op name v vars
        return (v, vars)) := by
  obtain ⟨v, hv⟩ := hready.sees name hname
  have hvalue := lowerExpr_computes env e he hready.sees hready.scopes
  by_cases hplain : op = "="
  · subst hplain
    refine hvalue.bind (fun a vars => .ok (a, vars)) fun temps code w hw =>
      ⟨w, [], [], ?_, ?_, by simp, ?_⟩
    · rw [State.add_nil]
      rfl
    · rw [State.add_nil]
      exact hw
    · rintro σ vars a hvars ⟨k, hk, hworth⟩
      exact ⟨σ, rfl, ⟨k, hk, hworth⟩, hvars, Keeps.refl σ⟩
  · obtain ⟨aop, haop, hcompound, hnot, hcode⟩ := compoundOp_eq_some hop hplain
    obtain ⟨code, hofop, -, hcombines⟩ := arith_combines env haop
    have hboth := Lowers.combine hvalue (fun _ _ => readName_lowers env hready.scopes hv) hcombines.flip
    have hset : setValue env name op = fun x =>
        readName env name >>= fun cur => emitBinary env code cur x := by
      funext x
      rw [setValue, hnot, hcode code hofop]
      rfl
    simp only [assigned, hcompound]
    simp only [bind_assoc, pure_bind] at hboth ⊢
    rw [hset]
    exact hboth

theorem lowerSet_executes (hready : Ready vis s) (hterm : s.block.isTerminated = false)
    (hname : name ∈ vis) (hop : op ∈ setOps) (he : e.isArith vis) :
    Executes env.types s (do lowerSet env name op e; return false) (fun s' => s'.scopes = s.scopes)
      (fun n => evalStmt n (.set p name op e)) := by
  obtain ⟨v, hv⟩ := hready.sees name hname
  have hexec := ((setValue_lowers env hready hname hop he).assign env hready.scopes hv).executes hterm
  simp only [bind_assoc, pure_bind] at hexec
  refine ExecutesFrom.of_imp hexec (fun ends s' h => ?_) fun s' _ h => h
  obtain ⟨x, s1, hx, h⟩ := bind_ok h
  obtain ⟨y, s2, hy, h⟩ := bind_ok h
  have hset : lowerSet env name op e s = _ := bind_eq (within_eq hx)
  rw [Lower.bind_apply, hset, bind_eq hy]
  obtain ⟨z, s3, hz, h⟩ := bind_ok h
  rw [bind_eq hz]
  exact h

/-! ## Declarations -/

/-- The next variable of a function, of type `int`. -/
def newVar (s : State) (name : String) : Local := ⟨s.locals.length, name, .int, false⟩

/-- A state with a new variable and a name for it. -/
def declared (s : State) (name : String) : State :=
  { s with
    locals := s.locals ++ [newVar s name]
    scopes := defineIn s.scopes name (newVar s name) }

theorem follows_declared (s : State) (name : String) : Follows s (declared s name) := by
  refine ⟨by simp [declared], ?_, ?_, fun _ h => h⟩
  · show (defineIn s.scopes name (newVar s name)).drop 1 = _
    cases s.scopes <;> rfl
  · intro i hi
    rw [declared, indices_defineIn] at hi
    rcases List.mem_cons.mp hi with rfl | hi
    · exact .inr (Nat.le_refl _)
    · exact .inl hi

theorem Ready.declared (h : Ready vis s) (name : String) : Ready (name :: vis) (declared s name) := by
  refine ⟨h.sees.defineIn name _, ?_⟩
  have hlen : (Meaning.declared s name).locals.length = s.locals.length + 1 := by
    simp [Meaning.declared]
  rw [hlen]
  exact h.scopes.defineIn name rfl rfl

/-- The first value of a new variable. -/
theorem declare_runs {x : Operand} {a : Int32} {vars : Vars} (hready : Ready vis s) (name : String)
    (hx : x.value u σ = some a.toInt) (hvars : Matches s.scopes vars σ.locals) :
    runCode u [⟨.move, none, [.var (newVar s name), x]⟩] σ = .next (σ.setLocal s.locals.length a.toInt) ∧
      Near s (declared s name).scopes σ.locals (vars.declare name a)
        (σ.setLocal s.locals.length a.toInt).locals := by
  have hnew : s.locals.length ∉ indices s.scopes := fun hmem =>
    absurd (hready.scopes.bound _ hmem) (Nat.lt_irrefl _)
  have hexec := exec_move_var (v := newVar s name) rfl hx
  refine ⟨runCode_singleton hexec, ?_, ?_⟩
  · exact hvars.declare (v := newVar s name) hnew name a
  · intro i hi
    rw [Store.setLocal_locals, if_neg (Nat.ne_of_lt hi.1)]

theorem resolveType_int (h : ref.isInt) (u : Universe) (m : Module) (ns : String) :
    resolveType u m ns ref = .ok .int := by
  obtain ⟨name, stars⟩ := ref
  rw [TypeRef.isInt, Bool.and_eq_true, Bool.or_eq_true, beq_iff_eq, beq_iff_eq, beq_iff_eq] at h
  obtain ⟨rfl | rfl, rfl⟩ := h
  · rfl
  · rfl

theorem typeOf_int (h : ref.isInt) (s : State) : typeOf env ref s = .ok (.int, s) := by
  rw [typeOf, resolveType_int h]

theorem isVoid_int (u : Universe) : u.isVoid .int = false := rfl

theorem checkValueType_int (u : Universe) : checkValueType u .int = .ok () := by
  rw [checkValueType, isVoid_int]
  cases u.fatStrings <;> rfl

theorem writtenType_int (name : String) (h : (ref.isMissing || ref.isInt)) (s : State) :
    ∃ t, writtenType env name ref s = .ok (t, s) ∧ (t = .untyped ∨ t = .int) := by
  unfold writtenType
  by_cases hmissing : ref.isMissing
  · rw [if_pos hmissing]
    exact ⟨.untyped, rfl, .inl rfl⟩
  · rw [if_neg hmissing]
    have hint : ref.isInt := (Bool.or_eq_true_iff.mp h).resolve_left hmissing
    exact ⟨.int, within_eq (typeOf_int env hint s), .inr rfl⟩

theorem lowerVar_eq (href : (ref.isMissing || ref.isInt)) {x : Operand} {m : Nat}
    (hform : IsValue m x) (hx : lowerValue env e s = .ok (x, s')) :
    lowerVar env name ref (some e) s = .ok ((),
      (declared s' name).add [] [⟨.move, none, [.var (newVar s' name), x]⟩]) := by
  obtain ⟨t, ht, hcases⟩ := writtenType_int env name href s
  have htype : variableType t (some x) = .int := by
    rcases hcases with rfl | rfl
    · simp [variableType, hform.type]
    · simp [variableType]
  have hvalue : initialValue env name (some e) s = .ok (some x, s') := by
    rw [initialValue, bind_eq (within_eq hx)]
    rfl
  have hcheck : Lower.within s!"var {name}" (Lower.lift (checkValueType env.types .int)) s'
      = .ok ((), s') := by
    exact within_eq (by simp only [Lower.lift, checkValueType_int])
  have hmove : addVariable env name .int (some x) s' = .ok ((), (declared s' name).add []
      [⟨.move, none, [.var (newVar s' name), coerce env.types x .int]⟩]) :=
    emit_eq _ _ _ (declared s' name)
  rw [lowerVar, bind_eq ht, bind_eq hvalue]
  simp only [htype]
  rw [bind_eq hcheck, hmove, hform.coerce]

/-- A declaration gives its variable the value of its expression. -/
theorem lowerVar_executes (hready : Ready vis s) (href : (ref.isMissing || ref.isInt))
    (he : e.isArith vis) :
    Executes env.types s (do lowerVar env name ref (some e); return false) (Ready (name :: vis))
      (fun n => evalStmt n (.var p name ref (some e))) := by
  obtain ⟨x, temps, code, hx, hform, hplain, hrun⟩ :=
    lowerExpr_computes env e he hready.sees hready.scopes
  have hready' : Ready vis (s.add temps code) := ⟨hready.sees, hready.scopes⟩
  have hdeclared := hready'.declared name
  have hterm' : ((declared (s.add temps code) name).add []
      [⟨.move, none, [.var (newVar (s.add temps code) name), x]⟩]).block.isTerminated = false :=
    isTerminated_add_singleton _ _ _
  refine ⟨false, _, ?_, hterm', ?_, ⟨hdeclared.sees, hdeclared.scopes⟩, ?_⟩
  · rw [bind_eq (lowerVar_eq env href hform hx)]
    rfl
  · exact ((follows_add s temps code).trans (follows_declared _ name)).trans (follows_add _ _ _)
  · intro blocks _ hwithin _ n σ vars hvars _ _
    have hwithin' : (s.add temps code).Within blocks := hwithin.of_add
    refine ((hrun σ vars hvars).simulates hwithin').bind ?_
    rintro ⟨a, vars'⟩ c ⟨σ', rfl, ⟨⟨_, hvalue, rfl⟩, hvars', hkeeps⟩⟩
    obtain ⟨hmove, hnear⟩ := declare_runs hready' name hvalue hvars'
    have hrun' := run_code (s := declared (s.add temps code) name) hwithin hmove
    refine ⟨_, _, hrun', _, rfl, hterm', hnear.vars, fun i hi => ?_⟩
    exact (hnear.unnamed i hi).trans (hkeeps.locals i hi.2)

/-! ## Returns -/

theorem lowerReturn_eq {x : Operand} {m : Nat} (hret : env.ret = .int) (hform : IsValue m x)
    (hx : lowerValue env e s = .ok (x, s')) :
    lowerReturn env (some e) s = .ok ((), s'.add [] [⟨.ret, none, [x]⟩]) := by
  rw [lowerReturn, hret, isVoid_int, if_neg Bool.false_ne_true, bind_eq (within_eq hx),
    hform.coerce, emit_eq]

/-- Control does not come back from a return. -/
theorem lowerReturn_executes (hret : env.ret = .int) (hready : Ready vis s) (he : e.isArith vis) :
    Executes env.types s (do lowerReturn env (some e); return true) (fun s' => s'.scopes = s.scopes)
      (fun n => evalStmt n (.return p (some e))) := by
  obtain ⟨x, temps, code, hx, hform, -, hrun⟩ :=
    lowerExpr_computes env e he hready.sees hready.scopes
  refine ⟨true, _, ?_, isTerminated_add_singleton (s.add temps code) [] ⟨.ret, none, [x]⟩,
    (follows_add s temps code).trans (follows_add _ _ _), rfl, ?_⟩
  · rw [bind_eq (lowerReturn_eq env hret hform hx)]
    rfl
  · intro blocks _ hwithin _ n σ vars hvars _ _
    refine ((hrun σ vars hvars).simulates hwithin.of_add).bind ?_
    rintro ⟨a, vars'⟩ c ⟨σ', rfl, ⟨⟨_, hvalue, rfl⟩, -, -⟩⟩
    refine ⟨1, ?_⟩
    rw [run, step_here hwithin, Instr.exec_ret hvalue]
    rfl

/-! ## Scopes and sequences -/

/-- A statement in a scope of its own. -/
theorem ExecutesFrom.inScope (h : ExecutesFrom u { s with scopes := [] :: s.scopes } x after pre eval) :
    ExecutesFrom u s (inScope x) (fun s' => s'.scopes = s.scopes) pre (fun g n vars => do
        let vars ← eval g n ([] :: vars)
        return vars.drop 1) := by
  obtain ⟨ends, s', hx, hterm, hfollows, -, hrun⟩ := h
  have houter : s'.scopes.drop 1 = s.scopes := hfollows.outer
  refine ⟨ends, { s' with scopes := s'.scopes.drop 1 }, ?_, hterm,
    ⟨hfollows.locals, ?_, ?_, fun blocks hb => hfollows.within blocks hb⟩, houter, ?_⟩
  · rw [Lowering.inScope, bind_eq (a := ()) (t := { s with scopes := [] :: s.scopes }) rfl, bind_eq hx]
    rfl
  · rw [houter]
  · intro i hi
    rw [houter] at hi
    exact .inl hi
  · intro blocks hlabels hwithin hopen n σ vars hvars g hg
    refine (hrun blocks hlabels hwithin hopen n σ ([] :: vars) hvars.nil_cons g hg).bind ?_
    rintro vars' c ⟨σ', rfl, hterm', hnear⟩
    exact ⟨0, _, rfl, σ', rfl, hterm', hnear.vars.drop, hnear.unnamed⟩

/-- One statement after another. -/
theorem Executes.seq {y : Bool → Lower Bool} {eval eval' : Nat → Vars → Eval Vars}
    (hx : Executes u s x after eval)
    (hy : ∀ ends s', s'.block.isTerminated = ends → Follows s s' → after s' →
      Executes u s' (y ends) after' eval') :
    Executes u s (x >>= y) after' (fun n vars => do
        let vars ← eval n vars
        eval' n vars) := by
  obtain ⟨ends, s1, hx, hterm1, hfollows1, hafter1, hrun1⟩ := hx
  obtain ⟨ends', s2, hy, hterm2, hfollows2, hafter2, hrun2⟩ := hy ends s1 hterm1 hfollows1 hafter1
  refine ⟨ends', s2, ?_, hterm2, hfollows1.trans hfollows2, hafter2, ?_⟩
  · rw [bind_eq hx, hy]
  · intro blocks hlabels hwithin hopen n σ vars hvars _ _
    have hwithin1 := hfollows2.within blocks hwithin
    refine (hrun1 blocks hlabels hwithin1 hopen n σ vars hvars () trivial).bind ?_
    rintro vars1 c ⟨σ1, rfl, hopen1, hnear1⟩
    refine (hrun2 blocks hlabels hwithin hopen1 n σ1 vars1 hnear1.vars () trivial).mono (Nat.le_refl n) ?_
    rintro vars2 c ⟨σ2, rfl, hopen2, hnear2⟩
    refine ⟨σ2, rfl, hopen2, hnear2.vars, fun i hi => ?_⟩
    exact (hnear2.unnamed i (hfollows1.unnamed hi)).trans (hnear1.unnamed i hi)

/-- What follows the end of a block gets a block of its own, which control does not reach. -/
theorem Executes.ensureOpen {eval : Nat → Vars → Eval Vars}
    (h : ∀ s', s'.block.isTerminated = false → Follows s s' → s'.scopes = s.scopes →
      Executes u s' x after eval) : Executes u s (do ensureOpen; x) after eval := by
  cases hterm : s.block.isTerminated with
  | false =>
    have hensure : Lowering.ensureOpen s = .ok ((), s) := by
      rw [Lowering.ensureOpen, bind_eq (a := false) (t := s) (by rw [terminated, hterm])]
      rfl
    refine ExecutesFrom.of_imp (h s hterm (Follows.refl s) rfl) (fun ends s' hx => ?_) fun _ _ ha => ha
    rw [bind_eq hensure, hx]
  | true =>
    have hensure : Lowering.ensureOpen s = .ok ((), (skipLabel s).opened (blockLabel s.nextLabel)) := by
      rw [Lowering.ensureOpen, bind_eq (a := true) (t := s) (by rw [terminated, hterm]), if_pos rfl,
        bind_eq (freshLabel_eq s), openBlock_eq]
    have hfollows := (follows_skipLabel s).trans (follows_opened _ (blockLabel s.nextLabel))
    obtain ⟨ends, s', hx, hterm', hfollows', hafter, -⟩ := h _ rfl hfollows rfl
    refine ⟨ends, s', ?_, hterm', hfollows.trans hfollows', hafter, ?_⟩
    · rw [bind_eq hensure, hx]
    · intro _ _ _ hopen
      exact absurd (hopen.symm.trans hterm) Bool.false_ne_true

end TreeAsm.Meaning
