import TreeAsm.Proofs.Meaning.Control

/-!
# What lowered counting loops do

A counting loop computes its end once, where its variable is in scope already. An end that is no
literal is kept in a variable that no name stands for, so that nothing in the body changes it
(`IsBound`). Its step is a literal; one that is negative makes the loop count down.
-/

namespace TreeAsm.Meaning

open Ir Lowering
open Lower (bind_eq)
open Program (Eval Expr Vars applyOp arithOps compareOps countAdvance countTest evalExpr expect isSmall isStep iterate
  literalStep)

variable {u : Universe} {s s' : State} {vis : List String} {n : Nat} {base : Nat → Int} {x : Operand}
  {var : String} {i : Local} {k : Int64}

/-! ## Ends and steps -/

/-- The end of a counting loop: a literal, or a variable that no name stands for. -/
inductive IsBound (s : State) : Operand → Prop
  | literal (value : Int64) : IsBound s (.int value .int)
  | hidden (v : Local) (htype : v.type = .int) (h : Unnamed s v.index) : IsBound s (.var v)

/-- The number that the end of a counting loop is. -/
def boundOf (x : Operand) (values : Nat → Int) : Int32 :=
  match x with
  | .int value _ => value.toInt32
  | .var v => Int32.ofInt (values v.index)
  | _ => 0

theorem load_bound_lowers (h : IsBound s x) : Lowers u s' (Near s s.scopes base) (load x) IsValue IsNumber
      (fun vars => .ok (boundOf x base, vars)) := by
  cases h with
  | literal value => exact literal_lowers value
  | hidden v htype hv =>
    refine load_lowers (fun _ => .ok (boundOf (.var v) base)) htype fun vars values hnear => ?_
    refine ⟨_, rfl, ?_⟩
    rw [hnear.unnamed v.index hv, wrap_int]
    exact (Int32.toInt_ofInt).symm

theorem toInt32_lt_zero (hk : isSmall k) : k.toInt32 < 0 ↔ k < 0 := by
  rw [isSmall, Bool.and_eq_true, decide_eq_true_eq, decide_eq_true_eq, Int64.le_iff_toInt_le,
    Int64.le_iff_toInt_le] at hk
  have hlow : (-2147483647 : Int64).toInt = -2147483647 := by decide
  have hhigh : (2147483647 : Int64).toInt = 2147483647 := by decide
  have hvalue : k.toInt32.toInt = k.toInt := by
    rw [Int64.toInt_toInt32]
    exact Int.bmod_eq_of_le (by omega) (by omega)
  rw [Int32.lt_iff_toInt_lt, Int64.lt_iff_toInt_lt, hvalue]
  exact Iff.rfl

/-- The comparison of a counting loop. -/
theorem loopCompare_eq (hk : isSmall k) :
    loopCompare (.int k .int) = if k.toInt32 < 0 then .gt else .lt := by
  by_cases h : k < 0
  · rw [loopCompare, if_pos h, if_pos ((toInt32_lt_zero hk).mpr h)]
  · rw [loopCompare, if_neg h, if_neg fun h' => h ((toInt32_lt_zero hk).mp h')]

variable (env : Env)

/-- The variable of a counting loop, read into a temporary. -/
theorem load_counter_lowers (hscopes : IntScopes n s.scopes) (hi : lookupIn s.scopes var = some i) :
    Lowers u s' (Near s s.scopes base) (load (.var i)) IsValue IsNumber (fun vars => do
        let a ← expect (vars.get? var)
        return (a, vars)) := by
  refine load_lowers (fun vars => expect (vars.get? var)) (hscopes.type hi) fun vars values hnear => ?_
  obtain ⟨a, ha, hvalue⟩ := hnear.vars.get hi
  exact ⟨a, by rw [ha]; rfl, by rw [hvalue, wrap_toInt]⟩

/-- The comparison of two numbers by which a counting loop goes on. -/
theorem goesOn_combines {rel : Relation} (hk : isSmall k) :
    Combines u rel (emitBinary env (loopCompare (.int k .int))) IsCondition IsTruth
      (fun a b => .ok (if k.toInt32 < 0 then decide (a > b) else decide (a < b))) := by
  rw [loopCompare_eq hk]
  by_cases hneg : k.toInt32 < 0
  · simp only [if_pos hneg]
    obtain ⟨code, hcode, hcombines⟩ := compare_combines env (show ">" ∈ compareOps by decide)
    obtain rfl : Opcode.gt = code := Option.some.inj hcode
    exact hcombines
  · simp only [if_neg hneg]
    obtain ⟨code, hcode, hcombines⟩ := compare_combines env (show "<" ∈ compareOps by decide)
    obtain rfl : Opcode.lt = code := Option.some.inj hcode
    exact hcombines

variable {step : Option Expr} {m : Nat} {body : Lower Bool} {lim : Operand}
  {evalBody : Nat → Vars → Eval Vars} {stop : Expr}

theorem loopTest_lowers (hscopes : IntScopes n s.scopes) (hi : lookupIn s.scopes var = some i)
    (hlim : IsBound s lim) (hk : isSmall k) :
    Lowers u s' (Near s s.scopes base) (loopTest env i .int lim (.int k .int)) IsCondition IsTruth
      (countTest var (boundOf lim base) k.toInt32) := by
  have hgoes : Combines u (Near s s.scopes base) _ IsCondition IsTruth _ :=
    (goesOn_combines env hk).coerce env.types
  have hboth := Lowers.combine (s := s') (load_counter_lowers hscopes hi)
    (fun _ _ => load_bound_lowers hlim) hgoes
  simp only [bind_assoc, pure_bind] at hboth
  exact hboth

/-- A number that straight code gives to a variable in scope. -/
theorem Lowers.continues {x : Lower Operand} {eval : Vars → Eval (Int32 × Vars)}
    (h : Lowers u s (Matches s.scopes) x IsValue IsNumber eval) (hscopes : IntScopes n s.scopes)
    (hi : lookupIn s.scopes var = some i) :
    Continues u s (x >>= fun y => emit .move none [.var i, y]) (fun vars => do
        let (a, vars) ← eval vars
        return vars.set var a) := by
  obtain ⟨y, temps, code, hy, -, -, hrun⟩ := h
  refine ⟨temps, code ++ [⟨.move, none, [.var i, y]⟩], ?_, ?_⟩
  · rw [bind_eq hy, emit_eq, State.add_add, List.append_nil]
  · intro σ vars hvars
    refine Computes.bind (hrun σ vars hvars) ?_
    rintro ⟨a, vars1⟩ σ1 ⟨⟨_, hvalue, rfl⟩, hvars1, hkeeps1⟩
    refine ⟨_, runCode_singleton (exec_move_var (hscopes.type hi) hvalue), hvars1.set hscopes hi a, ?_⟩
    intro j hj
    have hne : j ≠ i.index := fun he => hj (he ▸ index_mem hi)
    rw [Store.setLocal_locals, if_neg hne]
    exact hkeeps1.locals j hj

theorem loopAdvance_continues (hscopes : IntScopes n s.scopes)
    (hi : lookupIn s.scopes var = some i) (k : Int64) :
    Continues u s (loopAdvance env i .int (.int k .int)) (countAdvance var k.toInt32) := by
  obtain ⟨code, hcode, -, hcombines⟩ := arith_combines env (show "+" ∈ arithOps by decide)
  obtain rfl : Opcode.add = code := Option.some.inj hcode
  have hload : Lowers u s (Matches s.scopes) (load (.var i)) IsValue IsNumber _ :=
    load_lowers (fun vars => expect (vars.get? var)) (hscopes.type hi) fun vars values hvars => by
      obtain ⟨a, ha, hvalue⟩ := hvars.get hi
      exact ⟨a, by rw [ha]; rfl, by rw [hvalue, wrap_toInt]⟩
  have hsum := Lowers.combine hload (fun _ _ => literal_lowers k) (hcombines.coerce env.types)
  have hcontinues := hsum.continues hscopes hi
  simp only [bind_assoc, pure_bind] at hcontinues
  exact hcontinues

/-! ## Before the loop -/

/-- The step of a counting loop is a literal, which needs no code. -/
theorem loopStep_eq (h : isStep step) (s : State) : ∃ k, literalStep step = some k ∧ isSmall k ∧
      loopStep env .int step s = .ok (.int k .int, s) := by
  unfold isStep at h
  split at h
  next k hk =>
    have hsmall : isSmall k := (Bool.and_eq_true_iff.mp h).1
    refine ⟨k, hk, hsmall, ?_⟩
    unfold literalStep at hk
    split at hk
    next =>
      cases hk
      rfl
    next p k' =>
      obtain rfl := Option.some.inj hk
      have hvalue : lowerValue env (.int p k') s = .ok (.int k' .int, s) := by
        refine lowerValue_of_lowerExpr ?_
        rw [lowerExpr, literal_of_isSmall hsmall]
        rfl
      rw [loopStep, bind_eq (Lower.within_eq hvalue)]
      rfl
    next p op q k' =>
      split at hk
      next hop =>
        cases hk
        rw [beq_iff_eq] at hop
        subst hop
        have hvalue : lowerValue env (.unary p "-" (.int q k')) s = .ok (.int (-k') .int, s) := by
          refine lowerValue_of_lowerExpr ?_
          rw [lowerExpr, if_neg (by simp), if_pos (by simp), literal_of_isSmall hsmall]
          rfl
        rw [loopStep, bind_eq (Lower.within_eq hvalue)]
        rfl
      next => exact absurd hk (by simp)
    next => exact absurd hk (by simp)
  next => exact absurd h (by simp)

/-- A state with a new variable that no name stands for. -/
def hid (s : State) (v : Local) : State :=
  { s with hidden := s.hidden + 1, locals := s.locals ++ [v] }

theorem follows_hid (s : State) (v : Local) : Follows s (hid s v) :=
  ⟨by simp [hid], rfl, fun _ hi => .inl hi, fun _ h => h⟩

/-- The end of a counting loop, which stays as it is. -/
theorem keepBound_runs (hscopes : IntScopes s.locals.length s.scopes) (what : String) (hx : IsValue m x) :
    ∃ lim s', keepBound what .int x s = .ok (lim, s') ∧ Follows s s' ∧ s'.scopes = s.scopes ∧
      IsBound s' lim ∧ (s.block.isTerminated = false → s'.block.isTerminated = false) ∧
      ∀ blocks, s'.Within blocks → ∀ (σ : Store) (a : Int32), x.value u σ = some a.toInt →
        ∃ j σ', run u blocks j (s.here σ) = .running (s'.here σ') ∧ boundOf lim σ'.locals = a ∧
          ∀ i < s.locals.length, σ'.locals i = σ.locals i := by
  cases hx with
  | literal value =>
    refine ⟨_, s, rfl, Follows.refl s, rfl, .literal value, id, fun blocks _ σ a ha => ?_⟩
    rw [value_literal, Option.some.injEq, Int32.toInt_inj] at ha
    exact ⟨0, σ, rfl, ha, fun _ _ => rfl⟩
  | temp j hj =>
    obtain ⟨v, hv, hhidden⟩ : ∃ v : Local, (v.index = s.locals.length ∧ v.type = .int) ∧
        hiddenLocal what .int s = .ok (v, hid s v) := ⟨_, ⟨rfl, rfl⟩, rfl⟩
    refine ⟨.var v, (hid s v).add [] [⟨.move, none, [.var v, .temp ⟨j, .int⟩]⟩], ?_,
      (follows_hid s v).trans (follows_add _ _ _), rfl, .hidden v hv.2 ⟨?_, ?_⟩,
      fun _ => isTerminated_add_singleton _ _ _, ?_⟩
    · rw [keepBound, if_neg (by simp [isLiteral]), bind_eq hhidden, bind_eq (emit_eq _ _ _ _)]
      rfl
    · rw [hv.1]
      simp [hid]
    · intro hmem
      have hlt := hscopes.bound _ hmem
      omega
    · intro blocks hwithin σ a ha
      have hrun := run_code (s := hid s v) hwithin (runCode_singleton (exec_move_var hv.2 ha))
      refine ⟨_, _, hrun, ?_, fun i hi => ?_⟩
      · simp [boundOf]
      · rw [Store.setLocal_locals, if_neg (by omega)]

/-- The loop itself, once its end is there. -/
theorem countingLoop_executes (hready : Ready vis s) (hi : lookupIn s.scopes var = some i)
    (hlim : IsBound s lim) (hk : isSmall k)
    (hbody : ∀ s', s'.block.isTerminated = false → Ready vis s' →
      Executes u s' body (fun t => t.scopes = s'.scopes) evalBody) :
    ExecutesFrom u s (lowerLoop (loopTest env i .int lim (.int k .int)) body
        (loopAdvance env i .int (.int k .int))) (fun s' => s'.scopes = s.scopes)
      (fun base σ => σ.locals = base) (fun base n => iterate (countTest var (boundOf lim base) k.toInt32)
        (fun vars => do
          let vars ← evalBody n vars
          countAdvance var k.toInt32 vars) n) := by
  refine lowerLoop_executes hready ?_ hbody ?_
  · intro s' _ _ base
    exact loopTest_lowers env hready.scopes hi hlim hk
  · intro s' hfollows hscopes
    refine loopAdvance_continues env (n := s'.locals.length) ?_ (hscopes ▸ hi) k
    exact hscopes ▸ hready.scopes.mono hfollows.locals

/-- The state in which the variable of a counting loop has its first value. -/
def counterSet (s : State) (var : String) (x : Operand) : State :=
  (declared s var).add [] [⟨.move, none, [.var (newVar s var), x]⟩]

@[simp] theorem counterSet_scopes (s : State) (var : String) (x : Operand) :
    (counterSet s var x).scopes = defineIn s.scopes var (newVar s var) := rfl

theorem follows_counterSet (s : State) (var : String) (x : Operand) : Follows s (counterSet s var x) :=
  (follows_declared s var).trans (follows_add _ _ _)

theorem IsValue.loopType (h : IsValue m x) : loopType x = .int := by
  cases h <;> rfl

theorem lowerCounting_eq {y : Operand} {s1 s2 : State} (hx : IsValue m x)
    (hy : lowerValue env stop (counterSet s var x) = .ok (y, s1))
    (hlim : keepBound "end" .int y s1 = .ok (lim, s2))
    (hstep : loopStep env .int step s2 = .ok (.int k .int, s2)) :
    lowerCounting env var x stop step body s
      = lowerLoop (loopTest env (newVar s var) .int lim (.int k .int)) body
          (loopAdvance env (newVar s var) .int (.int k .int)) s2 := by
  unfold lowerCounting
  simp only [hx.loopType, hx.coerce]
  refine (bind_eq (a := newVar s var) (t := { s with locals := s.locals ++ [newVar s var] })
    rfl).trans ?_
  refine (bind_eq (a := ()) (t := declared s var) rfl).trans ?_
  rw [bind_eq (emit_eq _ _ _ _)]
  refine (bind_eq (Lower.within_eq hy)).trans ?_
  rw [bind_eq hlim, bind_eq hstep]

/-- Lowering a counting loop succeeds once its first value is there. Its code counts from that value
to the end, which it computes once. -/
theorem lowerCounting_executes (hready : Ready vis s) (hx : IsValue m x)
    (hstop : stop.isArith (var :: vis)) (hstep : isStep step)
    (hbody : ∀ s', s'.block.isTerminated = false → Ready (var :: vis) s' →
      Executes env.types s' body (fun t => t.scopes = s'.scopes) evalBody) :
    ExecutesFrom env.types s (lowerCounting env var x stop step body) (fun _ => True)
      (fun a σ => x.value env.types σ = some a.toInt)
      (fun a n vars => do
        let (limit, vars) ← evalExpr stop (vars.declare var a)
        let k ← expect (literalStep step)
        iterate (countTest var limit k.toInt32) (fun vars => do
            let vars ← evalBody n vars
            countAdvance var k.toInt32 vars) n vars) := by
  have hdeclared := hready.declared var
  have hready1 : Ready (var :: vis) (counterSet s var x) := ⟨hdeclared.sees, hdeclared.scopes⟩
  obtain ⟨y, temps, code, hy, hyform, hplain, hyrun⟩ :=
    lowerExpr_computes env stop hstop hready1.sees hready1.scopes
  obtain ⟨lim, s3, hlim, hfollows3, hscopes3, hbound, hopen3, hkeep⟩ :=
    keepBound_runs (u := env.types) (s := (counterSet s var x).add temps code) hready1.scopes "end" hyform
  obtain ⟨k, hk, hsmall, hstep3⟩ := loopStep_eq env hstep s3
  have hfollows2 : Follows s s3 :=
    ((follows_counterSet s var x).trans (follows_add _ temps code)).trans hfollows3
  have hready3 : Ready (var :: vis) s3 :=
    hready1.follow ((follows_add _ temps code).trans hfollows3) hscopes3
  have hi : lookupIn s3.scopes var = some (newVar s var) := by
    rw [hscopes3, State.add_scopes, counterSet_scopes, lookupIn_defineIn, if_pos rfl]
  obtain ⟨ends, s4, hs4, hterm4, hfollows4, hscopes4, hloop⟩ :=
    countingLoop_executes env hready3 hi hbound hsmall hbody
  refine ⟨ends, s4, ?_, hterm4, hfollows2.trans hfollows4, trivial, ?_⟩
  · rw [lowerCounting_eq env hx hy hlim hstep3, hs4]
  · intro blocks hlabels hwithin hopen n σ vars hvars a ha
    have hwithin3 := hfollows4.within blocks hwithin
    have hwithin2 := hfollows3.within blocks hwithin3
    have hopen2 : ((counterSet s var x).add temps code).block.isTerminated = false :=
      isTerminated_add hplain (isTerminated_add_singleton _ _ _)
    obtain ⟨hmove, hnear1⟩ := declare_runs hready var ha hvars
    refine Simulates.after (run_code (s := declared s var) hwithin2.of_add hmove) ?_
    refine Simulates.bind ((hyrun _ _ hnear1.vars).simulates hwithin2) ?_
    rintro ⟨limit, vars2⟩ _ ⟨σ2, rfl, ⟨⟨_, hlimit, rfl⟩, hvars2, hkeeps2⟩⟩
    obtain ⟨j, σ3, hrun3, hlimit3, hsame3⟩ := hkeep blocks hwithin3 σ2 limit hlimit
    have hvars3 : Matches s3.scopes vars2 σ3.locals := by
      rw [hscopes3]
      exact hvars2.congr fun i hi => hsame3 i (hready1.scopes.bound i hi)
    refine Simulates.after hrun3 ?_
    rw [hk]
    have hloop' := hloop blocks hlabels hwithin (hopen3 hopen2) n σ3 vars2 hvars3 σ3.locals rfl
    simp only [hlimit3] at hloop'
    refine hloop'.mono (Nat.le_refl n) ?_
    rintro vars4 _ ⟨σ4, rfl, hopen4, hnear4⟩
    refine ⟨σ4, rfl, hopen4, hnear4.vars, fun i hi => ?_⟩
    have hi1 := (follows_counterSet s var x).unnamed hi
    calc σ4.locals i = σ3.locals i := hnear4.unnamed i (hfollows2.unnamed hi)
      _ = σ2.locals i := hsame3 i hi1.1
      _ = _ := hkeeps2.locals i hi1.2
      _ = σ.locals i := hnear1.unnamed i hi

/-- Lowering a counting loop succeeds. Its first value is computed outside its scope. -/
theorem lowerFor_executes {start : Expr} (hready : Ready vis s)
    (hterm : s.block.isTerminated = false) (hstart : start.isArith vis)
    (hstop : stop.isArith (var :: vis)) (hstep : isStep step)
    (hbody : ∀ s', s'.block.isTerminated = false → Ready (var :: vis) s' →
      Executes env.types s' body (fun t => t.scopes = s'.scopes) evalBody) :
    Executes env.types s (do
        let first ← Lower.within "start" (lowerValue env start)
        inScope (lowerCounting env var first stop step body))
      (fun s' => s'.scopes = s.scopes)
      (fun n vars => do
        let (first, vars) ← evalExpr start vars
        let (limit, vars) ← evalExpr stop ([(var, first)] :: vars)
        let k ← expect (literalStep step)
        let vars ← iterate (countTest var limit k.toInt32) (fun vars => do
            let vars ← evalBody n vars
            countAdvance var k.toInt32 vars) n vars
        return vars.drop 1) := by
  obtain ⟨x, temps, code, hx, hform, hplain, hrun⟩ :=
    lowerExpr_computes env start hstart hready.sees hready.scopes
  have hready1 : Ready vis { s.add temps code with scopes := [] :: s.scopes } :=
    ⟨hready.sees, hready.scopes.nil_cons⟩
  obtain ⟨ends, s', hs', hterm', hfollows, hscopes, hexec⟩ :=
    (lowerCounting_executes env hready1 hform hstop hstep hbody).inScope (s := s.add temps code)
  refine ⟨ends, s', ?_, hterm', (follows_add s temps code).trans hfollows, hscopes, ?_⟩
  · rw [bind_eq (Lower.within_eq hx), hs']
  · intro blocks hlabels hwithin _ n σ vars hvars _ _
    refine ((hrun σ vars hvars).simulates (hfollows.within blocks hwithin)).bind ?_
    rintro ⟨a, vars1⟩ _ ⟨σ1, rfl, ⟨⟨_, hvalue, rfl⟩, hvars1, hkeeps1⟩⟩
    have hcount := hexec blocks hlabels hwithin (isTerminated_add hplain hterm) n σ1 vars1 hvars1 a hvalue
    simp only [bind_assoc] at hcount
    refine hcount.mono (Nat.le_refl n) fun vars2 c hreached => ?_
    exact Reached.from (follows_add s temps code) ⟨hvars1, fun i hi => hkeeps1.locals i hi.2⟩ hreached

end TreeAsm.Meaning
