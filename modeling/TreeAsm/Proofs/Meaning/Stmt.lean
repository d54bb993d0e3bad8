import TreeAsm.Proofs.Meaning.Counting

/-!
# What a lowered statement does

Lowering any statement of the structured part of the language succeeds, and its code does what the
statement does. The argument follows the statement, as lowering does.
-/

namespace TreeAsm.Meaning

open Ir Lowering
open Lower (bind_eq)
open Program (Arm Eval Expr Stmt Vars armsStructured evalArms evalBlock evalCond evalExpr evalOptional
  evalStmt evalStmts iterate optionStructured stmtsStructured)

variable {env : Env} {s : State} {vis : List String}

/-- An expression that is lowered for what it does. -/
theorem lowerExpr_executes {e : Expr} {p : Position} (hready : Ready vis s)
    (hterm : s.block.isTerminated = false) (he : e.isArith vis) :
    Executes env.types s (do let _ ← lowerExpr env e; return false) (fun s' => s'.scopes = s.scopes)
      (fun n => evalStmt n (.expr p e)) := by
  refine ExecutesFrom.of_imp ((lowerExpr_computes env e he hready.sees hready.scopes).executes hterm)
    (fun ends s' h => ?_) fun _ _ h => h
  obtain ⟨x, s1, hx, h⟩ := Lower.bind_ok h
  obtain ⟨y, s2, hy, hx⟩ := Lower.bind_ok hx
  cases y with
  | none => exact absurd hx Lower.fail_ok
  | some y =>
    obtain ⟨-, rfl⟩ := Lower.pure_ok hx
    rw [bind_eq hy]
    exact h

theorem lowerWhile_executes {cond : Expr} {body : Lower Bool} {evalBody : Nat → Vars → Eval Vars}
    (hready : Ready vis s) (hcond : cond.isCondition vis)
    (hbody : ∀ s', s'.block.isTerminated = false → Ready vis s' →
      Executes env.types s' body (fun t => t.scopes = s'.scopes) evalBody) :
    Executes env.types s (lowerLoop (Lower.within "condition" (lowerValue env cond)) body (pure ()))
      (fun s' => s'.scopes = s.scopes) (fun n => iterate (evalCond cond) (evalBody n) n) := by
  have htest : ∀ s', s'.scopes = s.scopes → s'.locals = s.locals → ∀ base,
      Lowers env.types s' (Near s s.scopes base) (Lower.within "condition" (lowerValue env cond))
        IsCondition IsTruth (evalCond cond) := by
    intro s' hscopes _ base
    have hsees : Sees vis s'.scopes := hscopes ▸ hready.sees
    have hints : IntScopes s.locals.length s'.scopes := hscopes ▸ hready.scopes
    exact ((lowerCond_computes env hcond hsees hints).near hscopes base).of_imp
      fun v t hv => Lower.within_eq hv
  have hadvance : ∀ s', Follows s s' → s'.scopes = s.scopes →
      Continues env.types s' (pure ()) (fun vars => .ok vars) := by
    intro s' _ _
    exact ⟨[], [], by rw [State.add_nil]; rfl, fun σ vars hvars => ⟨σ, rfl, hvars, fun _ _ => rfl⟩⟩
  obtain ⟨ends, s', hs', hterm', hfollows, hscopes, hrun⟩ :=
    lowerLoop_executes hready htest hbody hadvance
  refine ⟨ends, s', hs', hterm', hfollows, hscopes, ?_⟩
  intro blocks hlabels hwithin hopen n σ vars hvars _ _
  have hloop := hrun blocks hlabels hwithin hopen n σ vars hvars σ.locals rfl
  simp only [show ∀ x : Eval Vars, (do let vars ← x; .ok vars) = x from fun x => bind_pure x] at hloop
  exact hloop

/-- A statement after which the same names are in scope. -/
theorem Executes.ready {x : Lower Bool} {eval : Nat → Vars → Eval Vars}
    (h : Executes env.types s x (fun s' => s'.scopes = s.scopes) eval) (hready : Ready vis s) :
    Executes env.types s x (Ready vis) eval :=
  ExecutesFrom.of_imp h (fun _ _ hx => hx) fun _ hfollows hscopes => hready.follow hfollows hscopes

mutual

theorem lowerStmt_executes (hret : env.ret = .int) : ∀ (st : Stmt) {vis : List String} {s : State},
    st.isStructured vis → Ready vis s → s.block.isTerminated = false →
    Executes env.types s (lowerStmt env st) (Ready (st.declares vis)) (fun n => evalStmt n st)
  | .block body, vis, s, h, hready, hterm =>
    (lowerBlock_executes hret body h hready hterm).ready hready
  | .var p name ref (some e), vis, s, h, hready, _ => by
    rw [Stmt.isStructured, Bool.and_eq_true] at h
    exact lowerVar_executes env hready h.1 h.2
  | .set p name op e, vis, s, h, hready, hterm => by
    rw [Stmt.isStructured, Bool.and_eq_true, Bool.and_eq_true, List.contains_iff_mem,
      List.contains_iff_mem] at h
    exact (lowerSet_executes env hready hterm h.1.1 h.1.2 h.2).ready hready
  | .expr p e, vis, s, h, hready, hterm => by
    rw [Stmt.isStructured] at h
    exact (lowerExpr_executes hready hterm h).ready hready
  | .cond p arms otherwise, vis, s, h, hready, hterm => by
    rw [Stmt.isStructured, Bool.and_eq_true] at h
    obtain ⟨reached, s1, hs1, hfollows1, hscopes1, helse, -, harms⟩ :=
      lowerArms_execute hret arms (blockLabel s.nextLabel) otherwise.isSome false h.1
        (hready.follow (follows_skipLabel s) rfl) hterm
    refine Executes.ready (Executes.freshLabel ?_) hready
    cases otherwise with
    | none =>
      refine ExecutesFrom.of_imp (harms.withoutElse hfollows1 hscopes1) (fun ends s' hx => ?_)
        fun _ _ ha => ha
      refine (bind_eq hs1).trans ((bind_eq (a := false) (t := s1) rfl).trans ?_)
      rw [Bool.not_false, Bool.or_true]
      exact (bind_eq (openBlock_eq _ _)).trans hx
    | some body =>
      have hother := lowerOptional_executes hret (some body) h.2
        (hready.follow ((follows_skipLabel s).trans hfollows1) hscopes1) (helse rfl)
      refine ExecutesFrom.of_imp (harms.withElse hfollows1 hscopes1 (helse rfl) hother)
        (fun ends s' hx => ?_) fun _ _ ha => ha
      exact (bind_eq hs1).trans hx
  | .while p cond body, vis, s, h, hready, hterm => by
    rw [Stmt.isStructured, Bool.and_eq_true] at h
    exact (lowerWhile_executes hready h.1 fun s' hterm' hready' =>
      lowerOptional_executes hret body h.2 hready' hterm').ready hready
  | .for p var start stop step body, vis, s, h, hready, hterm => by
    rw [Stmt.isStructured, Bool.and_eq_true, Bool.and_eq_true, Bool.and_eq_true] at h
    exact (lowerFor_executes env hready hterm h.1.1.1 h.1.1.2 h.1.2 fun s' hterm' hready' =>
      lowerOptional_executes hret body h.2 hready' hterm').ready hready
  | .return p (some e), vis, s, h, hready, _ => by
    rw [Stmt.isStructured] at h
    exact (lowerReturn_executes env hret hready h).ready hready

theorem lowerBlock_executes (hret : env.ret = .int) : ∀ (b : Program.Block) {vis : List String}
    {s : State}, b.isStructured vis → Ready vis s → s.block.isTerminated = false →
    Executes env.types s (lowerBlock env b) (fun s' => s'.scopes = s.scopes) (fun n => evalBlock n b)
  | .mk p stmts, vis, s, h, hready, hterm => by
    have hready' : Ready vis { s with scopes := [] :: s.scopes } :=
      ⟨hready.sees, hready.scopes.nil_cons⟩
    exact (lowerStmts_executes hret stmts h hready' hterm).inScope

theorem lowerOptional_executes (hret : env.ret = .int) : ∀ (b : Option Program.Block)
    {vis : List String} {s : State}, optionStructured vis b → Ready vis s →
    s.block.isTerminated = false →
    Executes env.types s (lowerOptional env b) (fun s' => s'.scopes = s.scopes) (fun n => evalOptional n b)
  | some b, _, _, h, hready, hterm => lowerBlock_executes hret b h hready hterm
  | none, _, s, _, _, hterm =>
    ⟨false, s, rfl, hterm, Follows.refl s, rfl, fun _ _ _ _ _ σ _ hvars _ _ =>
      ⟨0, _, rfl, σ, rfl, hterm, hvars, fun _ _ => rfl⟩⟩

theorem lowerStmts_executes (hret : env.ret = .int) : ∀ (stmts : List Stmt) {vis : List String}
    {s : State} {ends : Bool}, stmtsStructured vis stmts → Ready vis s →
    s.block.isTerminated = ends →
    Executes env.types s (lowerStmts env ends stmts) (fun _ => True) (fun n => evalStmts n stmts)
  | [], vis, s, ends, _, _, hterm => by
    refine ⟨ends, s, ?_, hterm, Follows.refl s, trivial, fun blocks _ _ hopen n σ vars hvars _ _ =>
      ⟨0, _, rfl, σ, rfl, hopen, hvars, fun _ _ => rfl⟩⟩
    have hresult : lowerStmts env ends [] s = .ok (ends || s.block.isTerminated, s) := rfl
    rw [hresult, hterm, Bool.or_self]
  | st :: rest, vis, s, ends, h, hready, _ => by
    rw [stmtsStructured, Bool.and_eq_true] at h
    refine Executes.ensureOpen fun s1 hterm1 hfollows1 hscopes1 => ?_
    have hready1 := hready.follow hfollows1 hscopes1
    have hfirst : Executes env.types s1 (Lower.within st.pos.render (lowerStmt env st))
        (Ready (st.declares vis)) (fun n => evalStmt n st) :=
      ExecutesFrom.of_imp (lowerStmt_executes hret st h.1 hready1 hterm1)
        (fun _ _ hx => Lower.within_eq hx) fun _ _ ha => ha
    exact hfirst.seq fun ends' s2 hterm2 _ hready2 => lowerStmts_executes hret rest h.2 hready2 hterm2

theorem lowerArms_execute (hret : env.ret = .int) : ∀ (arms : List Arm) {vis : List String}
    {s : State} (stop : String) (hasElse reached : Bool), armsStructured vis arms →
    Ready vis s → s.block.isTerminated = false →
    ∃ reached' s', lowerArms env stop hasElse reached arms s = .ok (reached', s') ∧ Follows s s' ∧
      s'.scopes = s.scopes ∧ (hasElse → s'.block.isTerminated = false) ∧ (reached → reached') ∧
      ArmsExecute env.types s s' stop reached' (fun n other => evalArms n other arms)
  | [], vis, s, stop, hasElse, reached, _, _, hterm =>
    ⟨reached, s, rfl, Follows.refl s, rfl, fun _ => hterm, id, armsExecute_nil hterm stop reached⟩
  | .mk cond body :: rest, vis, s, stop, hasElse, reached, h, hready, hterm => by
    rw [armsStructured, Bool.and_eq_true, Bool.and_eq_true] at h
    have hbody : ∀ s', s'.block.isTerminated = false → Ready vis s' →
        Executes env.types s' (lowerOptional env body) (fun t => t.scopes = s'.scopes)
          (fun n => evalOptional n body) :=
      fun s' hterm' hready' => lowerOptional_executes hret body h.1.2 hready' hterm'
    cases hmore : !rest.isEmpty || hasElse with
    | true =>
      obtain ⟨ends, s1, hs1, -, hfollows1, hscopes1, harm⟩ := lowerArm_executes env
        (blockLabel s.nextLabel) stop (hready.follow (follows_skipLabel s) rfl) h.1.1 hbody
      have hready1 : Ready vis (s1.opened (blockLabel s.nextLabel)) :=
        hready.follow (((follows_skipLabel s).trans hfollows1).trans (follows_opened _ _)) hscopes1
      obtain ⟨reached', s', hs', hfollows', hscopes', helse, hreached, hrest⟩ :=
        lowerArms_execute hret rest stop hasElse (reached || !ends) h.2 hready1 rfl
      refine ⟨reached', s', ?_, (((follows_skipLabel s).trans hfollows1).trans
        (follows_opened _ _)).trans hfollows', hscopes'.trans hscopes1, helse, fun hr => ?_,
        (harm.cons hscopes1 hfollows1 hrest hfollows' hreached).of_skipLabel⟩
      · rw [lowerArms, hmore]
        refine (bind_eq (freshLabel_eq s)).trans ?_
        rw [bind_eq hs1, bind_eq (openIf_eq _ _ _)]
        exact hs'
      · exact hreached (by rw [hr, Bool.true_or])
    | false =>
      obtain ⟨hrest, rfl⟩ : rest = [] ∧ hasElse = false := by
        cases rest <;> cases hasElse <;> simp_all
      subst hrest
      obtain ⟨ends, s1, hs1, hterm1, hfollows1, hscopes1, harm⟩ :=
        lowerArm_executes env stop stop hready h.1.1 hbody
      refine ⟨reached || !ends, s1, ?_, hfollows1, hscopes1, fun he => absurd he Bool.false_ne_true,
        fun hr => by rw [hr, Bool.true_or], harm.last hterm1⟩
      rw [lowerArms, hmore]
      refine (bind_eq (a := stop) (t := s) rfl).trans ?_
      rw [bind_eq hs1]
      rfl

end

end TreeAsm.Meaning
