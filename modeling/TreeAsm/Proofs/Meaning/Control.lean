import TreeAsm.Proofs.Meaning.Straight

/-!
# What lowered conditionals and loops do

An arm of a conditional jumps past its body if its condition is false, and to the end of the
conditional after its body. The block that a jump goes to is opened later, so the lemmas about
arms take a state with that block open, somewhere in the finished function.

A loop is the one place where a run has no bound that is known beforehand. What it does is shown by
induction on the rounds that evaluation is allowed to make, each of which takes at least one step of
the run (`loop_simulates`).
-/

namespace TreeAsm.Meaning

open Ir Lowering
open Program (Arm Eval Expr Vars countAdvance countTest evalCond evalExpr expect iterate literalStep)
open Lower (bind_eq)

variable {u : Universe} {s s' : State} {vis : List String}

/-! ## Arms -/

/-- Somewhere in the function there is a block with a label, and a run that comes to it is fine. -/
def Target (blocks : List Block) (label : String) (good : (Store → ExecState) → Prop) : Prop :=
  ∃ t : State, Opens t label ∧ t.Within blocks ∧ good t.here

/-- What an arm does: if its condition is false, control goes to `next`, and otherwise to `stop` after
its body. -/
def ArmExecutes (u : Universe) (s s' : State) (next stop : String) (ends : Bool)
    (cond : Vars → Eval (Bool × Vars)) (body : Nat → Vars → Eval Vars) : Prop :=
  ∀ blocks, Labelled blocks → s'.Within blocks → ∀ n σ vars, Matches s.scopes vars σ.locals →
    ∀ (other : Vars → Eval Vars) (post : Vars → ExecState → Prop),
      Target blocks next (fun here => ∀ σ' vars', Near s s.scopes σ.locals vars' σ'.locals →
        Simulates u blocks n (here σ') (other vars') post) →
      (ends = false → Target blocks stop (fun here => ∀ σ' vars',
        Near s s.scopes σ.locals vars' σ'.locals → post vars' (here σ'))) →
      Simulates u blocks n (s.here σ) (do
          let (c, vars) ← cond vars
          if c then body n vars else other vars) post

/-- The state after a conditional jump, where the block that follows is open. -/
def branched (s : State) (x : Operand) (label : String) : State :=
  (skipLabel (s.add [] [jumpIfFalse x label])).opened (blockLabel s.nextLabel)

theorem follows_branched (s : State) (x : Operand) (label : String) : Follows s (branched s x label) :=
  ((follows_add s _ _).trans (follows_skipLabel _)).trans (follows_opened _ _)

theorem emitUnless_eq (x : Operand) (label : String) (s : State) :
    emitUnless x label s = .ok ((), s.add [] [jumpIfFalse x label]) :=
  emit_eq _ _ _ s

/-- The state after the body of an arm or of a loop, which jumps on if control can reach its end. -/
def jumped (s : State) (ends : Bool) (label : String) : State :=
  if ends then s else s.add [] [⟨.jump, none, [.label label]⟩]

theorem jumpUnless_eq (s : State) (ends : Bool) (label : String) :
    jumpUnless ends label s = .ok ((), jumped s ends label) := by
  cases ends with
  | true => rfl
  | false => exact emit_eq _ _ _ s

theorem follows_jumped (s : State) (ends : Bool) (label : String) : Follows s (jumped s ends label) := by
  cases ends with
  | true => exact Follows.refl s
  | false => exact follows_add s _ _

theorem jumped_scopes (s : State) (ends : Bool) (label : String) :
    (jumped s ends label).scopes = s.scopes := by
  cases ends <;> rfl

theorem jumped_isTerminated (s : State) (label : String) :
    (jumped s s.block.isTerminated label).block.isTerminated := by
  cases hterm : s.block.isTerminated with
  | true => exact hterm
  | false => exact isTerminated_add_singleton s [] ⟨.jump, none, [.label label]⟩

variable (env : Env) {cond : Expr} {next stop : String} {body : Lower Bool}
  {evalBody : Nat → Vars → Eval Vars}

theorem lowerArm_executes (next stop : String) (hready : Ready vis s) (hcond : cond.isCondition vis)
    (hbody : ∀ s', s'.block.isTerminated = false → Ready vis s' →
      Executes env.types s' body (fun t => t.scopes = s'.scopes) evalBody) :
    ∃ ends s', lowerArm env cond next stop body s = .ok (ends, s') ∧
      s'.block.isTerminated ∧ Follows s s' ∧ s'.scopes = s.scopes ∧
      ArmExecutes env.types s s' next stop ends (evalCond cond) evalBody := by
  obtain ⟨x, temps, code, hx, -, -, hrun⟩ :=
    lowerCond_computes env hcond hready.sees hready.scopes
  have hfollows1 : Follows s (branched (s.add temps code) x next) :=
    (follows_add s temps code).trans (follows_branched _ x next)
  obtain ⟨ends, s2, hs2, hterm2, hfollows2, hscopes2, hrun2⟩ :=
    hbody (branched (s.add temps code) x next) rfl (hready.follow hfollows1 rfl)
  subst hterm2
  refine ⟨s2.block.isTerminated, jumped s2 s2.block.isTerminated stop, ?_, jumped_isTerminated s2 stop,
    (hfollows1.trans hfollows2).trans (follows_jumped _ _ _), (jumped_scopes _ _ _).trans hscopes2, ?_⟩
  · rw [lowerArm, bind_eq (Lower.within_eq hx), bind_eq (emitUnless_eq x next _),
      bind_eq (freshLabel_eq _), bind_eq (openBlock_eq _ _)]
    refine (bind_eq hs2).trans ?_
    rw [bind_eq (jumpUnless_eq _ _ _)]
    rfl
  · intro blocks hlabels hwithin n σ vars hvars other post ⟨t, ht, htwithin, hother⟩ hstop
    have hwithin2 := (follows_jumped _ _ _).within blocks hwithin
    have hwithin1 : ((s.add temps code).add [] [jumpIfFalse x next]).Within blocks :=
      (hfollows2.within blocks hwithin2).of_opened
    refine ((hrun σ vars hvars).simulates hwithin1.of_add).bind ?_
    rintro ⟨c, vars1⟩ _ ⟨σ1, rfl, ⟨⟨w, hw, htruth⟩, hvars1, hkeeps1⟩⟩
    have hnear1 : Near s s.scopes σ.locals vars1 σ1.locals :=
      ⟨hvars1, fun i hi => hkeeps1.locals i hi.2⟩
    cases c with
    | false =>
      have hjump := run_jumpIfFalse_false hlabels hwithin1 htwithin ht hw htruth
      exact (hother σ1 vars1 hnear1).after hjump
    | true =>
      have hfall := run_jumpIfFalse_true (blockLabel (s.add temps code).nextLabel) hwithin1 hw htruth
      refine Simulates.after hfall ?_
      refine (hrun2 blocks hlabels hwithin2 rfl n σ1 vars1 hvars1 () trivial).extend ?_
      rintro vars2 _ ⟨σ2, rfl, hopen2, hnear2⟩
      obtain ⟨t', ht', htwithin', hpost⟩ := hstop hopen2
      rw [hopen2] at hwithin
      refine ⟨1, _, run_jump hlabels hwithin htwithin' ht' σ2, hpost σ2 vars2 ⟨hscopes2 ▸ hnear2.vars, fun i hi => ?_⟩⟩
      exact (hnear2.unnamed i (hfollows1.unnamed hi)).trans (hnear1.unnamed i hi)

/-- Where control goes on after arms whose conditions are all false: to the open block, or to `stop` if
the last arm goes there. -/
def Falls (blocks : List Block) (s : State) (stop : String) (good : (Store → ExecState) → Prop) : Prop :=
  if s.block.isTerminated then Target blocks stop good else good s.here

variable {reached : Bool} {arms : Nat → (Vars → Eval Vars) → Vars → Eval Vars} {blocks : List Block}
  {s1 : State} {label : String} {good good' : (Store → ExecState) → Prop} {vars' : Vars}
  {evalTest : Vars → Eval (Bool × Vars)} {x : Lower Operand} {form : Nat → Operand → Prop}

theorem Target.mono (h : Target blocks label good) (himp : ∀ here, good here → good' here) :
    Target blocks label good' := by
  obtain ⟨t, ht, hwithin, hgood⟩ := h
  exact ⟨t, ht, hwithin, himp _ hgood⟩

theorem Falls.mono (h : Falls blocks s stop good) (himp : ∀ here, good here → good' here) :
    Falls blocks s stop good' := by
  unfold Falls at h ⊢
  split at h
  next hterm =>
    rw [if_pos hterm]
    exact h.mono himp
  next hterm =>
    rw [if_neg hterm]
    exact himp _ h

/-- What arms do: control goes to `stop` after a body, or past them to what else there is. -/
def ArmsExecute (u : Universe) (s s' : State) (stop : String) (reached : Bool)
    (arms : Nat → (Vars → Eval Vars) → Vars → Eval Vars) : Prop :=
  ∀ blocks, Labelled blocks → s'.Within blocks → ∀ n σ vars, Matches s.scopes vars σ.locals →
    ∀ (other : Vars → Eval Vars) (post : Vars → ExecState → Prop),
      Falls blocks s' stop (fun here => ∀ σ' vars', Near s s.scopes σ.locals vars' σ'.locals →
        Simulates u blocks n (here σ') (other vars') post) →
      (reached = true → Target blocks stop (fun here => ∀ σ' vars',
        Near s s.scopes σ.locals vars' σ'.locals → post vars' (here σ'))) →
      Simulates u blocks n (s.here σ) (arms n other vars) post

theorem armsExecute_nil (hterm : s.block.isTerminated = false) (stop : String) (reached : Bool) :
    ArmsExecute u s s stop reached fun _ other => other := by
  intro blocks _ _ n σ vars hvars other post hfalls _
  rw [Falls, hterm] at hfalls
  exact hfalls σ vars ⟨hvars, fun _ _ => rfl⟩

theorem Near.trans {values values' values'' : Nat → Int} {vars : Vars} (hfollows : Follows s s')
    (h : Near s s.scopes values vars values') (h' : Near s' s'.scopes values' vars' values'')
    (hscopes : s'.scopes = s.scopes) : Near s s.scopes values vars' values'' :=
  ⟨hscopes ▸ h'.vars, fun i hi => (h'.unnamed i (hfollows.unnamed hi)).trans (h.unnamed i hi)⟩

/-- A label that has been taken makes no difference. -/
theorem ArmsExecute.of_skipLabel (h : ArmsExecute u (skipLabel s) s' stop reached arms) :
    ArmsExecute u s s' stop reached arms := by
  intro blocks hlabels hwithin n σ vars hvars other post hfalls hstop
  refine h blocks hlabels hwithin n σ vars hvars other post ?_ fun hr => ?_
  · exact hfalls.mono fun here hgood σ' vars' hnear => hgood σ' vars' ⟨hnear.vars, hnear.unnamed⟩
  · exact (hstop hr).mono fun here hgood σ' vars' hnear =>
      hgood σ' vars' ⟨hnear.vars, hnear.unnamed⟩

/-- An arm with nothing after it. -/
theorem ArmExecutes.last {ends : Bool} (h : ArmExecutes u s s' stop stop ends evalTest evalBody)
    (hterm : s'.block.isTerminated) :
    ArmsExecute u s s' stop (reached || !ends) (fun n other vars => do
      let (c, vars) ← evalTest vars
      if c then evalBody n vars else other vars) := by
  intro blocks hlabels hwithin n σ vars hvars other post hfalls hstop
  rw [Falls, if_pos hterm] at hfalls
  exact h blocks hlabels hwithin n σ vars hvars other post hfalls
    fun hends => hstop (by rw [hends, Bool.not_false, Bool.or_true])

/-- An arm before others, or before what else there is. -/
theorem ArmExecutes.cons {ends reached' : Bool}
    (h : ArmExecutes u s s1 next stop ends evalTest evalBody) (hscopes : s1.scopes = s.scopes)
    (hfollows : Follows s s1) (hrest : ArmsExecute u (s1.opened next) s' stop reached' arms)
    (hfollows' : Follows (s1.opened next) s')
    (hreached : (reached || !ends) → reached') :
    ArmsExecute u s s' stop reached' (fun n other vars => do
      let (c, vars) ← evalTest vars
      if c then evalBody n vars else arms n other vars) := by
  intro blocks hlabels hwithin n σ vars hvars other post hfalls hstop
  have hwithin1 := hfollows'.within blocks hwithin
  have hfollows1 := hfollows.trans (follows_opened s1 next)
  refine h blocks hlabels hwithin1.of_opened n σ vars hvars (arms n other) post
    ⟨s1.opened next, opens_opened s1 next, hwithin1, ?_⟩ ?_
  · intro σ' vars' hnear
    refine hrest blocks hlabels hwithin n σ' vars' (hscopes ▸ hnear.vars) other post ?_ ?_
    · exact hfalls.mono fun here hgood σ'' vars'' hnear' =>
        hgood σ'' vars'' (hnear.trans hfollows1 hnear' hscopes)
    · intro hr
      exact (hstop hr).mono fun here hgood σ'' vars'' hnear' =>
        hgood σ'' vars'' (hnear.trans hfollows1 hnear' hscopes)
  · intro hends
    exact hstop (hreached (by rw [hends, Bool.not_false, Bool.or_true]))

theorem openIf_eq (s : State) (reached : Bool) (label : String) :
    openIf reached label s = .ok ((), if reached then s.opened label else s) := by
  cases reached with
  | true => exact openBlock_eq label s
  | false => rfl

theorem Opens.isTerminated {t : State} (h : Opens t label) : t.block.isTerminated = false := by
  rw [Block.isTerminated, h.code]
  rfl

/-- What the place `t` after a state reaches is reached from the state before. -/
theorem Reached.from {t : State} {σ σ' : Store} {vars : Vars} {c : ExecState}
    (hfollows : Follows s s') (hnear : Near s s.scopes σ.locals vars σ'.locals)
    (h : Reached s' t σ' vars' c) : Reached s t σ vars' c := by
  obtain ⟨σ'', rfl, hopen, hnear'⟩ := h
  exact ⟨σ'', rfl, hopen, hnear'.vars,
    fun i hi => (hnear'.unnamed i (hfollows.unnamed hi)).trans (hnear.unnamed i hi)⟩

/-- A statement that takes a label. -/
theorem Executes.freshLabel {x : String → Lower Bool} {after : State → Prop} {eval : Nat → Vars → Eval Vars}
    (h : Executes u (skipLabel s) (x (blockLabel s.nextLabel)) after eval) :
    Executes u s (freshLabel >>= x) after eval := by
  obtain ⟨ends, s', hx, hterm, hfollows, hafter, hrun⟩ := h
  refine ⟨ends, s', ?_, hterm, (follows_skipLabel s).trans hfollows, hafter, ?_⟩
  · rw [bind_eq (freshLabel_eq s), hx]
  · intro blocks hlabels hwithin hopen n σ vars hvars _ _
    refine (hrun blocks hlabels hwithin hopen n σ vars hvars () trivial).mono (Nat.le_refl n) ?_
    intro vars' c hreached
    exact Reached.from (follows_skipLabel s) ⟨hvars, fun _ _ => rfl⟩ hreached

/-- Arms, and what else there is: both come to the place of a later state. -/
theorem ArmsExecute.meet {s2 : State} (evalOther : Nat → Vars → Eval Vars)
    (h : ArmsExecute u s s1 stop reached arms) (hfollows1 : Follows s s1)
    (hfollows2 : Follows s1 s2) (hscopes : s2.scopes = s.scopes)
    (hstop : reached → Opens s2 stop) (hlabels : Labelled blocks)
    (hwithin : s2.Within blocks) {n : Nat}
    (hother : Falls blocks s1 stop fun here => ∀ σ vars, Matches s.scopes vars σ.locals →
      Simulates u blocks n (here σ) (evalOther n vars) (Reached s1 s2 σ)) (σ : Store) (vars : Vars)
    (hvars : Matches s.scopes vars σ.locals) :
    Simulates u blocks n (s.here σ) (arms n (evalOther n) vars) (Reached s s2 σ) := by
  refine h blocks hlabels (hfollows2.within blocks hwithin) n σ vars hvars _ _ ?_ fun hr => ?_
  · refine hother.mono fun here hgood σ' vars' hnear => ?_
    refine (hgood σ' vars' hnear.vars).mono (Nat.le_refl n) fun vars'' c hreached => ?_
    exact Reached.from hfollows1 hnear hreached
  · refine ⟨s2, hstop hr, hwithin, fun σ' vars' hnear => ⟨σ', rfl, (hstop hr).isTerminated, ?_⟩⟩
    rw [hscopes]
    exact hnear

/-- A conditional with an else part: its arms and that part meet in a block that is there if control
can reach it. -/
theorem ArmsExecute.withElse {other : Lower Bool} {evalOther : Nat → Vars → Eval Vars}
    (h : ArmsExecute u s s1 stop reached arms) (hfollows1 : Follows s s1)
    (hscopes1 : s1.scopes = s.scopes) (hopen1 : s1.block.isTerminated = false)
    (hother : Executes u s1 other (fun t => t.scopes = s1.scopes) evalOther) :
    Executes u s (fun _ => (do
        let ends ← other
        openIf (reached || !ends) stop
        return !(reached || !ends) : Lower Bool) s1)
      (fun t => t.scopes = s.scopes) (fun n => arms n (evalOther n)) := by
  obtain ⟨ends, s2, hs2, hterm2, hfollows2, hscopes2, hrun2⟩ := hother
  have hscopes2' := hscopes2.trans hscopes1
  have hgood : ∀ blocks, Labelled blocks → s2.Within blocks → ∀ n σ vars, Matches s.scopes vars σ.locals →
      Simulates u blocks n (s1.here σ) (evalOther n vars) (Reached s1 s2 σ) := by
    intro blocks hlabels hwithin n σ vars hvars
    exact hrun2 blocks hlabels hwithin hopen1 n σ vars (hscopes1 ▸ hvars) () trivial
  cases hmeet : reached || !ends with
  | true =>
    refine ⟨false, s2.opened stop, ?_, rfl,
      (hfollows1.trans hfollows2).trans (follows_opened _ _), hscopes2', ?_⟩
    · rw [bind_eq hs2, hmeet, bind_eq (openIf_eq _ _ _)]
      rfl
    · intro blocks hlabels hwithin _ n σ vars hvars _ _
      refine h.meet evalOther hfollows1 (hfollows2.trans (follows_opened _ _)) hscopes2'
        (fun _ => opens_opened _ _) hlabels hwithin ?_ σ vars hvars
      rw [Falls, hopen1]
      intro σ' vars' hvars'
      refine (hgood blocks hlabels hwithin.of_opened n σ' vars' hvars').extend ?_
      rintro vars'' _ ⟨σ'', rfl, hopen2, hnear⟩
      exact ⟨1, _, run_opened hlabels hwithin hopen2 σ'', σ'', rfl, rfl, hnear⟩
  | false =>
    have hreached : reached = false := by
      cases reached
      · rfl
      · exact absurd hmeet (by simp)
    have hends : ends := by
      cases ends
      · exact absurd hmeet (by simp)
      · rfl
    refine ⟨true, s2, ?_, hterm2.trans hends, hfollows1.trans hfollows2, hscopes2', ?_⟩
    · rw [bind_eq hs2, hmeet, bind_eq (openIf_eq _ _ _)]
      rfl
    · intro blocks hlabels hwithin _ n σ vars hvars _ _
      refine h.meet evalOther hfollows1 hfollows2 hscopes2'
        (fun hr => absurd (hreached.symm.trans hr) Bool.false_ne_true) hlabels hwithin ?_ σ vars hvars
      rw [Falls, hopen1]
      exact hgood blocks hlabels hwithin n

/-- A conditional without an else part. -/
theorem ArmsExecute.withoutElse (h : ArmsExecute u s s1 stop reached arms)
    (hfollows1 : Follows s s1) (hscopes1 : s1.scopes = s.scopes) :
    Executes u s (fun _ => .ok (false, s1.opened stop)) (fun t => t.scopes = s.scopes)
      (fun n => arms n .ok) := by
  refine ⟨false, s1.opened stop, rfl, rfl, hfollows1.trans (follows_opened _ _), hscopes1, ?_⟩
  intro blocks hlabels hwithin _ n σ vars hvars _ _
  refine h.meet (fun _ => .ok) hfollows1 (follows_opened _ _) hscopes1
    (fun _ => opens_opened _ _) hlabels hwithin ?_ σ vars hvars
  unfold Falls
  split
  next =>
    refine ⟨s1.opened stop, opens_opened _ _, hwithin, fun σ' vars' hvars' => ?_⟩
    exact ⟨0, _, rfl, σ', rfl, rfl, hscopes1 ▸ hvars', fun _ _ => rfl⟩
  next hterm =>
    intro σ' vars' hvars'
    exact ⟨1, _, run_opened hlabels hwithin (by simpa using hterm) σ', σ', rfl, rfl,
      hscopes1 ▸ hvars', fun _ _ => rfl⟩

/-! ## Loops -/

variable {test : Lower Operand} {advance : Lower Unit}
  {evalTest : (Nat → Int) → Vars → Eval (Bool × Vars)} {evalAdvance : Vars → Eval Vars}

/-- What is done after the body of a loop is straight code, which keeps to the variables in scope. -/
def Continues (u : Universe) (s : State) (advance : Lower Unit) (evalAdvance : Vars → Eval Vars) :
    Prop :=
  ∃ temps code, advance s = .ok ((), s.add temps code) ∧
    ∀ σ vars, Matches s.scopes vars σ.locals → Computes u code σ (evalAdvance vars)
      fun vars' σ' => Matches s.scopes vars' σ'.locals ∧
        ∀ i, i ∉ indices s.scopes → σ'.locals i = σ.locals i

/-- A loop, as a run: from its head the test goes on to the body or to the end, and from the body
control comes back to the head. Each round takes a step at least, so a run is as long as the rounds
that evaluation makes. -/
theorem loop_simulates {n : Nat} {head inner stop : Store → ExecState} {inv : Vars → Store → Prop}
    {test : Vars → Eval (Bool × Vars)} {round : Vars → Eval Vars}
    (htest : ∀ m σ vars, inv vars σ → Simulates u blocks m (head σ) (test vars) fun p c =>
      ∃ σ', inv p.2 σ' ∧ run u blocks 1 c = .running (if p.1 then inner σ' else stop σ'))
    (hround : ∀ σ vars, inv vars σ → Simulates u blocks n (inner σ) (round vars) fun vars' c =>
      ∃ σ', c = head σ' ∧ inv vars' σ') :
    ∀ m ≤ n, ∀ σ vars, inv vars σ → Simulates u blocks m (head σ) (iterate test round m vars)
      fun vars' c => ∃ σ', c = stop σ' ∧ inv vars' σ' := by
  intro m
  induction m with
  | zero => exact fun _ σ vars _ => ⟨_, rfl⟩
  | succ m ih =>
    intro hm σ vars hinv
    refine (htest (m + 1) σ vars hinv).bind ?_
    rintro ⟨c, vars1⟩ c1 ⟨σ1, hinv1, hstep⟩
    cases c with
    | false => exact ⟨1, _, hstep, σ1, rfl, hinv1⟩
    | true =>
      rw [Nat.add_comm m 1]
      refine Simulates.steps hstep ?_
      refine Simulates.bind ((hround σ1 vars1 hinv1).mono (Nat.le_of_succ_le hm) fun _ _ h => h) ?_
      rintro vars2 _ ⟨σ2, rfl, hinv2⟩
      exact ih (Nat.le_of_succ_le hm) σ2 vars2 hinv2

/-- The code of a test is the same whatever the values are at the start of the loop. -/
theorem Lowers.forall {rel : (Nat → Int) → Relation} {α : Type} {worth : α → Int → Prop}
    {eval : (Nat → Int) → Vars → Eval (α × Vars)}
    (h : ∀ base, Lowers u s (rel base) x form worth (eval base)) :
    ∃ v temps code, x s = .ok (v, s.add temps code) ∧ ∀ base σ vars, rel base vars σ.locals →
        Computes u code σ (eval base vars) (Evaluated u s (rel base) worth v σ) := by
  obtain ⟨v, temps, code, hx, -, -, -⟩ := h fun _ => 0
  refine ⟨v, temps, code, hx, fun base => ?_⟩
  obtain ⟨v', temps', code', hx', -, -, hrun⟩ := h base
  obtain ⟨rfl, hadd⟩ := Prod.mk.inj (Except.ok.inj (hx.symm.trans hx'))
  have hcode : s.block.code ++ code = s.block.code ++ code' :=
    congrArg (fun t : State => t.block.code) hadd
  rwa [List.append_cancel_left hcode]

/-- Straight code keeps the variables that no name stands for. -/
theorem Lowers.near {α : Type} {worth : α → Int → Prop} {eval : Vars → Eval (α × Vars)}
    (h : Lowers u s' (Matches s'.scopes) x form worth eval) (hscopes : s'.scopes = s.scopes)
    (base : Nat → Int) : Lowers u s' (Near s s.scopes base) x form worth eval := by
  obtain ⟨v, temps, code, hx, hform, hplain, hrun⟩ := h
  rw [hscopes] at hrun
  refine ⟨v, temps, code, hx, hform, hplain, fun σ vars hnear => ?_⟩
  refine (hrun σ vars hnear.vars).mono fun p σ' h => ⟨h.value, ⟨h.vars, fun i hi => ?_⟩, h.keeps⟩
  exact (h.keeps.locals i (by rw [hscopes]; exact hi.2)).trans (hnear.unnamed i hi)

/-- The end of the body of a loop, from which control goes back to the head. -/
theorem loopEnd_executes (h : Continues u s advance evalAdvance) (ends : Bool) (label : String) :
    ∃ s1, (if ends then pure () else advance : Lower Unit) s = .ok ((), s1) ∧
      Follows s (jumped s1 ends label) ∧ s1.scopes = s.scopes ∧
      ∀ blocks, Labelled blocks → (jumped s1 ends label).Within blocks → ends = false →
        ∀ t, Opens t label → t.Within blocks → ∀ n σ vars, Matches s.scopes vars σ.locals →
          Simulates u blocks n (s.here σ) (evalAdvance vars) fun vars' c =>
            ∃ σ', c = t.here σ' ∧ Near s s.scopes σ.locals vars' σ'.locals := by
  obtain ⟨temps, code, hadvance, hrun⟩ := h
  cases ends with
  | true => exact ⟨s, rfl, Follows.refl s, rfl, fun _ _ _ h => absurd h.symm Bool.false_ne_true⟩
  | false =>
    refine ⟨s.add temps code, hadvance, (follows_add s temps code).trans (follows_jumped _ _ _), rfl, ?_⟩
    intro blocks hlabels hwithin _ t ht htwithin n σ vars hvars
    refine ((hrun σ vars hvars).simulates (State.Within.of_add hwithin)).extend ?_
    rintro vars' _ ⟨σ', rfl, hvars', hrest⟩
    exact ⟨1, _, run_jump hlabels hwithin htwithin ht σ', σ', rfl, hvars', fun i hi => hrest i hi.2⟩

/-- The state at the head of a loop. -/
def loopHead (s : State) : State :=
  (skipLabel (skipLabel (skipLabel s))).opened (blockLabel s.nextLabel)

/-- The state at the start of the body of a loop, after its test. -/
def loopInner (s : State) (temps : List Temp) (code : List Instr) (x : Operand) : State :=
  (((loopHead s).add temps code).add []
    [jumpIfFalse x (blockLabel (skipLabel (skipLabel s)).nextLabel)]).opened
    (blockLabel (skipLabel s).nextLabel)

@[simp] theorem loopHead_scopes (s : State) : (loopHead s).scopes = s.scopes := by
  simp [loopHead]

@[simp] theorem loopHead_locals (s : State) : (loopHead s).locals = s.locals := by
  simp [loopHead]

@[simp] theorem loopInner_scopes (s : State) (temps : List Temp) (code : List Instr) (x : Operand) :
    (loopInner s temps code x).scopes = s.scopes := by
  simp [loopInner]

theorem follows_loopHead (s : State) : Follows s (loopHead s) :=
  (((follows_skipLabel s).trans (follows_skipLabel _)).trans (follows_skipLabel _)).trans
    (follows_opened _ _)

theorem follows_loopInner (s : State) (temps : List Temp) (code : List Instr) (x : Operand) :
    Follows s (loopInner s temps code x) :=
  (((follows_loopHead s).trans (follows_add _ _ _)).trans (follows_add _ _ _)).trans (follows_opened _ _)

/-- Lowering a loop succeeds, and its code runs the body as long as the test holds. -/
theorem lowerLoop_executes (hready : Ready vis s)
    (htest : ∀ s', s'.scopes = s.scopes → s'.locals = s.locals → ∀ base,
      Lowers u s' (Near s s.scopes base) test IsCondition IsTruth (evalTest base))
    (hbody : ∀ s', s'.block.isTerminated = false → Ready vis s' →
      Executes u s' body (fun t => t.scopes = s'.scopes) evalBody)
    (hadvance : ∀ s', Follows s s' → s'.scopes = s.scopes → Continues u s' advance evalAdvance) :
    ExecutesFrom u s (lowerLoop test body advance) (fun s' => s'.scopes = s.scopes)
      (fun base σ => σ.locals = base) (fun base n => iterate (evalTest base) (fun vars => do
          let vars ← evalBody n vars
          evalAdvance vars) n) := by
  obtain ⟨x, temps, code, hx, hrun⟩ :=
    Lowers.forall (htest (loopHead s) (loopHead_scopes s) (loopHead_locals s))
  have hfollows1 := follows_loopInner s temps code x
  have hready1 := hready.follow hfollows1 (loopInner_scopes s temps code x)
  obtain ⟨ends, s2, hs2, hterm2, hfollows2, hscopes2, hrun2⟩ := hbody _ rfl hready1
  rw [loopInner_scopes] at hscopes2 hrun2
  obtain ⟨s3, hs3, hfollows3, hscopes3, hrun3⟩ := loopEnd_executes
    (hadvance s2 (hfollows1.trans hfollows2) hscopes2) ends (blockLabel s.nextLabel)
  have hscopes : (jumped s3 ends (blockLabel s.nextLabel)).scopes = s.scopes :=
    (jumped_scopes _ _ _).trans (hscopes3.trans hscopes2)
  refine ⟨false, (jumped s3 ends (blockLabel s.nextLabel)).opened
      (blockLabel (skipLabel (skipLabel s)).nextLabel), ?_, rfl,
    ((hfollows1.trans hfollows2).trans hfollows3).trans (follows_opened _ _), hscopes, ?_⟩
  · rw [lowerLoop, bind_eq (freshLabel_eq _), bind_eq (freshLabel_eq _),
      bind_eq (freshLabel_eq _), bind_eq (openBlock_eq _ _)]
    refine (bind_eq hx).trans ?_
    rw [bind_eq (emitUnless_eq _ _ _), bind_eq (openBlock_eq _ _)]
    refine (bind_eq hs2).trans ?_
    rw [bind_eq hs3, bind_eq (jumpUnless_eq _ _ _), bind_eq (openBlock_eq _ _)]
    rfl
  · rintro blocks hlabels hwithin hopen n σ vars hvars _ rfl
    have hwithin3 := (follows_opened _ _).within blocks hwithin
    have hwithin2 := hfollows3.within blocks hwithin3
    have hwithin1 := hfollows2.within blocks hwithin2
    have hwithinTest := hwithin1.of_opened
    have hwithinHead : (loopHead s).Within blocks := hwithinTest.of_add.of_add
    refine Simulates.after (run_opened hlabels hwithinHead hopen σ) ?_
    have htestRun : ∀ m σ' vars', Near s s.scopes σ.locals vars' σ'.locals →
        Simulates u blocks m ((loopHead s).here σ') (evalTest σ.locals vars') fun p c =>
          ∃ σ'', Near s s.scopes σ.locals p.2 σ''.locals ∧ run u blocks 1 c = .running
            (if p.1 then (loopInner s temps code x).here σ'' else
              ((jumped s3 ends (blockLabel s.nextLabel)).opened
                (blockLabel (skipLabel (skipLabel s)).nextLabel)).here σ'') := by
      intro m σ' vars' hnear
      refine ((hrun σ.locals σ' vars' hnear).simulates hwithinTest.of_add).mono (Nat.le_refl m) ?_
      rintro ⟨c, vars1⟩ _ ⟨σ1, rfl, ⟨⟨w, hw, htruth⟩, hnear1, -⟩⟩
      refine ⟨σ1, hnear1, ?_⟩
      cases c with
      | true => exact run_jumpIfFalse_true _ hwithinTest hw htruth
      | false => exact run_jumpIfFalse_false hlabels hwithinTest hwithin (opens_opened _ _) hw htruth
    have hroundRun : ∀ σ' vars', Near s s.scopes σ.locals vars' σ'.locals →
        Simulates u blocks n ((loopInner s temps code x).here σ')
          (evalBody n vars' >>= evalAdvance) fun vars'' c =>
            ∃ σ'', c = (loopHead s).here σ'' ∧ Near s s.scopes σ.locals vars'' σ''.locals := by
      intro σ' vars' hnear
      refine (hrun2 blocks hlabels hwithin2 rfl n σ' vars' hnear.vars () trivial).bind ?_
      rintro vars1 _ ⟨σ1, rfl, hopen1, hnear1⟩
      refine (hrun3 blocks hlabels hwithin3 (hterm2.symm.trans hopen1) (loopHead s)
        (opens_opened _ _) hwithinHead n σ1 vars1 hnear1.vars).mono (Nat.le_refl n) ?_
      rintro vars2 c ⟨σ2, hc, hnear2⟩
      refine ⟨σ2, hc, ?_, fun i hi => ?_⟩
      · rw [← hscopes2]
        exact hnear2.vars
      · have hi1 := hfollows1.unnamed hi
        calc σ2.locals i = σ1.locals i := hnear2.unnamed i (hfollows2.unnamed hi1)
          _ = σ'.locals i := hnear1.unnamed i hi1
          _ = σ.locals i := hnear.unnamed i hi
    refine (loop_simulates htestRun hroundRun n (Nat.le_refl n) σ vars
      ⟨hvars, fun _ _ => rfl⟩).mono (Nat.le_refl n) ?_
    rintro vars' _ ⟨σ', rfl, hnear⟩
    have hvars' := hnear.vars
    rw [← hscopes] at hvars'
    exact ⟨σ', rfl, rfl, hvars', hnear.unnamed⟩

end TreeAsm.Meaning
