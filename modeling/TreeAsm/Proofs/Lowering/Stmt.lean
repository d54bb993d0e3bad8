import TreeAsm.Proofs.Lowering.Blocks
import TreeAsm.Proofs.Program.Paths

/-!
# What lowering a statement does to the graph of blocks

Every statement keeps the graph in order (`lowerStmt_runs`). A loop and a conditional take the labels
they need first, jump to them while their blocks are still to come, and open them in the end. The one
label that may never be opened is the end of a conditional; then no arm jumps to it, because control
reaches the end of none of them (`lowerArms_runs`). Whether control reaches an end can be read off the
structure of the statement, where what stands after a return counts as reached (`Keeps`).
-/

namespace TreeAsm.Lowering

open Ir
open Program (Arm Expr Stmt TypeRef armsContinue optionalContinues stmtsContinue)
open Builds (within)
open Lower (bind_ok pure_ok fail_ok)

variable {s s' : State} {pending : List String} {env : Env}

/-! ## Simple statements -/

theorem writtenType_builds (name : String) (ref : TypeRef) :
    Builds env s (writtenType env name ref) fun t s' => s = s' ∧ (t ≠ .untyped → t.Proper) := by
  unfold writtenType
  split
  · exact Builds.pure ⟨rfl, fun h => absurd rfl h⟩
  · exact within ((typeOf_builds ref).mono fun t s' h => ⟨h.1, fun _ => h.2⟩) _

theorem initialValue_builds (name : String) (init : Option Expr) :
    Builds env s (initialValue env name init) fun v s' => ∀ x, v = some x → s'.Ready x := by
  cases init with
  | none => exact Builds.pure fun x hx => absurd hx (by simp)
  | some e =>
    exact some_builds (within (lowerValue_builds env e s) _)

theorem variableType_proper {written : Ty} {value : Option Operand}
    (hwritten : written ≠ .untyped → written.Proper) (hvalue : ∀ x, value = some x → x.Fit) :
    (variableType written value).Proper := by
  unfold variableType
  split
  next h => exact hwritten h
  next =>
    cases value with
    | none => trivial
    | some v =>
      show (if v.type ≠ .untyped then v.type else .int : Ty).Proper
      split
      · exact (hvalue v rfl).type
      · trivial

variable {a : Unit} {ends goes : Bool} {x first increment : Operand} {t : Ty} {body : Lower Bool}
  {step : Option Expr}

theorem lowerVar_runs {name : String} {ref : TypeRef} {init : Option Expr} (hwf : s.Wf env pending)
    (hends : s.Ends false) (h : lowerVar env name ref init s = .ok (a, s')) :
    Runs env pending s s' false := by
  obtain ⟨written, s1, h1, h⟩ := bind_ok h
  obtain ⟨-, -, rfl, hwritten⟩ := (writtenType_builds name ref).runs hwf hends h1
  obtain ⟨value, s2, h2, h⟩ := bind_ok h
  obtain ⟨hr2, -, hvalue⟩ := (initialValue_builds name init).runs hwf hends h2
  have ht := variableType_proper hwritten fun x hx => (hvalue x hx).fit
  obtain ⟨_, s3, h3, h⟩ := bind_ok h
  obtain ⟨-, rfl⟩ := Lower.lift_ok (Lower.within_ok h3)
  obtain ⟨v, s4, h4, h⟩ := bind_ok h
  obtain ⟨_, s5, h5, h⟩ := bind_ok h
  obtain ⟨hr4, hblock4, -, hv⟩ := newLocal_runs ht hr2.wf hr2.ends h4
  obtain ⟨hr5, hblock5⟩ := define_runs hr4.wf hr4.ends hv h5
  have hadv := (hr2.advances.trans hr4.advances).trans hr5.advances
  cases value with
  | none =>
    obtain ⟨-, rfl⟩ := pure_ok h
    exact ⟨hadv, hr5.wf, hr5.ends⟩
  | some x =>
    have hx := (hvalue x rfl).keep (hr4.advances.trans hr5.advances).toLe (hblock5.trans hblock4)
    have hv := hv.mono hr5.advances.toLe
    exact hadv.runs ((emitMoveVar_builds hv.1 hv.2 (hx.coerce ht)).runs hr5.wf hr5.ends h).1

theorem setOpcode?_binary {op : String} {code : Opcode} (h : setOpcode? op = some code) :
    code.isBinary := by
  unfold setOpcode? at h
  split at h
  next c hc =>
    split at h
    · exact absurd h (by simp)
    · cases h
      exact ofOperator_binary hc
  next => exact absurd h (by simp)

theorem setValue_builds (name op : String) {v : Operand} (hv : s.Ready v) :
    Builds env s (setValue env name op v) fun x s' => s'.Ready x := by
  unfold setValue
  split
  · exact Builds.pure hv
  · cases hcode : setOpcode? op with
    | none => exact Builds.fail
    | some code =>
      refine Builds.bind (readName_builds name) fun cur s1 hadds hcur => ?_
      exact emitBinary_builds (setOpcode?_binary hcode) hcur (hv.mono hadds)

theorem lowerSet_builds (name op : String) (value : Expr) :
    Builds env s (lowerSet env name op value) fun _ _ => True := by
  refine Builds.bind (within (lowerValue_builds env value s) _) fun v s1 _ hv => ?_
  refine Builds.bind (setValue_builds name op hv) fun v s2 _ hv => ?_
  exact Builds.bind (assignName_builds name hv) fun _ s3 _ _ => Builds.pure trivial

theorem emitRet_runs {args : List Operand} (hwf : s.Wf env pending) (hends : s.Ends false)
    (hform : Instr.Form ⟨.ret, none, args⟩) (hargs : ∀ x ∈ args, s.Usable x)
    (h : emit .ret none args s = .ok (a, s')) : Runs env pending s s' true :=
  emitEnd_runs hwf hends rfl (by simp) hform hargs (by rintro (h | h) <;> cases h) h

theorem lowerReturn_runs {value : Option Expr} (hret : env.ret.Proper) (hwf : s.Wf env pending)
    (hends : s.Ends false) (h : lowerReturn env value s = .ok (a, s')) :
    Runs env pending s s' true := by
  unfold lowerReturn at h
  split at h
  next =>
    split at h
    · exact emitRet_runs hwf hends .retNothing (by simp) h
    · exact absurd h fail_ok
  next e =>
    split at h
    · exact absurd h fail_ok
    · obtain ⟨v, s1, h1, h⟩ := bind_ok h
      obtain ⟨hr, -, hv⟩ := (within (lowerValue_builds env e s) _).runs hwf hends h1
      have hv := hv.coerce (u := env.types) hret
      refine hr.advances.runs (emitRet_runs hr.wf hr.ends (.ret hv.fit) (fun x hx => ?_) h)
      rw [List.mem_singleton.mp hx]
      exact hv.usable

/-! ## Bodies -/

theorem ensureOpen_runs (hwf : s.Wf env pending) (hends : s.Ends ends)
    (h : ensureOpen s = .ok (a, s')) : Runs env pending s s' false := by
  obtain ⟨t, s1, h1, h⟩ := bind_ok h
  have h1' : (s.block.isTerminated, s) = (t, s1) := Except.ok.inj h1
  cases h1'
  rw [hends.terminated] at h
  cases ends with
  | false =>
    obtain ⟨-, rfl⟩ := pure_ok h
    exact ⟨Advances.refl _, hwf, hends⟩
  | true =>
    obtain ⟨l, s1, h2, h⟩ := bind_ok h
    obtain ⟨rfl, hfresh, hk⟩ := freshLabel_runs hwf hends h2
    obtain ⟨hwf', hends', ho⟩ :=
      openBlock_wf hfresh.wf hfresh.ends.closable hk (fun l hl => .inr hl) h
    exact ⟨hfresh.advances.opened (Nat.le_refl _) ho, hwf', hends'⟩

/-- The end of a body. -/
theorem jumpUnless_runs {l : String} (hwf : s.Wf env pending) (hends : s.Ends ends)
    (hl : ends = false → l ∈ s.labels ++ pending) (h : jumpUnless ends l s = .ok (a, s')) :
    Runs env pending s s' true := by
  cases ends with
  | true =>
    obtain ⟨-, rfl⟩ := pure_ok h
    exact ⟨Advances.refl _, hwf, hends⟩
  | false => exact emitJump_runs hwf hends (hl rfl) h

/-- A step that keeps the graph in order, and tells whether control cannot reach its end: it does
exactly if `goes`. -/
def Keeps (env : Env) (goes : Bool) (x : Lower Bool) : Prop :=
  ∀ {pending s s' ends}, s.Wf env pending → s.Ends false → x s = .ok (ends, s') →
    Runs env pending s s' ends ∧ ends = !goes

/-- A loop keeps the graph in order if its parts do. They are lowered in states that know at least
what `s0` does, so that they may refer to variables of it. -/
theorem lowerLoop_runs {test : Lower Operand} {advance : Lower Unit} {s0 : State} (hle : s0.Le s)
    (htest : ∀ t, s0.Le t → Builds env t test fun c t' => t'.Ready c) (hbody : Keeps env goes body)
    (hadvance : ∀ t, s0.Le t → Builds env t advance fun _ _ => True)
    (hwf : s.Wf env pending) (hends : s.Ends false)
    (h : lowerLoop test body advance s = .ok (ends, s')) :
    Runs env pending s s' ends ∧ ends = false := by
  obtain ⟨head, s1, h1, h⟩ := bind_ok h
  obtain ⟨inner, s2, h2, h⟩ := bind_ok h
  obtain ⟨stop, s3, h3, h⟩ := bind_ok h
  obtain ⟨rfl, hr1, hhead⟩ := freshLabel_runs hwf hends h1
  obtain ⟨rfl, hr2, hinner⟩ := freshLabel_runs hr1.wf hr1.ends h2
  obtain ⟨rfl, hr3, hstop⟩ := freshLabel_runs hr2.wf hr2.ends h3
  have hlt1 : s.nextLabel < s1.nextLabel := hhead.1
  have hlt2 : s1.nextLabel < s2.nextLabel := hinner.1
  have hadv3 := (hr1.advances.trans hr2.advances).trans hr3.advances
  have hheadR := (hhead.mono hr2.advances).mono hr3.advances
  have hinnerR := hinner.mono hr3.advances
  -- the head is open while the condition is computed
  obtain ⟨_, s4, h4, h⟩ := bind_ok h
  obtain ⟨hwf4, hends4, ho4⟩ :=
    openBlock_wf hr3.wf hr3.ends.closable hheadR (fun l hl => .inr hl) h4
  have hadv4 := hadv3.opened (Nat.le_refl _) ho4
  obtain ⟨c, s5, h5, h⟩ := bind_ok h
  obtain ⟨hr5, -, hc⟩ := (htest s4 (hle.trans hadv4.toLe)).runs hwf4 hends4 h5
  have hinner5 := (hinnerR.opened (by omega) ho4).mono hr5.advances
  have hstop5 := (hstop.opened (by omega) ho4).mono hr5.advances
  -- the body is open, and the end is waited for
  obtain ⟨_, s6, h6, h⟩ := bind_ok h
  obtain ⟨_, s7, h7, h⟩ := bind_ok h
  obtain ⟨hwf6, hsealed, hadv6⟩ := emitUnless_wf hr5.wf hr5.ends hc h6
  obtain ⟨hwf7, hends7, ho7⟩ :=
    openBlock_wf hwf6 (.inr hsealed) (hinner5.mono hadv6) (fun l hl => .inr hl) h7
  have hadv7 := ((hadv4.trans hr5.advances).trans hadv6).opened (by omega) ho7
  have hmem7 : blockLabel s.nextLabel ∈ s7.labels := by
    rw [ho7.labels]
    refine List.mem_append_left _ (hadv6.kept _ (hr5.advances.kept _ ?_))
    rw [ho4.labels]
    simp
  obtain ⟨e, s8, h8, h⟩ := bind_ok h
  have hr8 := (hbody hwf7 hends7 h8).1
  obtain ⟨_, s9, h9, h⟩ := bind_ok h
  have hr9 : Runs env (blockLabel s2.nextLabel :: pending) s8 s9 e := by
    cases e with
    | true =>
      obtain ⟨-, rfl⟩ := pure_ok h9
      exact ⟨Advances.refl _, hr8.wf, hr8.ends⟩
    | false =>
      have hle8 := hle.trans (hadv7.trans hr8.advances).toLe
      exact ((hadvance s8 hle8).runs hr8.wf hr8.ends h9).1
  have hadv9 := hr8.advances.trans hr9.advances
  obtain ⟨_, s10, h10, h⟩ := bind_ok h
  have hr10 := jumpUnless_runs hr9.wf hr9.ends (fun _ => List.mem_append_left _ (hadv9.kept _ hmem7)) h10
  -- every jump to the end is resolved by opening it
  obtain ⟨_, s11, h11, h⟩ := bind_ok h
  obtain ⟨rfl, rfl⟩ := pure_ok h
  have hstop10 :=
    ((hstop5.mono hadv6).opened (by omega) ho7).mono (hadv9.trans hr10.advances)
  obtain ⟨hwf', hends', ho⟩ := openBlock_wf hr10.wf hr10.ends.closable hstop10
    (fun l hl => List.mem_cons.mp hl) h11
  exact ⟨⟨((hadv7.trans hadv9).trans hr10.advances).opened (by omega) ho, hwf', hends'⟩, rfl⟩

/-- The end and the step of a counting loop: numbers, or variables that hold them. -/
def State.Parked (s : State) (x : Operand) : Prop :=
  (∃ v : Local, x = .var v ∧ s.Variable v) ∨ ∃ value t, x = .int value t ∧ t.Proper

theorem State.Parked.mono (h : s.Parked x) (hle : s.Le s') : s'.Parked x :=
  h.imp_left fun ⟨v, hx, hv⟩ => ⟨v, hx, hv.mono hle⟩

theorem load_parked_builds (hx : s.Parked x) : Builds env s (load x) fun y s' => s'.Ready y := by
  rcases hx with ⟨v, rfl, hv⟩ | ⟨value, t, rfl, ht⟩
  · exact load_var_builds hv.1 hv.2
  · exact Builds.pure (State.ready_int ht)

theorem keepBound_runs {what : String} {y : Operand} (ht : t.Proper) (hwf : s.Wf env pending)
    (hends : s.Ends false) (hx : s.Ready x) (h : keepBound what t x s = .ok (y, s')) :
    Runs env pending s s' false ∧ s'.Parked y := by
  unfold keepBound at h
  split at h
  next hlit =>
    obtain ⟨rfl, rfl⟩ := pure_ok h
    refine ⟨⟨Advances.refl _, hwf, hends⟩, .inr ?_⟩
    cases y with
    | int value type => exact ⟨value, type, rfl, hx.fit⟩
    | _ => cases hlit
  · obtain ⟨v, s1, h1, h⟩ := bind_ok h
    obtain ⟨_, s2, h2, h⟩ := bind_ok h
    obtain ⟨rfl, rfl⟩ := pure_ok h
    obtain ⟨hr1, hblock, hv⟩ := hiddenLocal_runs ht hwf hends h1
    obtain ⟨hr2, -, -⟩ := (emitMoveVar_builds hv.1 hv.2
      (hx.keep hr1.advances.toLe hblock)).runs hr1.wf hr1.ends h2
    exact ⟨hr1.advances.runs hr2, .inl ⟨v, rfl, hv.mono hr2.advances.toLe⟩⟩

theorem loopType_proper (h : first.Fit) : (loopType first).Proper := by
  unfold loopType
  split
  · trivial
  · exact h.type

theorem loopStep_runs (ht : t.Proper) (hwf : s.Wf env pending) (hends : s.Ends false)
    (h : loopStep env t step s = .ok (x, s')) : Runs env pending s s' false ∧ s'.Parked x := by
  cases step with
  | none =>
    obtain ⟨rfl, rfl⟩ := pure_ok h
    exact ⟨⟨Advances.refl _, hwf, hends⟩, .inr ⟨1, t, rfl, ht⟩⟩
  | some e =>
    obtain ⟨y, s1, h1, h⟩ := bind_ok h
    obtain ⟨hr1, -, hy⟩ := (within (lowerValue_builds env e s) _).runs hwf hends h1
    obtain ⟨hr, hx⟩ := keepBound_runs ht hr1.wf hr1.ends hy h
    exact ⟨hr1.advances.runs hr, hx⟩

theorem loopTest_builds {i : Local} {limit : Operand} (hi : s.Variable i) (ht : t.Proper)
    (hlimit : s.Parked limit) :
    Builds env s (loopTest env i t limit increment) fun c s' => s'.Ready c := by
  have hcompare : (loopCompare increment).isBinary := by
    cases increment with
    | int value _ =>
      show (if _ then _ else _ : Opcode).isBinary
      split <;> rfl
    | temp _ | var _ | outer _ _ | str _ | symbol _ | label _ => rfl
  refine Builds.bind (load_var_builds hi.1 hi.2) fun cur s1 hadds1 hcur => ?_
  refine Builds.bind (load_parked_builds (hlimit.mono hadds1.toLe)) fun last s2 hadds hlast => ?_
  exact emitBinary_builds hcompare (hcur.mono hadds) (hlast.coerce ht)

theorem loopAdvance_builds {i : Local} (hi : s.Variable i) (ht : t.Proper)
    (hincrement : s.Parked increment) :
    Builds env s (loopAdvance env i t increment) fun _ _ => True := by
  refine Builds.bind (load_var_builds hi.1 hi.2) fun cur s1 hadds1 hcur => ?_
  refine Builds.bind (load_parked_builds (hincrement.mono hadds1.toLe)) fun amount s2 hadds2 hamount => ?_
  refine Builds.bind (emitBinary_builds rfl (hcur.mono hadds2) (hamount.coerce ht))
    fun next s3 hadds3 hnext => ?_
  have hi := hi.mono ((hadds1.trans hadds2).trans hadds3).toLe
  exact emitMoveVar_builds hi.1 hi.2 hnext

theorem lowerCounting_runs {var : String} {stop : Expr} (hfirst : s.Ready first)
    (hbody : Keeps env goes body) (hwf : s.Wf env pending) (hends : s.Ends false)
    (h : lowerCounting env var first stop step body s = .ok (ends, s')) :
    Runs env pending s s' ends ∧ ends = false := by
  have ht := loopType_proper hfirst.fit
  obtain ⟨i, s1, h1, h⟩ := bind_ok h
  obtain ⟨_, s2, h2, h⟩ := bind_ok h
  obtain ⟨_, s3, h3, h⟩ := bind_ok h
  obtain ⟨hr1, hblock1, -, hi1⟩ := newLocal_runs ht hwf hends h1
  obtain ⟨hr2, hblock2⟩ := define_runs hr1.wf hr1.ends hi1 h2
  have hi2 := hi1.mono hr2.advances.toLe
  have hfirst2 := hfirst.keep (hr1.advances.trans hr2.advances).toLe (hblock2.trans hblock1)
  obtain ⟨hr3, -, -⟩ := (emitMoveVar_builds hi2.1 hi2.2 (hfirst2.coerce ht)).runs hr2.wf hr2.ends h3
  obtain ⟨limit, s4, h4, h⟩ := bind_ok h
  obtain ⟨hr4, -, hlimit⟩ := (within (lowerValue_builds env stop s3) _).runs hr3.wf hr3.ends h4
  obtain ⟨bound, s5, h5, h⟩ := bind_ok h
  obtain ⟨hr5, hbound⟩ := keepBound_runs ht hr4.wf hr4.ends hlimit h5
  obtain ⟨increment, s6, h6, h⟩ := bind_ok h
  obtain ⟨hr6, hincrement⟩ := loopStep_runs ht hr5.wf hr5.ends h6
  have hi := hi2.mono (((hr3.advances.trans hr4.advances).trans hr5.advances).trans hr6.advances).toLe
  have hbound6 := hbound.mono hr6.advances.toLe
  have hadv := ((((hr1.advances.trans hr2.advances).trans hr3.advances).trans
    hr4.advances).trans hr5.advances).trans hr6.advances
  obtain ⟨hr, hends⟩ := lowerLoop_runs (State.Le.refl s6)
    (fun t hle => loopTest_builds (hi.mono hle) ht (hbound6.mono hle)) hbody
    (fun t hle => loopAdvance_builds (hi.mono hle) ht (hincrement.mono hle)) hr6.wf hr6.ends h
  exact ⟨hadv.runs hr, hends⟩

/-! ## Conditionals -/

/-- The labels that are waited for, with one more if it has been jumped to. -/
def waiting (jumped : Bool) (l : String) (pending : List String) : List String :=
  if jumped then l :: pending else pending

theorem mem_waiting {jumped : Bool} {l l' : String} :
    l' ∈ waiting jumped l pending ↔ (jumped ∧ l' = l) ∨ l' ∈ pending := by
  cases jumped <;> simp [waiting]

/-- One arm of a conditional: a jump past it if its condition is false, its body, and a jump to the
end of the conditional if control reaches the end of the body. -/
theorem lowerArm_runs {cond : Expr} {next stop : String} (hbody : Keeps env goes body)
    (hwf : s.Wf env pending) (hends : s.Ends false)
    (h : lowerArm env cond next stop body s = .ok (ends, s')) :
    Runs env (next :: waiting (!ends) stop pending) s s' true ∧ ends = !goes := by
  obtain ⟨c, s1, h1, h⟩ := bind_ok h
  obtain ⟨hr1, -, hc⟩ := (within (lowerValue_builds env cond s) _).runs hwf hends h1
  obtain ⟨_, s2, h2, h⟩ := bind_ok h
  obtain ⟨hwf2, hsealed, hadv2⟩ := emitUnless_wf hr1.wf hr1.ends hc h2
  obtain ⟨l, s3, h3, h⟩ := bind_ok h
  obtain ⟨rfl, hwf3, hadv3, hk, hblock⟩ := freshLabel_wf hwf2 h3
  obtain ⟨_, s4, h4, h⟩ := bind_ok h
  obtain ⟨hwf4, hends4, ho⟩ :=
    openBlock_wf hwf3 (.inr (by rw [hblock]; exact hsealed)) hk (fun l hl => .inr hl) h4
  obtain ⟨e, s5, h5, h⟩ := bind_ok h
  obtain ⟨_, s6, h6, h⟩ := bind_ok h
  obtain ⟨rfl, rfl⟩ := pure_ok h
  obtain ⟨hr5, hgoes⟩ := hbody hwf4 hends4 h5
  have hwf5 : s5.Wf env (next :: waiting (!ends) stop pending) := by
    refine hr5.wf.weaken (List.cons_subset_cons _ ?_)
    intro l hl
    exact mem_waiting.mpr (.inr hl)
  have hr6 := jumpUnless_runs hwf5 hr5.ends (by
    intro he
    refine List.mem_append_right _ (List.mem_cons_of_mem _ (mem_waiting.mpr (.inl ⟨?_, rfl⟩)))
    rw [he]
    rfl) h6
  have hadv4 := ((hr1.advances.trans hadv2).trans hadv3).opened
    (Nat.le_trans hr1.advances.nextLabel hadv2.nextLabel) ho
  exact ⟨(hadv4.trans hr5.advances).runs hr6, hgoes⟩

/-- The end of a conditional or of an arm, opened if control can reach it. -/
theorem openIf_runs {s0 : State} {k : Nat} {jumped reached e : Bool} {a : Unit}
    (hwf : s.Wf env (waiting jumped (blockLabel k) pending)) (hends : s.Ends e)
    (hjumped : jumped → reached) (hreached : reached = false → e)
    (hadv : Advances s0 s) (hk : s.Reserved k) (hk0 : s0.nextLabel ≤ k)
    (h : openIf reached (blockLabel k) s = .ok (a, s')) : Runs env pending s0 s' (!reached) := by
  cases reached with
  | true =>
    obtain ⟨hwf', hends', ho⟩ := openBlock_wf hwf hends.closable hk (by
      intro l hl
      rcases mem_waiting.mp hl with ⟨-, hl⟩ | hl
      · exact .inl hl
      · exact .inr hl) h
    exact ⟨hadv.opened hk0 ho, hwf', hends'⟩
  | false =>
    obtain ⟨-, rfl⟩ := pure_ok h
    have hnot : jumped = false := by
      cases jumped with
      | false => rfl
      | true => exact absurd (hjumped rfl) (by simp)
    rw [hnot] at hwf
    rw [hreached rfl] at hends
    exact ⟨hadv, hwf, hends⟩

/-! ## Statements -/

mutual

/-- A statement that is lowered keeps the graph of blocks in order, and control reaches its end
exactly if its lowering says so. -/
theorem lowerStmt_runs (env : Env) (hret : env.ret.Proper) : ∀ (st : Stmt),
    Keeps env (st.continues true) (lowerStmt env st) := by
  intro st pending s s' ends hwf hends h
  cases st with
  | block body => exact lowerBlock_runs env hret body hwf hends h
  | var _ name ref init =>
    obtain ⟨_, s1, h1, h⟩ := bind_ok h
    obtain ⟨rfl, rfl⟩ := pure_ok h
    exact ⟨lowerVar_runs hwf hends h1, rfl⟩
  | set _ name op value =>
    obtain ⟨_, s1, h1, h⟩ := bind_ok h
    obtain ⟨rfl, rfl⟩ := pure_ok h
    exact ⟨((lowerSet_builds name op value).runs hwf hends h1).1, rfl⟩
  | cond _ arms otherwise =>
    obtain ⟨stop, s1, h1, h⟩ := bind_ok h
    obtain ⟨rfl, hr1, hk⟩ := freshLabel_runs hwf hends h1
    obtain ⟨reached, s2, h2, h⟩ := bind_ok h
    obtain ⟨hadv2, hwf2, rfl, e2, hends2, he2⟩ := lowerArms_runs env hret arms (hr1.wf.weaken (by
      intro l hl
      exact mem_waiting.mpr (.inr hl))) hr1.ends (fun _ => rfl) hk h2
    have hadv1 := hr1.advances.trans hadv2
    have hk2 := hk.mono hadv2
    obtain ⟨e, s3, h3, h⟩ := bind_ok h
    obtain ⟨_, s4, h4, h⟩ := bind_ok h
    obtain ⟨rfl, rfl⟩ := pure_ok h
    cases otherwise with
    | none =>
      obtain ⟨rfl, rfl⟩ := pure_ok h3
      exact ⟨openIf_runs hwf2 hends2 (by simp) (by simp) hadv1 hk2 (Nat.le_refl _) h4, rfl⟩
    | some body =>
      rw [he2 rfl] at hends2
      obtain ⟨hr3, rfl⟩ := lowerBlock_runs env hret body hwf2 hends2 h3
      refine ⟨openIf_runs hr3.wf hr3.ends ?_ ?_ (hadv1.trans hr3.advances) (hk2.mono hr3.advances)
        (Nat.le_refl _) h4, by rw [Bool.not_not]; rfl⟩
      · intro hj
        simp only [Option.isSome_some, Bool.not_true, Bool.or_false] at hj
        rw [hj, Bool.true_or]
      · intro hr
        simpa using (Bool.or_eq_false_iff.mp hr).2
  | «while» _ cond body =>
    exact lowerLoop_runs (State.Le.refl _) (fun t _ => within (lowerValue_builds env cond t) _)
      (lowerOptional_runs env hret body) (fun _ _ => Builds.pure trivial) hwf hends h
  | «for» _ var start stop step body =>
    obtain ⟨first, s1, h1, h⟩ := bind_ok h
    obtain ⟨hr1, -, hfirst⟩ := (within (lowerValue_builds env start _) _).runs hwf hends h1
    obtain ⟨hr, hends⟩ := inScope_runs hr1.wf hr1.ends (fun hle hblock hwf2 hends2 h2 =>
      lowerCounting_runs (hfirst.keep hle hblock) (lowerOptional_runs env hret body) hwf2 hends2 h2) h
    exact ⟨hr1.advances.runs hr, hends⟩
  | call _ _ _ | expr _ _ =>
    obtain ⟨_, s1, h1, h⟩ := bind_ok h
    obtain ⟨rfl, rfl⟩ := pure_ok h
    exact ⟨((lowerExpr_builds env _ _).runs hwf hends h1).1, rfl⟩
  | «return» _ value =>
    obtain ⟨_, s1, h1, h⟩ := bind_ok h
    obtain ⟨rfl, rfl⟩ := pure_ok h
    exact ⟨lowerReturn_runs hret hwf hends h1, rfl⟩
  | space | func | outside | struct => exact absurd h (fail_ok (s := s))

theorem lowerBlock_runs (env : Env) (hret : env.ret.Proper) : ∀ (b : Program.Block),
    Keeps env (b.continues true) (lowerBlock env b)
  | .mk _ stmts => fun hwf hends h =>
    inScope_runs hwf hends (fun _ _ hwf hends h => lowerStmts_runs env hret stmts hwf hends h) h

theorem lowerOptional_runs (env : Env) (hret : env.ret.Proper) : ∀ (b : Option Program.Block),
    Keeps env (optionalContinues true b) (lowerOptional env b)
  | some b => fun hwf hends h => lowerBlock_runs env hret b hwf hends h
  | none => by
    intro hwf hends h
    obtain ⟨rfl, rfl⟩ := pure_ok h
    exact ⟨⟨Advances.refl _, hwf, hends⟩, rfl⟩

theorem lowerStmts_runs (env : Env) (hret : env.ret.Proper) : ∀ (stmts : List Stmt) {s s' : State} {pending : List String}
    {before ends : Bool}, s.Wf env pending → s.Ends before →
    lowerStmts env before stmts s = .ok (ends, s') →
    Runs env pending s s' ends ∧ ends = !stmtsContinue true (!before) stmts
  | [], s, _, _, before, _, hwf, hends, h => by
    obtain ⟨t, s1, h1, h⟩ := bind_ok h
    have h1' : (s.block.isTerminated, s) = (t, s1) := Except.ok.inj h1
    obtain ⟨rfl, rfl⟩ := Prod.mk.inj h1'
    obtain ⟨rfl, rfl⟩ := pure_ok h
    rw [hends.terminated, Bool.or_self]
    exact ⟨⟨Advances.refl _, hwf, hends⟩, (Bool.not_not before).symm⟩
  | st :: rest, _, _, _, before, _, hwf, hends, h => by
    obtain ⟨_, s1, h1, h⟩ := bind_ok h
    obtain ⟨e, s2, h2, h⟩ := bind_ok h
    have hr1 := ensureOpen_runs hwf hends h1
    obtain ⟨hr2, rfl⟩ := lowerStmt_runs env hret st hr1.wf hr1.ends (Lower.within_ok h2)
    obtain ⟨hr3, hgoes⟩ := lowerStmts_runs env hret rest hr2.wf hr2.ends h
    refine ⟨(hr1.advances.trans hr2.advances).runs hr3, ?_⟩
    rw [hgoes, stmtsContinue, Bool.not_not, Bool.or_true, Bool.true_and]

/-- The arms of a conditional. The end is waited for as soon as control can reach it after an arm,
and also if nothing follows the last arm that is not taken. -/
theorem lowerArms_runs (env : Env) (hret : env.ret.Proper) : ∀ (arms : List Arm) {s s' : State} {pending : List String}
    {k : Nat} {hasElse reached r e : Bool},
    s.Wf env (waiting (reached || (arms.isEmpty && !hasElse)) (blockLabel k) pending) → s.Ends e →
    ((!arms.isEmpty || hasElse) → e = false) → s.Reserved k →
    lowerArms env (blockLabel k) hasElse reached arms s = .ok (r, s') →
    Advances s s' ∧ s'.Wf env (waiting (r || !hasElse) (blockLabel k) pending) ∧
      r = (reached || armsContinue true arms) ∧ ∃ e', s'.Ends e' ∧ (hasElse → e' = false)
  | [], s, s', pending, k, hasElse, reached, r, e, hwf, hends, hopen, hk, h => by
    obtain ⟨rfl, rfl⟩ := pure_ok h
    refine ⟨Advances.refl _, ?_, (Bool.or_false r).symm, e, hends, fun he => hopen (by simp [he])⟩
    simpa using hwf
  | .mk cond body :: rest, s, s', pending, k, hasElse, reached, r, e, hwf, hends, hopen, hk, h => by
    rw [hopen (by simp)] at hends
    obtain ⟨next, s1, h1, h⟩ := bind_ok h
    obtain ⟨ends, s2, h2, h⟩ := bind_ok h
    obtain ⟨_, s3, h3, h4⟩ := bind_ok h
    have hwaiting : waiting (!ends) (blockLabel k) (waiting reached (blockLabel k) pending)
        ⊆ waiting (reached || !ends) (blockLabel k) pending := by
      intro l hl
      rw [mem_waiting, mem_waiting] at hl
      rw [mem_waiting, Bool.or_eq_true]
      rcases hl with ⟨he, rfl⟩ | ⟨hr, rfl⟩ | hl
      · exact .inl ⟨.inr he, rfl⟩
      · exact .inl ⟨.inl hr, rfl⟩
      · exact .inr hl
    have hgoes : ∀ {r}, ends = !optionalContinues true body →
        r = ((reached || !ends) || armsContinue true rest) →
        r = (reached || armsContinue true (.mk cond body :: rest)) := by
      rintro r rfl rfl
      rw [armsContinue, Bool.not_not, Bool.or_assoc]
    rw [List.isEmpty_cons, Bool.false_and, Bool.or_false] at hwf
    cases hmore : !rest.isEmpty || hasElse with
    | true =>
      rw [hmore] at h1 h3
      obtain ⟨rfl, hr1, hnext⟩ := freshLabel_runs hwf hends h1
      obtain ⟨hr2, he⟩ := lowerArm_runs (lowerOptional_runs env hret body) hr1.wf hr1.ends h2
      obtain ⟨hwf3, hends3, ho⟩ := openBlock_wf hr2.wf hr2.ends.closable (hnext.mono hr2.advances)
        (fun l hl => (List.mem_cons.mp hl).imp_right (hwaiting ·)) h3
      have hadv2 := hr1.advances.trans hr2.advances
      have hne : k ≠ s.nextLabel := Nat.ne_of_lt hk.1
      have hrest : (rest.isEmpty && !hasElse) = false := by
        cases hempty : rest.isEmpty with
        | false => rfl
        | true =>
          rw [hempty] at hmore
          simpa using hmore
      obtain ⟨hadv, hwf', hr, hends'⟩ := lowerArms_runs env hret rest (by rw [hrest, Bool.or_false]; exact hwf3)
        hends3 (fun _ => rfl) ((hk.mono hadv2).opened hne ho) h4
      exact ⟨(hadv2.opened (Nat.le_refl _) ho).trans hadv, hwf', hgoes he hr, hends'⟩
    | false =>
      rw [hmore] at h1 h3
      obtain ⟨rfl, rfl⟩ := pure_ok h1
      obtain ⟨-, rfl⟩ := pure_ok h3
      obtain ⟨hr2, he⟩ := lowerArm_runs (lowerOptional_runs env hret body) hwf hends h2
      have hlast : (rest.isEmpty && !hasElse) := by
        obtain ⟨hempty, helse⟩ := Bool.or_eq_false_iff.mp hmore
        rw [helse, show rest.isEmpty = true by simpa using hempty]
        rfl
      have hwf3 : s3.Wf env (waiting ((reached || !ends) || (rest.isEmpty && !hasElse)) (blockLabel k)
          pending) := by
        rw [hlast, Bool.or_true]
        refine hr2.wf.weaken ?_
        intro l hl
        rcases List.mem_cons.mp hl with rfl | hl
        · exact List.mem_cons_self
        · exact List.mem_cons.mpr ((mem_waiting.mp (hwaiting hl)).imp_left And.right)
      obtain ⟨hadv, hwf', hr, hends'⟩ :=
        lowerArms_runs env hret rest hwf3 hr2.ends (by rw [hmore]; simp) (hk.mono hr2.advances) h4
      exact ⟨hr2.advances.trans hadv, hwf', hgoes he hr, hends'⟩

end

end TreeAsm.Lowering
