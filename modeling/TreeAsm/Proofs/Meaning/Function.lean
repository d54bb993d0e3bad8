import TreeAsm.Proofs.Lowering.File
import TreeAsm.Proofs.Meaning.Stmt

/-!
# What a lowered function does

The arguments of a function are the values of its first variables. From there its blocks run as its
body is evaluated, so that a run returns what the evaluation returns, faults if the evaluation does,
and is never stuck (`lowerBody_agrees`). For the way back from the run to the evaluation it is
enough that the run is deterministic: an evaluation with a large enough bound has come to an end if
the run has.
-/

namespace TreeAsm.Meaning

open Ir Lowering
open Lower (bind_eq)
open Program (Bindings Eval Faults Halt Param Returns Vars arguments evalBlock)

/-! ## Arguments -/

/-- The variables of the parameters of a function, all of type `int`, where the first has the number
`n`. -/
def intParams (n : Nat) : List Param → List Local
  | [] => []
  | p :: rest => ⟨n, p.name, .int, true⟩ :: intParams (n + 1) rest

theorem intParams_length : ∀ (params : List Param) (n : Nat),
    (intParams n params).length = params.length := by
  intro params
  induction params with
  | nil => intro n; rfl
  | cons p rest ih => intro n; rw [intParams, List.length_cons, List.length_cons, ih]

/-- The variables of parameters have consecutive numbers. -/
theorem intParams_indices : ∀ (params : List Param) (n : Nat),
    (intParams n params).map (·.index) = List.range' n params.length := by
  intro params
  induction params with
  | nil => intro n; rfl
  | cons p rest ih =>
    intro n
    rw [intParams, List.map_cons, ih, List.length_cons, List.range'_succ]

theorem intParams_names : ∀ (params : List Param) (n : Nat),
    (intParams n params).map (·.name) = params.map (·.name) := by
  intro params
  induction params with
  | nil => intro n; rfl
  | cons p rest ih => intro n; rw [intParams, List.map_cons, List.map_cons, ih]

theorem intParams_type : ∀ {params : List Param} {n : Nat}, ∀ v ∈ intParams n params,
    v.type = .int ∧ v.isParam := by
  intro params
  induction params with
  | nil => intro n v hv; exact absurd hv (by simp [intParams])
  | cons p rest ih =>
    intro n v hv
    rcases List.mem_cons.mp hv with rfl | hv
    · exact ⟨rfl, rfl⟩
    · exact ih v hv

/-- The values of the first variables are the arguments of a call. -/
def Passes (args : List Int32) (σ : Store) : Prop := ∀ i a, args[i]? = some a → σ.locals i = a.toInt

/-- The names of parameters have the values of the arguments. -/
theorem readings_intParams {σ : Store} : ∀ {params : List Param} {args : List Int32} {n : Nat},
    args.length = params.length → (∀ i a, args[i]? = some a → σ.locals (n + i) = a.toInt) →
    (intParams n params).map (fun v => (v.name, σ.locals v.index))
      = ((params.map (·.name)).zip args).map fun p => (p.1, p.2.toInt) := by
  intro params
  induction params with
  | nil => intro args n _ _; rfl
  | cons p rest ih =>
    intro args n hlen hargs
    cases args with
    | nil => exact absurd hlen (by simp)
    | cons a args =>
      rw [intParams, List.map_cons, List.map_cons, List.zip_cons_cons, List.map_cons,
        ih (by simpa using hlen) fun i b hb => ?_]
      · have ha := hargs 0 a rfl
        rw [Nat.add_zero] at ha
        rw [ha]
      · have hb' := hargs (i + 1) b hb
        rwa [show n + (i + 1) = n + 1 + i by omega] at hb'

variable {m : Module} {f : Func} {params : List Param} {args : List Int32} {σ : Store}

theorem start_scopes (hlocals : f.locals = intParams 0 params) :
    (State.start m f).scopes = [((intParams 0 params).map fun v => (v.name, v)).reverse] := by
  have hparams : f.params = intParams 0 params := by
    rw [Func.params, hlocals, List.filter_eq_self]
    exact fun v hv => (intParams_type v hv).2
  rw [State.start, hparams]

/-- At the start of a function its parameters are in scope. -/
theorem start_ready (hlocals : f.locals = intParams 0 params) :
    Ready (params.map (·.name)) (State.start m f) := by
  have hindices : indices (State.start m f).scopes = (List.range' 0 params.length).reverse := by
    rw [start_scopes hlocals, indices, List.flatten_singleton, List.map_reverse, List.map_map,
      ← intParams_indices params 0]
    rfl
  have hlength : (State.start m f).locals.length = params.length := by
    show f.locals.length = _
    rw [hlocals, intParams_length]
  refine ⟨?_, ?_, ?_, ?_⟩
  · intro name hname
    rw [← intParams_names params 0, List.mem_map] at hname
    obtain ⟨v, hv, rfl⟩ := hname
    rw [start_scopes hlocals, lookupIn, List.findSome?_singleton]
    refine Option.ne_none_iff_exists'.mp fun hnone => ?_
    have hnot := List.lookup_eq_none_iff.mp hnone (v.name, v) (by simpa using hv)
    exact absurd hnot (by simp)
  · intro p hp
    rw [start_scopes hlocals, List.flatten_singleton, List.mem_reverse, List.mem_map] at hp
    obtain ⟨v, hv, rfl⟩ := hp
    exact (intParams_type v hv).1
  · rw [hindices]
    exact List.nodup_reverse.mpr List.nodup_range'
  · intro i hi
    rw [hindices, List.mem_reverse, List.mem_range'_1] at hi
    omega

/-- At the start of a function the names of its parameters have the values of the arguments. -/
theorem start_matches (hlocals : f.locals = intParams 0 params) (hlen : args.length = params.length)
    (hargs : Passes args σ) :
    Matches (State.start m f).scopes (arguments params args) σ.locals := by
  have hread := readings_intParams (n := 0) hlen fun i a ha => by
    rw [Nat.zero_add]
    exact hargs i a ha
  rw [start_scopes hlocals, Matches, readings, arguments, Bindings.map, Bindings.map,
    List.map_singleton, List.map_singleton, List.map_reverse, List.map_reverse, ← hread, List.map_map]
  rfl

/-! ## Runs -/

variable {u : Universe} {blocks : List Block} {c : ExecState}

/-- What a run comes to is what the evaluation comes to with as many rounds. -/
theorem run_ended {n : Nat} {r : Eval Unit} (h : Simulates u blocks n c r fun _ _ => False)
    (hend : ∀ c', run u blocks n c ≠ .running c') :
    (∃ v, r = .error (.returned v) ∧ run u blocks n c = .returned (some v.toInt)) ∨
      r = .error .fault ∧ run u blocks n c = .faulted := by
  cases r with
  | ok a =>
    obtain ⟨_, _, _, hfalse⟩ := h
    exact hfalse.elim
  | error halt =>
    cases halt with
    | returned v =>
      obtain ⟨k, hk⟩ := h
      exact Or.inl ⟨v, rfl, (run_unique hend (by rw [hk]; simp)).trans hk⟩
    | fault =>
      obtain ⟨k, hk⟩ := h
      exact Or.inr ⟨rfl, (run_unique hend (by rw [hk]; simp)).trans hk⟩
    | timeout =>
      obtain ⟨c', hc'⟩ := h
      exact absurd hc' (hend c')
    | unsupported => exact h.elim

/-- A run that does what an evaluation does for every bound on its rounds returns what the evaluation
returns, faults if the evaluation does, and is never stuck. -/
theorem run_iff {r : Nat → Eval Unit} (h : ∀ n, Simulates u blocks n c (r n) fun _ _ => False) :
    (∀ w, (∃ k, run u blocks k c = .returned w) ↔
      ∃ v n, w = some v.toInt ∧ r n = .error (.returned v)) ∧
    ((∃ k, run u blocks k c = .faulted) ↔ ∃ n, r n = .error .fault) ∧
    ∀ k, run u blocks k c ≠ .stuck := by
  refine ⟨fun w => ⟨?_, ?_⟩, ⟨?_, ?_⟩, ?_⟩
  · rintro ⟨k, hk⟩
    rcases run_ended (h k) (by rw [hk]; simp) with ⟨v, hr, hrun⟩ | ⟨-, hrun⟩
    · exact ⟨v, k, Progress.returned.inj (hk.symm.trans hrun), hr⟩
    · exact absurd (hk.symm.trans hrun) (by simp)
  · rintro ⟨v, n, rfl, hr⟩
    have hn := h n
    rw [hr] at hn
    exact hn
  · rintro ⟨k, hk⟩
    rcases run_ended (h k) (by rw [hk]; simp) with ⟨v, -, hrun⟩ | ⟨hr, -⟩
    · exact absurd (hk.symm.trans hrun) (by simp)
    · exact ⟨k, hr⟩
  · rintro ⟨n, hr⟩
    have hn := h n
    rw [hr] at hn
    exact hn
  · intro k hk
    rcases run_ended (h k) (by rw [hk]; simp) with ⟨v, -, hrun⟩ | ⟨-, hrun⟩
    · exact absurd (hk.symm.trans hrun) (by simp)
    · exact absurd (hk.symm.trans hrun) (by simp)

/-! ## Functions -/

/-- The blocks of a function do what the evaluation of its body does: whatever the arguments, a run
returns exactly the value that the evaluation returns, it faults exactly if the evaluation does, and
it is never stuck. -/
def Agrees (u : Universe) (blocks : List Block) (params : List Param) (body : Program.Block) : Prop :=
  ∀ (args : List Int32) (σ : Store), args.length = params.length → Passes args σ →
    (∀ w, (∃ k, run u blocks k ⟨0, 0, σ⟩ = .returned w) ↔
      ∃ v, w = some v.toInt ∧ Returns params body args v) ∧
    ((∃ k, run u blocks k ⟨0, 0, σ⟩ = .faulted) ↔ Faults params body args) ∧
    ∀ k, run u blocks k ⟨0, 0, σ⟩ ≠ .stuck

/-- The evaluation of a whole function, which returns zero at its end. -/
def evalFunction (body : Program.Block) (vars : Vars) (n : Nat) : Eval Unit := do
  let _ ← evalBlock n body vars
  .error (.returned 0)

theorem agrees_of_simulates {body : Program.Block}
    (h : ∀ args σ, args.length = params.length → Passes args σ → ∀ n,
      Simulates u blocks n ⟨0, 0, σ⟩ (evalFunction body (arguments params args) n) fun _ _ => False) :
    Agrees u blocks params body := by
  intro args σ hlen hargs
  obtain ⟨hreturned, hfaulted, hstuck⟩ := run_iff (h args σ hlen hargs)
  have hreturns : ∀ v n, evalFunction body (arguments params args) n = .error (.returned v) ↔
      (evalBlock n body (arguments params args) = .error (.returned v) ∨
        ∃ vars, evalBlock n body (arguments params args) = .ok vars ∧ v = 0) := by
    intro v n
    unfold evalFunction
    cases evalBlock n body (arguments params args) with
    | ok vars => simp [bind, Except.bind, eq_comm]
    | error halt => simp [bind, Except.bind]
  have hfaults : ∀ n, evalFunction body (arguments params args) n = .error .fault ↔
      evalBlock n body (arguments params args) = .error .fault := by
    intro n
    unfold evalFunction
    cases evalBlock n body (arguments params args) with
    | ok vars => simp [bind, Except.bind]
    | error halt => simp [bind, Except.bind]
  refine ⟨fun w => (hreturned w).trans ?_, hfaulted.trans ?_, hstuck⟩
  · constructor
    · rintro ⟨v, n, hw, hr⟩
      exact ⟨v, hw, n, (hreturns v n).mp hr⟩
    · rintro ⟨v, hw, n, hr⟩
      exact ⟨v, n, hw, (hreturns v n).mpr hr⟩
  · exact ⟨fun ⟨n, hr⟩ => ⟨n, (hfaults n).mp hr⟩, fun ⟨n, hr⟩ => ⟨n, (hfaults n).mpr hr⟩⟩

theorem intParams_numbered (params : List Param) :
    ∀ v ∈ intParams 0 params, (intParams 0 params)[v.index]? = some v := by
  intro v hv
  obtain ⟨i, hi⟩ := List.mem_iff_getElem?.mp hv
  have hindex : ((intParams 0 params).map (·.index))[i]? = some v.index := by
    rw [List.getElem?_map, hi]
    rfl
  have hlt : i < params.length := by
    obtain ⟨hlt, -⟩ := List.getElem?_eq_some_iff.mp hi
    rwa [intParams_length] at hlt
  rw [intParams_indices, List.getElem?_range' hlt, Option.some.injEq] at hindex
  rw [← hindex, Nat.zero_add, Nat.one_mul, hi]

/-- The body of a function is lowered to blocks that do what it does. -/
theorem lowerBody_agrees (env : Env) {m : Module} (hm : Typed m) {body : Program.Block}
    (hret : env.ret = .int) (hbody : body.isStructured (params.map (·.name)))
    (hlocals : f.locals = intParams 0 params) :
    ∃ b s', lowerBody env body (State.start m f) = .ok (b, s') ∧
      Agrees env.types s'.blocks params body := by
  obtain ⟨ends, s1, hs1, hterm1, hfollows1, -, hrun1⟩ :=
    lowerBlock_executes hret body hbody (start_ready (m := m) hlocals) rfl
  have hlowered : ∃ b s', lowerBody env body (State.start m f) = .ok (b, s') ∧
      ∀ blocks, s'.Within blocks → s1.Within blocks ∧ (ends = false → ∀ σ,
        run env.types blocks 1 (s1.here σ) = .returned (some 0)) := by
    have hterm : terminated s1 = .ok (ends, s1) := by rw [terminated, hterm1]
    cases ends with
    | true =>
      refine ⟨false, s1, ?_, fun blocks h => ⟨h, fun h => absurd h.symm Bool.false_ne_true⟩⟩
      rw [lowerBody, bind_eq (Lower.within_eq hs1), bind_eq hterm]
      rfl
    | false =>
      refine ⟨true, s1.add [] [⟨.ret, none, [.int 0 .int]⟩], ?_, fun blocks h =>
        ⟨h.of_add, fun _ σ => ?_⟩⟩
      · rw [lowerBody, bind_eq (Lower.within_eq hs1), bind_eq hterm,
          if_neg Bool.false_ne_true, hret, isVoid_int, if_neg Bool.false_ne_true,
          bind_eq (emit_eq _ _ _ _)]
        rfl
      · rw [run, step_here h, Instr.exec_ret (value_literal 0 σ)]
        rfl
  obtain ⟨b, s', hs', hwithin⟩ := hlowered
  refine ⟨b, s', hs', agrees_of_simulates fun args σ hlen hargs n => ?_⟩
  have hnumbered : ∀ v ∈ f.locals, f.locals[v.index]? = some v := by
    rw [hlocals]
    exact intParams_numbered params
  have hproper : ∀ v ∈ f.locals, v.type.Proper := by
    rw [hlocals]
    intro v hv
    rw [(intParams_type v hv).1]
    trivial
  obtain ⟨hwf, hends⟩ := State.start_wf env hm hproper hnumbered
  have hlabels : Labelled s'.blocks :=
    (lowerBody_runs (by rw [hret]; trivial) hwf hends hs').1.wf.distinct
  obtain ⟨hwithin1, hreturn⟩ := hwithin s'.blocks ⟨[], [], by simp [State.blocks]⟩
  refine Simulates.bind (hrun1 s'.blocks hlabels hwithin1 rfl n σ _
    (start_matches hlocals hlen hargs) () trivial) ?_
  rintro vars _ ⟨σ', rfl, hopen, -⟩
  exact ⟨1, hreturn (hterm1.symm.trans hopen) σ'⟩

end TreeAsm.Meaning
