import TreeAsm.Proofs.Meaning.Expr

/-!
# Running a function that is being lowered

A state of lowering is a place in the function that comes out of it: the end of the open block
(`State.here`). What has been lowered so far stays as it is in the finished function
(`State.Within`), so the code between two states runs from the place of the first to that of the
second. A run does what an evaluation does (`Simulates`) if it goes on to a place where the variables
correspond, returns the same value or faults; an evaluation that is cut off after `n` rounds of a loop
corresponds to a run of at least `n` steps.
-/

namespace TreeAsm.Lowering

open Ir

/-- The blocks of a finished function whose lowering has come through a state. -/
def State.Within (s : State) (blocks : List Block) : Prop :=
  ∃ more rest, blocks = s.closed ++ ⟨s.block.label, s.block.code ++ more⟩ :: rest

/-- The place of a state: the end of the open block. -/
def State.here (s : State) (σ : Store) : ExecState := ⟨s.closed.length, s.block.code.length, σ⟩

variable {s : State} {blocks : List Block} {temps : List Temp} {code : List Instr}

theorem State.Within.of_add (h : (s.add temps code).Within blocks) : s.Within blocks := by
  obtain ⟨more, rest, rfl⟩ := h
  exact ⟨code ++ more, rest, by simp [State.add]⟩

/-- The instruction at the place of a state. -/
theorem State.Within.instr {i : Instr} {more : List Instr} (h : (s.add temps (i :: more)).Within blocks) :
    blocks[s.closed.length]?.bind (·.code[s.block.code.length]?) = some i := by
  obtain ⟨after, rest, rfl⟩ := h
  simp [State.add]

/-- The block that is open is found by its label. -/
theorem State.Within.find (h : s.Within blocks) (hlabels : (blocks.map (·.label)).Nodup) :
    blocks.findIdx? (·.label == s.block.label) = some s.closed.length := by
  obtain ⟨more, rest, rfl⟩ := h
  rw [List.map_append, List.map_cons, List.nodup_append] at hlabels
  have hnot : ∀ b ∈ s.closed, (b.label == s.block.label) = false := by
    intro b hb
    have hne := hlabels.2.2 b.label (List.mem_map_of_mem hb) s.block.label List.mem_cons_self
    simpa using hne
  rw [List.findIdx?_append, List.findIdx?_eq_none_iff.mpr hnot, List.findIdx?_cons, if_pos (by simp)]
  simp

/-! ## Opening blocks -/

/-- A state with a new open block. The one that was open leads to it, unless it ends otherwise. -/
def State.opened (s : State) (label : String) : State :=
  { s with
    closed := s.closed ++ [⟨s.block.label,
      s.block.code ++ if s.block.isTerminated then [] else [⟨.jump, none, [.label label]⟩]⟩]
    block := ⟨label, []⟩ }

@[simp] theorem State.opened_scopes (s : State) (label : String) : (s.opened label).scopes = s.scopes := rfl

@[simp] theorem State.opened_locals (s : State) (label : String) : (s.opened label).locals = s.locals := rfl

theorem openBlock_eq (label : String) (s : State) : openBlock label s = .ok ((), s.opened label) := by
  unfold openBlock
  rw [Lower.bind_eq (a := s.block.isTerminated) (t := s) rfl]
  cases hterm : s.block.isTerminated with
  | false => simp [State.opened, hterm]; rfl
  | true => simp [State.opened, hterm]; rfl

theorem State.Within.of_opened {label : String} (h : (s.opened label).Within blocks) : s.Within blocks := by
  obtain ⟨more, rest, rfl⟩ := h
  refine ⟨if s.block.isTerminated then [] else [⟨.jump, none, [.label label]⟩], ⟨label, more⟩ :: rest, ?_⟩
  simp [State.opened]

end TreeAsm.Lowering

namespace TreeAsm.Meaning

open Ir Lowering
open Program (Eval Halt Vars)

variable {α β : Type} {u : Universe} {blocks : List Block} {n m k : Nat} {c c' : ExecState} {r : Eval α}
  {post : α → ExecState → Prop}

/-! ## Runs and evaluation -/

/-- A run does what a step of evaluation does. -/
def Simulates (u : Universe) (blocks : List Block) (n : Nat) (c : ExecState) (r : Eval α)
    (post : α → ExecState → Prop) : Prop :=
  match r with
  | .ok a => ∃ k c', run u blocks k c = .running c' ∧ post a c'
  | .error (.returned v) => ∃ k, run u blocks k c = .returned (some v.toInt)
  | .error .fault => ∃ k, run u blocks k c = .faulted
  | .error .timeout => ∃ c', run u blocks n c = .running c'
  | .error .unsupported => False

theorem Simulates.mono {post' : α → ExecState → Prop} (h : Simulates u blocks n c r post) (hm : m ≤ n)
    (himp : ∀ a c', post a c' → post' a c') : Simulates u blocks m c r post' := by
  cases r with
  | ok a =>
    obtain ⟨k, c', hrun, hpost⟩ := h
    exact ⟨k, c', hrun, himp a c' hpost⟩
  | error halt =>
    cases halt with
    | timeout =>
      obtain ⟨c', hrun⟩ := h
      exact running_of_le hrun hm
    | _ => exact h

/-- A run goes on after some steps, which count. -/
theorem Simulates.steps (hrun : run u blocks k c = .running c')
    (h : Simulates u blocks n c' r post) : Simulates u blocks (k + n) c r post := by
  cases r with
  | ok a =>
    obtain ⟨j, c'', hrun', hpost⟩ := h
    exact ⟨k + j, c'', (run_add hrun).trans hrun', hpost⟩
  | error halt =>
    cases halt with
    | returned v =>
      obtain ⟨j, hrun'⟩ := h
      exact ⟨k + j, (run_add hrun).trans hrun'⟩
    | fault =>
      obtain ⟨j, hrun'⟩ := h
      exact ⟨k + j, (run_add hrun).trans hrun'⟩
    | timeout =>
      obtain ⟨c'', hrun'⟩ := h
      exact ⟨c'', (run_add hrun).trans hrun'⟩
    | unsupported => exact h

/-- A run goes on after some steps. -/
theorem Simulates.after (hrun : run u blocks k c = .running c')
    (h : Simulates u blocks n c' r post) : Simulates u blocks n c r post :=
  (h.steps hrun).mono (Nat.le_add_left n k) fun _ _ hpost => hpost

/-- A run after a run, as a step of evaluation after a step of evaluation. -/
theorem Simulates.bind {f : α → Eval β} {post' : β → ExecState → Prop} (h : Simulates u blocks n c r post)
    (hf : ∀ a c', post a c' → Simulates u blocks n c' (f a) post') :
    Simulates u blocks n c (r >>= f) post' := by
  cases r with
  | ok a =>
    obtain ⟨k, c', hrun, hpost⟩ := h
    exact (hf a c' hpost).after hrun
  | error halt => cases halt <;> exact h

/-- A run goes on for some steps at its end. -/
theorem Simulates.extend {post' : α → ExecState → Prop} (h : Simulates u blocks n c r post)
    (hext : ∀ a c', post a c' → ∃ k c'', run u blocks k c' = .running c'' ∧ post' a c'') :
    Simulates u blocks n c r post' := by
  rw [← bind_pure r]
  refine h.bind fun a c' hpost => ?_
  exact hext a c' hpost

/-! ## Code -/

variable {s : State} {temps : List Temp} {code : List Instr} {σ σ' : Store} {i : Instr}

theorem step_here {more : List Instr} (h : (s.add temps (i :: more)).Within blocks) (σ : Store) :
    step u blocks (s.here σ) = (i.exec u σ).progress blocks s.closed.length s.block.code.length := by
  have hinstr : blocks[(s.here σ).block]?.bind (·.code[(s.here σ).pc]?) = some i := h.instr
  rw [step, hinstr]
  rfl

theorem here_add_singleton (s : State) (i : Instr) (σ : Store) :
    (s.add temps [i]).here σ = ⟨s.closed.length, s.block.code.length + 1, σ⟩ := by
  simp [State.here, State.add]

theorem add_cons (s : State) (temps : List Temp) (i : Instr) (more : List Instr) :
    s.add temps (i :: more) = (s.add [] [i]).add temps more := by
  rw [State.add_add]
  rfl

/-- Code that leads on runs from the place before it to the place after it. -/
theorem run_code : ∀ {code : List Instr} {s : State} {σ : Store},
    (s.add temps code).Within blocks → runCode u code σ = .next σ' →
    run u blocks code.length (s.here σ) = .running ((s.add temps code).here σ') := by
  intro code
  induction code with
  | nil =>
    intro s σ _ hrun
    obtain rfl := Effect.next.inj hrun
    simp [run, State.here, State.add]
  | cons i more ih =>
    intro s σ hwithin hrun
    rw [runCode] at hrun
    rw [List.length_cons, run, step_here hwithin]
    rw [add_cons] at hwithin ⊢
    split at hrun
    next σ1 hexec =>
      rw [hexec, Effect.progress, ← here_add_singleton s i σ1]
      exact ih hwithin hrun
    next hne => exact absurd hrun (hne σ')

/-- Code that faults makes the function fault. -/
theorem run_code_fault : ∀ {code : List Instr} {s : State} {σ : Store},
    (s.add temps code).Within blocks → runCode u code σ = .fault →
    ∃ k, run u blocks k (s.here σ) = .faulted := by
  intro code
  induction code with
  | nil => intro s σ _ hrun; exact absurd hrun (by simp [runCode])
  | cons i more ih =>
    intro s σ hwithin hrun
    have hstep := step_here (u := u) hwithin σ
    rw [add_cons] at hwithin
    rw [runCode] at hrun
    split at hrun
    next σ1 hexec =>
      rw [hexec, Effect.progress, ← here_add_singleton s i σ1] at hstep
      obtain ⟨k, hk⟩ := ih hwithin hrun
      exact ⟨k + 1, by rw [run, hstep]; exact hk⟩
    next hne =>
      rw [hrun] at hstep
      exact ⟨1, by rw [run, hstep]; rfl⟩

theorem Computes.simulates {post : α → Store → Prop} (h : Computes u code σ r post)
    (hwithin : (s.add temps code).Within blocks) :
    Simulates u blocks n (s.here σ) r fun a c => ∃ σ', c = (s.add temps code).here σ' ∧ post a σ' := by
  cases r with
  | ok a =>
    obtain ⟨σ', hrun, hpost⟩ := h
    exact ⟨code.length, _, run_code hwithin hrun, σ', rfl, hpost⟩
  | error halt =>
    cases halt with
    | fault => exact run_code_fault hwithin h
    | _ => exact h.elim

/-! ## Jumps -/

/-- The labels of the blocks of a finished function are different. -/
def Labelled (blocks : List Block) : Prop := (blocks.map (·.label)).Nodup

/-- A block that has just been opened. -/
structure Opens (t : State) (label : String) : Prop where
  label : t.block.label = label
  code : t.block.code = []

theorem opens_opened (s : State) (label : String) : Opens (s.opened label) label := ⟨rfl, rfl⟩

variable {t : State} {label : String} {x : Operand} {w : Int}

theorem progress_goto (hlabels : Labelled blocks) (ht : t.Within blocks) (hopens : Opens t label)
    (b pc : Nat) (σ : Store) : (Effect.goto label σ).progress blocks b pc = .running (t.here σ) := by
  rw [Effect.progress, ← hopens.label, ht.find hlabels, State.here, hopens.code]
  rfl

/-- A jump goes to the block with its label. -/
theorem run_jump (hlabels : Labelled blocks)
    (hs : (s.add [] [⟨.jump, none, [.label label]⟩]).Within blocks) (ht : t.Within blocks)
    (hopens : Opens t label) (σ : Store) : run u blocks 1 (s.here σ) = .running (t.here σ) := by
  have hexec : Instr.exec u ⟨.jump, none, [.label label]⟩ σ = .goto label σ := rfl
  rw [run, step_here hs, hexec, progress_goto hlabels ht hopens]
  rfl

/-- The instruction that jumps to a label if an operand is false. -/
def jumpIfFalse (x : Operand) (label : String) : Instr := ⟨.cjump, none, [x, .label label, .int 0 .bool]⟩

/-- A conditional jump goes to the block with its label if its operand is false. -/
theorem run_jumpIfFalse_false (hlabels : Labelled blocks)
    (hs : (s.add [] [jumpIfFalse x label]).Within blocks) (ht : t.Within blocks)
    (hopens : Opens t label) (hx : x.value u σ = some w) (hw : IsTruth false w) :
    run u blocks 1 (s.here σ) = .running (t.here σ) := by
  have hexec : Instr.exec u (jumpIfFalse x label) σ = .goto label σ := by
    show Effect.withValue (x.value u σ) _ = _
    rw [hx]
    simp only [Effect.withValue, show (w != 0) = false from hw]
    rfl
  rw [run, step_here hs, hexec, progress_goto hlabels ht hopens]
  rfl

/-- A conditional jump goes on with the next block if its operand is true. -/
theorem run_jumpIfFalse_true (next : String)
    (hs : (s.add [] [jumpIfFalse x label]).Within blocks) (hx : x.value u σ = some w)
    (hw : IsTruth true w) :
    run u blocks 1 (s.here σ) = .running (((s.add [] [jumpIfFalse x label]).opened next).here σ) := by
  have hexec : Instr.exec u (jumpIfFalse x label) σ = .fall σ := by
    show Effect.withValue (x.value u σ) _ = _
    rw [hx]
    simp only [Effect.withValue, show (w != 0) = true from hw]
    rfl
  rw [run, step_here hs, hexec]
  simp [Effect.progress, run, State.here, State.opened, State.add]

/-- A block leads to the one that is opened after it. -/
theorem run_opened (hlabels : Labelled blocks) (hs : (s.opened label).Within blocks)
    (hterm : s.block.isTerminated = false) (σ : Store) :
    run u blocks 1 (s.here σ) = .running ((s.opened label).here σ) := by
  refine run_jump hlabels ?_ hs (opens_opened s label) σ
  obtain ⟨more, rest, rfl⟩ := hs
  refine ⟨[], ⟨label, more⟩ :: rest, ?_⟩
  simp [State.opened, State.add, hterm]

theorem isTerminated_add (hplain : ∀ i ∈ code, i.op.isTerminator = false)
    (hterm : s.block.isTerminated = false) : (s.add temps code).block.isTerminated = false := by
  have hlast : ∀ i, (s.block.code ++ code).getLast? = some i → i.op.isTerminator = false := by
    intro i hi
    cases hcode : code.getLast? with
    | none =>
      rw [List.getLast?_append, hcode, Option.none_or] at hi
      rw [Block.isTerminated, hi] at hterm
      exact hterm
    | some j =>
      rw [List.getLast?_append, hcode, Option.some_or] at hi
      obtain rfl := Option.some.inj hi
      exact hplain j (List.mem_of_getLast? hcode)
  unfold Block.isTerminated
  split
  next i hi => exact hlast i hi
  next => rfl

theorem isTerminated_add_singleton (s : State) (temps : List Temp) (i : Instr) :
    (s.add temps [i]).block.isTerminated = i.op.isTerminator := by
  simp [Block.isTerminated, State.add]

end TreeAsm.Meaning
