import TreeAsm.Proofs.Lowering.Expr

/-!
# The graph of blocks during lowering

While a function is lowered its blocks form a graph with loose ends: the open block may not end yet,
and some labels are jumped to that no block has so far. `State.Wf pending` is the invariant, where
`pending` are these labels. A label is taken from a counter long before its block is opened
(`State.Reserved`); it stays free for that block because everything lowered in between opens blocks
under later numbers only (`Advances`). The code stays arranged, and what it refers to is known and
aimed.
-/

namespace TreeAsm.Ir

/-- Labels with different numbers are different. -/
theorem blockLabel_injective {m n : Nat} (h : blockLabel m = blockLabel n) : m = n := by
  have hrepr : Nat.repr m = Nat.repr n := by
    have h' : ".L" ++ Nat.repr m = ".L" ++ Nat.repr n := h
    exact String.append_right_inj _ |>.mp h'
  rw [Nat.repr_eq_ofList_toDigits, Nat.repr_eq_ofList_toDigits] at hrepr
  have hdigits := String.ofList_injective hrepr
  have hval := congrArg (fun l => Nat.ofDigitChars 10 l 0) hdigits
  simpa [Nat.ofDigitChars_toDigits] using hval

end TreeAsm.Ir

namespace TreeAsm.Lowering

open Ir
open Lower (bind_ok modify_ok)

variable {env : Env} {s s' s'' : State} {pending : List String}

/-- A state between two statements. -/
structure State.Wf (env : Env) (pending : List String) (s : State) : Prop where
  orderly : s.Orderly
  scopes : ∀ scope ∈ s.scopes, ∀ p ∈ scope, s.Knows (.var p.2)
  code : ∀ b ∈ s.blocks, ∀ i ∈ b.code, s.Takes env i
  closed : ∀ b ∈ s.closed, b.Sealed
  jumps : ∀ b ∈ s.blocks, ∀ i ∈ b.code, i.JumpsInto (s.labels ++ pending)
  distinct : s.labels.Nodup
  numbered : ∀ l ∈ s.labels, ∃ k < s.nextLabel, l = blockLabel k

/-- How the open block stands: it has not ended, or it has ended, but not with a conditional jump. -/
def State.Ends (s : State) : Bool → Prop
  | false => ∀ i ∈ s.block.code, i.op.isTerminator = false
  | true => s.block.Sealed ∧ ∀ i, s.block.code.getLast? = some i → i.op ≠ .cjump

variable {ends : Bool} {a : Unit} {k : Nat} {l name : String} {v : Local} {args : List Operand}
  {pending' : List String}

theorem State.Ends.terminated (h : s.Ends ends) : s.block.isTerminated = ends := by
  cases ends with
  | false =>
    unfold Block.isTerminated
    split
    next i hi => exact h i (List.mem_of_getLast? hi)
    next => rfl
  | true => exact h.1.ends

theorem State.Ends.congr (h : s.Ends ends) (hblock : s'.block = s.block) : s'.Ends ends := by
  cases ends with
  | false =>
    intro i hi
    rw [hblock] at hi
    exact h i hi
  | true =>
    rw [State.Ends, hblock]
    exact h

theorem State.mem_blocks {b : Block} : b ∈ s.blocks ↔ b ∈ s.closed ∨ b = s.block := by
  rw [State.blocks, List.mem_append, List.mem_singleton]

theorem State.block_mem : s.block ∈ s.blocks := State.mem_blocks.mpr (.inr rfl)

theorem State.Wf.sound (h : s.Wf env pending) : s.Sound :=
  ⟨h.scopes, fun i hi => (h.code s.block State.block_mem i hi).knows⟩

/-- More labels may be waited for. -/
theorem State.Wf.weaken {more : List String} (h : s.Wf env pending) (hsub : pending ⊆ more) :
    s.Wf env more := by
  refine ⟨h.orderly, h.scopes, h.code, h.closed, ?_, h.distinct, h.numbered⟩
  intro b hb i hi hop
  obtain ⟨l, hl, htarget⟩ := h.jumps b hb i hi hop
  refine ⟨l, ?_, htarget⟩
  rcases List.mem_append.mp hl with hl | hl
  · exact List.mem_append_left _ hl
  · exact List.mem_append_right _ (hsub hl)

/-! ## Labels -/

/-- Lowering has gone on: nothing is lost, and new blocks have labels with new numbers. -/
structure Advances (s s' : State) : Prop extends State.Le s s' where
  nextLabel : s.nextLabel ≤ s'.nextLabel
  kept : ∀ l ∈ s.labels, l ∈ s'.labels
  new : ∀ l ∈ s'.labels, l ∈ s.labels ∨ ∃ k, s.nextLabel ≤ k ∧ l = blockLabel k

theorem Advances.refl (s : State) : Advances s s :=
  ⟨State.Le.refl s, Nat.le_refl _, fun _ hl => hl, fun _ hl => .inl hl⟩

theorem Advances.trans (h : Advances s s') (h' : Advances s' s'') : Advances s s'' := by
  refine ⟨h.toLe.trans h'.toLe, Nat.le_trans h.nextLabel h'.nextLabel,
    fun l hl => h'.kept l (h.kept l hl), ?_⟩
  intro l hl
  rcases h'.new l hl with hl | ⟨k, hk, rfl⟩
  · exact h.new l hl
  · exact .inr ⟨k, Nat.le_trans h.nextLabel hk, rfl⟩

/-- What lowering some statements does to a state that is ready for them. -/
structure Runs (env : Env) (pending : List String) (s s' : State) (ends : Bool) : Prop where
  advances : Advances s s'
  wf : s'.Wf env pending
  ends : s'.Ends ends

theorem Advances.runs (h : Advances s s') (h' : Runs env pending s' s'' ends) :
    Runs env pending s s'' ends :=
  ⟨h.trans h'.advances, h'.wf, h'.ends⟩

/-- A label that has been taken for a block to come. -/
def State.Reserved (s : State) (k : Nat) : Prop := k < s.nextLabel ∧ blockLabel k ∉ s.labels

theorem State.Reserved.mono (h : s.Reserved k) (hadv : Advances s s') : s'.Reserved k := by
  refine ⟨Nat.lt_of_lt_of_le h.1 hadv.nextLabel, ?_⟩
  intro hmem
  rcases hadv.new _ hmem with hmem | ⟨k', hk', heq⟩
  · exact h.2 hmem
  · have hk := blockLabel_injective heq
    have hlt := h.1
    omega

theorem freshLabel_wf (hwf : s.Wf env pending) (h : freshLabel s = .ok (l, s')) :
    l = blockLabel s.nextLabel ∧ s'.Wf env pending ∧ Advances s s' ∧ s'.Reserved s.nextLabel ∧
      s'.block = s.block := by
  have h' : (blockLabel s.nextLabel, { s with nextLabel := s.nextLabel + 1 }) = (l, s') :=
    Except.ok.inj h
  cases h'
  have ho := hwf.orderly
  refine ⟨rfl, ⟨⟨ho.typed, ho.locals, ho.scopes, ho.forms, ho.arranged, ho.numbered⟩, hwf.scopes,
    fun b hb i hi => ⟨(hwf.code b hb i hi).knows, (hwf.code b hb i hi).aimed⟩, hwf.closed, hwf.jumps,
    hwf.distinct, ?_⟩,
    ⟨⟨Grows.refl _, List.prefix_rfl, List.prefix_rfl⟩, Nat.le_succ _, fun _ hl => hl,
      fun _ hl => .inl hl⟩, ⟨Nat.lt_succ_self _, ?_⟩, rfl⟩
  · intro l hl
    obtain ⟨k, hk, rfl⟩ := hwf.numbered l hl
    exact ⟨k, Nat.lt_succ_of_lt hk, rfl⟩
  · intro hmem
    obtain ⟨k, hk, heq⟩ := hwf.numbered _ hmem
    have := blockLabel_injective heq
    omega

theorem freshLabel_runs (hwf : s.Wf env pending) (hends : s.Ends ends) (h : freshLabel s = .ok (l, s')) :
    l = blockLabel s.nextLabel ∧ Runs env pending s s' ends ∧ s'.Reserved s.nextLabel := by
  obtain ⟨hl, hwf', hadv, hk, hblock⟩ := freshLabel_wf hwf h
  exact ⟨hl, ⟨hadv, hwf', hends.congr hblock⟩, hk⟩

/-! ## Steps inside a block -/

theorem Adds.labels (h : Adds env s s') : s'.labels = s.labels := by
  rw [State.labels, State.labels, State.blocks, State.blocks, h.closed]
  simp [h.label]

theorem Adds.runs (h : Adds env s s') (horderly : s'.Orderly) (hwf : s.Wf env pending)
    (hends : s.Ends false) : Runs env pending s s' false := by
  obtain ⟨new, hnew, htakes⟩ := h.code
  have hopen : s'.Ends false := by
    rw [State.Ends, hnew]
    exact List.forall_mem_append.mpr ⟨hends, fun i hi => (htakes i hi).1⟩
  refine ⟨⟨h.toLe, Nat.le_of_eq h.nextLabel.symm, by rw [h.labels]; exact fun _ hl => hl,
    by rw [h.labels]; exact fun _ hl => .inl hl⟩,
    ⟨horderly, (h.sound hwf.sound).scopes, ?_, ?_, ?_, ?_, ?_⟩, hopen⟩
  · intro b hb i hi
    rcases State.mem_blocks.mp hb with hb | rfl
    · rw [h.closed] at hb
      exact (hwf.code b (List.mem_append_left _ hb) i hi).mono h.toLe
    · rw [hnew] at hi
      rcases List.mem_append.mp hi with hi | hi
      · exact (hwf.code s.block State.block_mem i hi).mono h.toLe
      · exact (htakes i hi).2
  · rw [h.closed]
    exact hwf.closed
  · intro b hb i hi hop
    rw [h.labels]
    rcases State.mem_blocks.mp hb with hb | rfl
    · rw [h.closed] at hb
      exact hwf.jumps b (List.mem_append_left _ hb) i hi hop
    · have hplain := hopen i hi
      rcases hop with hop | hop <;> rw [hop] at hplain <;> exact absurd hplain (by decide)
  · rw [h.labels]
    exact hwf.distinct
  · rw [h.labels, h.nextLabel]
    exact hwf.numbered

/-- A step within the open block, and what it comes to. -/
theorem Builds.runs {α : Type} {x : Lower α} {Q : α → State → Prop} {a : α} (hx : Builds env s x Q)
    (hwf : s.Wf env pending) (hends : s.Ends false) (h : x s = .ok (a, s')) :
    Runs env pending s s' false ∧ Adds env s s' ∧ Q a s' := by
  obtain ⟨horderly, hadds, hQ⟩ := hx hwf.sound hwf.orderly a s' h
  exact ⟨hadds.runs horderly hwf hends, hadds, hQ⟩

/-- A change of the variables and of the names in scope only. -/
theorem runs_of_scopes {locals : List Local} {scopes : List Scope} {hidden : Nat}
    (hwf : s.Wf env pending) (hlocals : s.locals <+: locals)
    (hproper : ∀ v ∈ locals, v.type.Proper ∧ v.index < locals.length)
    (hscopes : ∀ scope ∈ scopes, ∀ p ∈ scope, p.2.type.Proper ∧ locals[p.2.index]? = some p.2)
    (hends : s.Ends ends) :
    Runs env pending s { s with locals := locals, scopes := scopes, hidden := hidden } ends := by
  have ho := hwf.orderly
  have hle : s.Le { s with locals := locals, scopes := scopes, hidden := hidden } :=
    ⟨Grows.refl _, hlocals, List.prefix_rfl⟩
  refine ⟨⟨hle, Nat.le_refl _, fun _ hl => hl, fun _ hl => .inl hl⟩,
    ⟨⟨ho.typed, hproper, fun scope hscope p hp => (hscopes scope hscope p hp).1, ho.forms, ho.arranged,
      ho.numbered⟩, fun scope hscope p hp => (hscopes scope hscope p hp).2, ?_, hwf.closed, hwf.jumps,
      hwf.distinct, hwf.numbered⟩, by cases ends <;> exact hends⟩
  intro b hb i hi
  exact (hwf.code b hb i hi).mono hle

/-- The names in scope stand for variables with types. -/
theorem State.Wf.named (hwf : s.Wf env pending) {scope : Scope} (hscope : scope ∈ s.scopes)
    {p : String × Local} (hp : p ∈ scope) : p.2.type.Proper ∧ s.locals[p.2.index]? = some p.2 :=
  ⟨hwf.orderly.scopes scope hscope p hp, hwf.scopes scope hscope p hp⟩

/-- A variable of the function, of a type that a program can name. -/
def State.Variable (s : State) (v : Local) : Prop := v.type.Proper ∧ s.Knows (.var v)

theorem State.Variable.mono (h : s.Variable v) (hle : s.Le s') : s'.Variable v :=
  ⟨h.1, State.Knows.mono h.2 hle⟩

theorem newLocal_runs {t : Ty} (ht : t.Proper) (hwf : s.Wf env pending) (hends : s.Ends ends)
    (h : newLocal name t s = .ok (v, s')) :
    Runs env pending s s' ends ∧ s'.block = s.block ∧ v.type = t ∧ s'.Variable v := by
  have h' : ((⟨s.locals.length, name, t, false⟩ : Local),
      { s with locals := s.locals ++ [⟨s.locals.length, name, t, false⟩] }) = (v, s') :=
    Except.ok.inj h
  cases h'
  refine ⟨runs_of_scopes hwf (List.prefix_append _ _) (fun v hv => ?_) ?_ hends, rfl, rfl, ht, ?_⟩
  · rw [List.length_append, List.length_singleton]
    rcases List.mem_append.mp hv with hv | hv
    · have hold := hwf.orderly.locals v hv
      exact ⟨hold.1, Nat.lt_succ_of_lt hold.2⟩
    · rw [List.mem_singleton.mp hv]
      exact ⟨ht, Nat.lt_succ_self _⟩
  · intro scope hscope p hp
    have hold := hwf.named hscope hp
    exact ⟨hold.1, getElem?_of_prefix (List.prefix_append _ _) hold.2⟩
  · show (s.locals ++ [_])[s.locals.length]? = some _
    simp

theorem hiddenLocal_runs {what : String} {t : Ty} (ht : t.Proper) (hwf : s.Wf env pending)
    (hends : s.Ends ends) (h : hiddenLocal what t s = .ok (v, s')) :
    Runs env pending s s' ends ∧ s'.block = s.block ∧ s'.Variable v := by
  obtain ⟨t, s1, h1, h⟩ := bind_ok h
  obtain ⟨rfl, rfl⟩ := Lower.get_ok h1
  obtain ⟨_, s2, h2, h⟩ := bind_ok h
  have hs2 := modify_ok h2
  have hcount : Runs env pending s s2 ends := by
    rw [hs2]
    exact runs_of_scopes hwf List.prefix_rfl hwf.orderly.locals
      (fun scope hscope p hp => hwf.named hscope hp) hends
  obtain ⟨hruns, hblock, -, hv⟩ := newLocal_runs ht hcount.wf hcount.ends h
  exact ⟨hcount.advances.runs hruns, hblock.trans (by rw [hs2]), hv⟩

theorem define_runs (hwf : s.Wf env pending) (hends : s.Ends ends) (hv : s.Variable v)
    (h : define name v s = .ok (a, s')) : Runs env pending s s' ends ∧ s'.block = s.block := by
  rw [modify_ok h]
  refine ⟨runs_of_scopes hwf List.prefix_rfl hwf.orderly.locals ?_ hends, rfl⟩
  intro scope hscope p hp
  unfold defineIn at hscope
  split at hscope
  next =>
    rw [List.mem_singleton] at hscope
    subst hscope
    rw [List.mem_singleton] at hp
    subst hp
    exact hv
  next first outer hs =>
    rcases List.mem_cons.mp hscope with rfl | hscope
    · rcases List.mem_cons.mp hp with rfl | hp
      · exact hv
      · exact hwf.named (by rw [hs]; simp) hp
    · exact hwf.named (by rw [hs]; simp [hscope]) hp

/-- A step that runs in a new scope. -/
theorem inScope_runs {α : Type} {x : Lower α} {a : α} {P : Prop} (hwf : s.Wf env pending)
    (hends : s.Ends false)
    (hx : ∀ {s1 s2}, s.Le s1 → s1.block = s.block → s1.Wf env pending → s1.Ends false →
      x s1 = .ok (a, s2) → Runs env pending s1 s2 ends ∧ P) (h : inScope x s = .ok (a, s')) :
    Runs env pending s s' ends ∧ P := by
  obtain ⟨_, s1, h1, h⟩ := bind_ok h
  have hs1 := modify_ok h1
  have henter : Runs env pending s s1 false := by
    rw [hs1]
    refine runs_of_scopes hwf List.prefix_rfl hwf.orderly.locals (fun scope hscope p hp => ?_) hends
    rcases List.mem_cons.mp hscope with rfl | hscope
    · exact absurd hp (by simp)
    · exact hwf.named hscope hp
  obtain ⟨b, s2, h2, h⟩ := bind_ok h
  obtain ⟨_, s3, h3, h⟩ := bind_ok h
  obtain ⟨rfl, rfl⟩ := Lower.pure_ok h
  obtain ⟨hinner, hP⟩ := hx henter.advances.toLe (by rw [hs1]) henter.wf henter.ends h2
  have hleave : Runs env pending s2 s' ends := by
    rw [modify_ok h3]
    exact runs_of_scopes hinner.wf List.prefix_rfl hinner.wf.orderly.locals
      (fun scope hscope p hp => hinner.wf.named (List.mem_of_mem_drop hscope) hp) hinner.ends
  exact ⟨(henter.advances.trans hinner.advances).runs hleave, hP⟩

/-! ## Ends of blocks -/

/-- An instruction that ends the open block. -/
theorem emitLast_wf {op : Opcode} (hwf : s.Wf env pending) (hends : s.Ends false)
    (hop : op.isTerminator) (hform : Instr.Form ⟨op, none, args⟩) (hargs : ∀ x ∈ args, s.Usable x)
    (htarget : Instr.JumpsInto (s.labels ++ pending) ⟨op, none, args⟩)
    (h : emit op none args s = .ok (a, s')) :
    s'.Wf env pending ∧ s'.block.Sealed ∧ Advances s s' ∧ s'.labels = s.labels ∧
      s'.nextLabel = s.nextLabel ∧ s'.block.code.getLast? = some ⟨op, none, args⟩ := by
  have h' : ((), { s with block := { s.block with code := s.block.code ++ [⟨op, none, args⟩] } })
      = (a, s') := Except.ok.inj h
  obtain ⟨-, rfl⟩ := Prod.mk.inj h'
  have hle : s.Le { s with block := { s.block with code := s.block.code ++ [⟨op, none, args⟩] } } :=
    ⟨Grows.refl _, List.prefix_rfl, List.prefix_rfl⟩
  have hlabels : State.labels
      { s with block := { s.block with code := s.block.code ++ [⟨op, none, args⟩] } } = s.labels := by
    simp [State.labels, State.blocks]
  have hplain : op ≠ .move ∧ op ≠ .store ∧ Instr.target? ⟨op, none, args⟩ = none := by
    cases hform <;> first | (cases hop; done) | exact ⟨by decide, by decide, rfl⟩
  have horderly := hwf.orderly.concat hform (by rw [if_neg hplain.1]; exact fun x hx => (hargs x hx).1)
    (by rw [hplain.2.2]; simp)
  refine ⟨⟨horderly, hwf.scopes, ?_, hwf.closed, ?_, ?_, ?_⟩, ⟨?_, ?_⟩,
    ⟨hle, Nat.le_refl _, by rw [hlabels]; exact fun _ hl => hl,
      by rw [hlabels]; exact fun _ hl => .inl hl⟩, hlabels, rfl, by simp⟩
  · intro b hb i hi
    rcases State.mem_blocks.mp hb with hb | rfl
    · exact (hwf.code b (List.mem_append_left _ hb) i hi).mono hle
    · rcases List.mem_append.mp hi with hi | hi
      · exact (hwf.code s.block State.block_mem i hi).mono hle
      · rw [List.mem_singleton.mp hi]
        exact ⟨⟨hform.valid.1, hform.valid.2, fun x hx => (hargs x hx).2, by simp⟩,
          fun h => absurd h hplain.2.1⟩
  · rw [hlabels]
    intro b hb i hi
    rcases State.mem_blocks.mp hb with hb | rfl
    · exact hwf.jumps b (List.mem_append_left _ hb) i hi
    · exact forall_mem_concat (hwf.jumps s.block State.block_mem) htarget i hi
  · rw [hlabels]
    exact hwf.distinct
  · rw [hlabels]
    exact hwf.numbered
  · simp [Block.isTerminated, hop]
  · intro i hi
    rw [List.dropLast_concat] at hi
    exact hends i hi

/-- A block that ends with a return or a jump. -/
theorem emitEnd_runs {op : Opcode} (hwf : s.Wf env pending) (hends : s.Ends false)
    (hop : op.isTerminator) (hcjump : op ≠ .cjump) (hform : Instr.Form ⟨op, none, args⟩)
    (hargs : ∀ x ∈ args, s.Usable x)
    (htarget : Instr.JumpsInto (s.labels ++ pending) ⟨op, none, args⟩)
    (h : emit op none args s = .ok (a, s')) : Runs env pending s s' true := by
  obtain ⟨hwf', hsealed, hadv, -, -, hlast⟩ := emitLast_wf hwf hends hop hform hargs htarget h
  refine ⟨hadv, hwf', hsealed, ?_⟩
  intro i hi
  rw [hlast, Option.some.injEq] at hi
  rw [← hi]
  exact hcjump

theorem State.usable_label (l : String) : ∀ x ∈ [Operand.label l], s.Usable x := by
  intro x hx
  rw [List.mem_singleton.mp hx]
  exact State.usable_of_not_temp (by simp) trivial

theorem jumpsInto_jump {labels : List String} (hl : l ∈ labels) :
    Instr.JumpsInto labels ⟨.jump, none, [.label l]⟩ :=
  fun _ => ⟨l, hl, rfl⟩

theorem emitJump_runs (hwf : s.Wf env pending) (hends : s.Ends false) (hl : l ∈ s.labels ++ pending)
    (h : emit .jump none [.label l] s = .ok (a, s')) : Runs env pending s s' true :=
  emitEnd_runs hwf hends rfl (by simp) .jump (State.usable_label l) (jumpsInto_jump hl) h

/-! ## Opening blocks -/

/-- The block with a number has been opened. -/
structure Opened (k : Nat) (s s' : State) : Prop extends State.Le s s' where
  labels : s'.labels = s.labels ++ [blockLabel k]
  nextLabel : s'.nextLabel = s.nextLabel

theorem Advances.opened {s0 : State} (h : Advances s0 s) (hk : s0.nextLabel ≤ k)
    (ho : Opened k s s') : Advances s0 s' := by
  refine ⟨h.toLe.trans ho.toLe, by rw [ho.nextLabel]; exact h.nextLabel, ?_, ?_⟩
  · intro l hl
    rw [ho.labels]
    exact List.mem_append_left _ (h.kept l hl)
  · intro l hl
    rw [ho.labels, List.mem_append, List.mem_singleton] at hl
    rcases hl with hl | rfl
    · exact h.new l hl
    · exact .inr ⟨k, hk, rfl⟩

theorem State.Reserved.opened {j : Nat} (h : s.Reserved j) (hne : j ≠ k) (ho : Opened k s s') :
    s'.Reserved j := by
  refine ⟨by rw [ho.nextLabel]; exact h.1, ?_⟩
  rw [ho.labels, List.mem_append, List.mem_singleton]
  rintro (hl | hl)
  · exact h.2 hl
  · exact hne (blockLabel_injective hl)

/-- Code stays arranged when the open block is closed and an empty one is opened. -/
theorem State.Orderly.opened (hs : s.Orderly) (label : String) :
    State.Orderly { s with closed := s.closed ++ [s.block], block := ⟨label, []⟩ } := by
  have hcodes : (State.blocks { s with
      closed := s.closed ++ [s.block], block := ⟨label, []⟩ }).map (·.code) =
      s.blocks.map (·.code) ++ [[]] := by
    simp [State.blocks]
  have hwritten : State.written { s with
      closed := s.closed ++ [s.block], block := ⟨label, []⟩ } = s.written := by
    unfold State.written
    rw [hcodes]
    simp
  refine ⟨hs.typed, hs.locals, hs.scopes, ?_, ⟨?_, ?_⟩, by rw [hwritten]; exact hs.numbered⟩
  · intro b hb i hi
    rcases List.mem_append.mp hb with hb | hb
    · exact hs.forms b hb i hi
    · rw [List.mem_singleton.mp hb] at hi
      exact absurd hi (by simp)
  · show (State.written _).Nodup
    rw [hwritten]
    exact hs.arranged.once
  · rw [hcodes]
    exact forall_mem_concat hs.arranged.covered covered_nil

/-- Closing a block that has ended, and opening the next one. -/
theorem close_wf (hwf : s.Wf env pending) (hsealed : s.block.Sealed) (hk : s.Reserved k)
    (hsub : ∀ l ∈ pending, l = blockLabel k ∨ l ∈ pending')
    (hs' : s' = { s with closed := s.closed ++ [s.block], block := ⟨blockLabel k, []⟩ }) :
    s'.Wf env pending' ∧ s'.Ends false ∧ Opened k s s' := by
  subst hs'
  have hlabels : State.labels { s with
      closed := s.closed ++ [s.block], block := ⟨blockLabel k, []⟩ }
      = s.labels ++ [blockLabel k] := by
    simp [State.labels, State.blocks]
  have hle : s.Le { s with closed := s.closed ++ [s.block], block := ⟨blockLabel k, []⟩ } :=
    ⟨Grows.refl _, List.prefix_rfl, List.prefix_rfl⟩
  refine ⟨⟨hwf.orderly.opened _, hwf.scopes, ?_, forall_mem_concat hwf.closed hsealed, ?_, ?_, ?_⟩,
    by intro i hi; exact absurd hi (by simp), ⟨hle, hlabels, rfl⟩⟩
  · intro b hb i hi
    rcases State.mem_blocks.mp hb with hb | rfl
    · exact (hwf.code b hb i hi).mono hle
    · exact absurd hi (by simp)
  · intro b hb i hi hop
    rcases State.mem_blocks.mp hb with hb | rfl
    · obtain ⟨l, hl, htarget⟩ := hwf.jumps b hb i hi hop
      refine ⟨l, ?_, htarget⟩
      rw [hlabels]
      rcases List.mem_append.mp hl with hl | hl
      · exact List.mem_append_left _ (List.mem_append_left _ hl)
      · rcases hsub l hl with rfl | hl
        · exact List.mem_append_left _ (by simp)
        · exact List.mem_append_right _ hl
    · exact absurd hi (by simp)
  · rw [hlabels, List.nodup_append]
    refine ⟨hwf.distinct, by simp, ?_⟩
    intro a ha b hb
    rw [List.mem_singleton.mp hb]
    rintro rfl
    exact hk.2 ha
  · intro l hl
    rw [hlabels, List.mem_append, List.mem_singleton] at hl
    rcases hl with hl | rfl
    · exact hwf.numbered l hl
    · exact ⟨k, hk.1, rfl⟩

/-- Opening a block. The one before leads to it if it has not ended. -/
theorem openBlock_wf (hwf : s.Wf env pending) (hends : s.Ends false ∨ s.block.Sealed)
    (hk : s.Reserved k) (hsub : ∀ l ∈ pending, l = blockLabel k ∨ l ∈ pending')
    (h : openBlock (blockLabel k) s = .ok (a, s')) :
    s'.Wf env pending' ∧ s'.Ends false ∧ Opened k s s' := by
  obtain ⟨t, s1, h1, h⟩ := bind_ok h
  have h1' : (s.block.isTerminated, s) = (t, s1) := Except.ok.inj h1
  cases h1'
  rcases hends with hopen | hsealed
  · have hterm : s.block.isTerminated = false := hopen.terminated
    simp only [hterm, Bool.not_false, if_true] at h
    obtain ⟨_, s1, h2, h⟩ := bind_ok h
    obtain ⟨hwf1, hsealed, hadv, hlabels, hnext, -⟩ :=
      emitLast_wf (hwf.weaken (List.subset_cons_self (blockLabel k) pending)) hopen rfl
        .jump (State.usable_label _) (jumpsInto_jump (by simp)) h2
    have hsub1 : ∀ l ∈ blockLabel k :: pending, l = blockLabel k ∨ l ∈ pending' := by
      intro l hl
      rcases List.mem_cons.mp hl with rfl | hl
      · exact .inl rfl
      · exact hsub l hl
    obtain ⟨hwf', hends', ho⟩ :=
      close_wf hwf1 hsealed (hk.mono hadv) hsub1 (modify_ok h)
    exact ⟨hwf', hends', ⟨hadv.toLe.trans ho.toLe, by rw [ho.labels, hlabels],
      by rw [ho.nextLabel, hnext]⟩⟩
  · simp only [hsealed.ends, Bool.not_true] at h
    exact close_wf hwf hsealed hk hsub (modify_ok h)

theorem State.Ends.closable (h : s.Ends ends) : s.Ends false ∨ s.block.Sealed := by
  cases ends with
  | false => exact .inl h
  | true => exact .inr h.1

/-- A conditional jump to a label. It must not be the end of a function. -/
theorem emitUnless_wf {c : Operand} {target : String} (hwf : s.Wf env pending)
    (hends : s.Ends false) (hc : s.Ready c) (h : emitUnless c target s = .ok (a, s')) :
    s'.Wf env (target :: pending) ∧ s'.block.Sealed ∧ Advances s s' := by
  have hargs : ∀ x ∈ [c, .label target, .int 0 .bool], s.Usable x := by
    intro x hx
    rcases List.mem_cons.mp hx with rfl | hx
    · exact hc.usable
    · refine usable_pair ?_ ?_ x hx <;> exact State.usable_of_not_temp (by simp) trivial
  obtain ⟨hwf', hsealed, hadv, -⟩ :=
    emitLast_wf (hwf.weaken (List.subset_cons_self target pending)) hends rfl (.cjump hc.fit) hargs
      (fun _ => ⟨target, by simp, rfl⟩) h
  exact ⟨hwf', hsealed, hadv⟩

end TreeAsm.Lowering
