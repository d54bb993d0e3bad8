import TreeAsm.Proofs.Emit.Instructions

/-!
# Registers along a function

The loop over the blocks of a function stops between instructions (`Reached`). What holds at these
points follows from what one instruction and the end of a block preserve, and a failure of the whole
function is a failure at one of them. So between any two instructions each register in use has
exactly one owner, two registers are free, and emission never fails for want of a register.
-/

namespace TreeAsm

namespace Ir

/-- The symbols that an operand refers to are known. -/
def Operand.Refers (N : String → Prop) : Operand → Prop
  | .str c => N c.label
  | .symbol name | .label name => N name
  | _ => True

/-- An instruction refers to known symbols only, also where it jumps to. -/
structure Instr.Refers (N : String → Prop) (i : Instr) : Prop where
  args : ∀ x ∈ i.args, x.Refers N
  target : i.op = .jump ∨ i.op = .cjump → ∀ l, i.target = .ok l → N (l.getD "")

/-- Every operand refers to some symbols. -/
theorem Operand.refers_any (x : Operand) : x.Refers fun _ => True := by
  cases x with
  | temp _ | var _ | outer _ _ | int _ _ | str _ | symbol _ | label _ => trivial

theorem Instr.refers_any (i : Instr) : i.Refers fun _ => True :=
  ⟨fun x _ => x.refers_any, fun _ _ _ => trivial⟩

end Ir

namespace Emit

open Asm (Line Mem Reg frameRegs)
open Ir
open Asm.SysV (argRegs)
open Asm.Text (callBytes)

/-! ## Blocks and parameters -/

/-- The calls of a function push at most `D` bytes. -/
def CallsWithin (D : Nat) (code : List Instr) : Prop :=
  ∀ i ∈ code, i.op = .call → callBytes (i.args.length - 1) ≤ D

/-- The most bytes that a call of a function pushes. -/
def callsBytes (f : Func) : Nat :=
  (f.code.map fun i => if i.op = .call then callBytes (i.args.length - 1) else 0).foldr max 0

theorem callsWithin_callsBytes (f : Func) : ∀ b ∈ f.blocks, CallsWithin (callsBytes f) b.code := by
  have hmax : ∀ {ns : List Nat} {n : Nat}, n ∈ ns → n ≤ ns.foldr max 0 := by
    intro ns n hn
    induction ns with
    | nil => cases hn
    | cons k ns ih =>
      rcases List.mem_cons.mp hn with rfl | hn
      · exact Nat.le_max_left ..
      · exact Nat.le_trans (ih hn) (Nat.le_max_right ..)
  intro b hb i hi hop
  refine hmax (List.mem_map.mpr ⟨i, List.mem_flatMap.mpr ⟨b, hb, hi⟩, ?_⟩)
  rw [if_pos hop]

/-- The distances of the arguments that a caller puts on the stack, of which there are `count`. -/
def ArgPlace (count : Nat) (disp : Int64) : Prop := ∃ n < count, disp = 16 + 8 * Int64.ofNat n

section

variable {σ : Setting} (hσ : σ.Ready)

/-- An argument is in a register, or in the frame of the caller. -/
theorem argSource_kin {n count : Nat} (hn : n < argRegs.length + count)
    (hK : ∀ disp, ArgPlace count disp → σ.shift.fixed.places disp) :
    σ.Kin (argSource n) (argSource n) := by
  unfold argSource
  cases hr : argRegs[n]? with
  | some r =>
    have hspare : ∀ r ∈ argRegs, r ∉ frameRegs := by decide
    have hwhole : ∀ r ∈ argRegs, r.Whole := by decide
    have hmem := List.mem_of_getElem? hr
    exact (σ.twins_reg (hspare r hmem) (hwhole r hmem).full).toKin
  | none =>
    have hle := List.getElem?_eq_none_iff.mp hr
    refine ⟨.same _ ⟨fun m hm _ => ?_, fun _ h => nomatch h⟩, fun r h => absurd h (by simp), trivial⟩
    obtain rfl := Asm.Operand.mem.inj hm
    exact hK _ ⟨n - argRegs.length, by omega, rfl⟩

include hσ

theorem emitCode_tracks (bi : Nat) (l : String) {code : List Instr} (hcode : ∀ i ∈ code, σ.Takes i) :
    Steady σ (Owned σ.env σ.owns []) (emitCode σ.env bi l code) (emitCode σ.final bi l code) := by
  induction code with
  | nil => exact .done
  | cons i rest ih =>
    exact ((emitNext_tracks hσ (hcode i List.mem_cons_self) bi rest).within _).next
      (ih fun j hj => hcode j (List.mem_cons_of_mem _ hj))

section

variable (hP : ∀ op args, op.isMove = true → σ.lines (.ins op args))

include hP

theorem endBlock_tracks (bi : Nat) (b : Block) :
    Steady σ (Owned σ.env σ.owns []) (endBlock σ.env bi b) (endBlock σ.final bi b) :=
  .ite .done ((flush_keeps hσ (copies_of_moves hP) bi).between.within _)

theorem emitBlocks_tracks (bi : Nat) {blocks : List Block}
    (hlabels : ∀ b ∈ blocks, σ.lines (.label b.label))
    (hcode : ∀ b ∈ blocks, ∀ i ∈ b.code, σ.Takes i) :
    Steady σ (Owned σ.env σ.owns []) (emitBlocks σ.env bi blocks) (emitBlocks σ.final bi blocks) := by
  induction blocks generalizing bi with
  | nil => exact .done
  | cons b blocks ih =>
    have hblock := (label_tracks (I := Owned σ.env σ.owns []) (hlabels b List.mem_cons_self)).next
      ((emitCode_tracks hσ bi b.label (hcode b List.mem_cons_self)).next (endBlock_tracks hσ hP bi b))
    exact hblock.next (ih (bi + 1) (fun c hc => hlabels c (List.mem_cons_of_mem _ hc))
      fun c hc => hcode c (List.mem_cons_of_mem _ hc))

variable {I : State → Prop}

/-- Parameters are copied without any register of the pool. -/
theorem emitParams_tracks {count : Nat}
    (hK : ∀ disp, ArgPlace count disp → σ.shift.fixed.places disp) (n : Nat) {ps : List Local}
    (hps : ∀ p ∈ ps, σ.Reads (.var p) ∧ (σ.strict → σ.Fit p.type))
    (hcount : n + ps.length ≤ argRegs.length + count) :
    Steady σ I (emitParams σ.env n ps) (emitParams σ.final n ps) := by
  induction ps generalizing n with
  | nil => exact .done
  | cons p ps ih =>
    rw [List.length_cons] at hcount
    obtain ⟨hp, hfit⟩ := hps p List.mem_cons_self
    refine (checkScalar_tracks hσ hfit _).bindSame fun _ hbits => (var_tracks hσ hp).bind ?_
    rintro d _ ⟨hd, disp, rfl⟩
    refine ((Tracks.moveVia hσ hP _ ⟨hd, fun hstrict => (hbits hstrict).2⟩
      (argSource_kin (by omega) hK)).within _).next ?_
    exact ih (n + 1) (fun q hq => hps q (List.mem_cons_of_mem _ hq)) (by omega)

theorem emitAllParams_tracks (hK : ∀ disp, ArgPlace (Asm.SysV.stackArgs σ.env.func.params.length) disp →
      σ.shift.fixed.places disp)
    (hps : ∀ p ∈ σ.env.func.params, σ.Reads (.var p) ∧ (σ.strict → σ.Fit p.type)) :
    Steady σ I (emitParams σ.env 0 σ.env.func.params) (emitParams σ.final 0 σ.env.func.params) := by
  refine emitParams_tracks hσ hP hK 0 hps ?_
  unfold Asm.SysV.stackArgs
  omega

/-- Both runs through a body write the same lines up to slots, and those of the second one are
tidy. -/
theorem emitBody_tracks (hK : ∀ disp, ArgPlace (Asm.SysV.stackArgs σ.env.func.params.length) disp →
      σ.shift.fixed.places disp)
    (hps : ∀ p ∈ σ.env.func.params, σ.Reads (.var p) ∧ (σ.strict → σ.Fit p.type))
    (hlabels : ∀ b ∈ σ.env.func.blocks, σ.lines (.label b.label))
    (hcode : ∀ b ∈ σ.env.func.blocks, ∀ i ∈ b.code, σ.Takes i) :
    Steady σ (Owned σ.env σ.owns []) (emitBody σ.env) (emitBody σ.final) :=
  ((emitAllParams_tracks hσ hP hK hps).within _).next (emitBlocks_tracks hσ hP 0 hlabels hcode)

end

end

/-! ## One run -/

/-- A run side by side with itself. -/
def Setting.alone (env : Env) (depth : Nat) (lines : Line → Prop) (causes : Option Cause → Prop)
    (strict : Prop) (owns : Temp → Prop) : Setting :=
  ⟨env, env.frame.saved, ⟨fun _ => True, ⟨fun _ => True, fun _ => True⟩, 0⟩, fun _ => True, depth,
    lines, causes, strict, owns⟩

/-- A run of any code at all, which fails for anything but the pool of registers. -/
def Setting.loose (env : Env) (depth : Nat) (lines : Line → Prop) : Setting :=
  .alone env depth lines Spares False fun _ => True

section

variable {env : Env} {depth : Nat} {lines : Line → Prop} {causes : Option Cause → Prop}
  {strict : Prop} {owns : Temp → Prop}

theorem Setting.alone_ready (hspares : ¬ strict → ∀ c, Spares c → causes c)
    (hstores : strict → ∀ {bi : Nat} {t t' : Temp}, env.func.temps[t'.id]? = some t → owns t' →
      isLiveOut env bi t'.id → env.types.bits t.type ∈ Asm.widths) :
    (Setting.alone env depth lines causes strict owns).Ready := by
  have hmem : ∀ m : Mem,
      (Setting.alone env depth lines causes strict owns).Twins (.mem m) (.mem m) := fun m =>
    ⟨⟨.same _ ⟨fun _ _ _ => trivial, fun _ _ => trivial⟩, fun _ h => absurd h (by simp), trivial⟩,
      fun _ _ _ => trivial⟩
  refine ⟨fun t _ => hmem _, fun v => ?_, fun _ _ => trivial, fun _ _ => trivial,
    fun _ _ => trivial, trivial, hspares, hstores⟩
  show env.frame.localSlot? v = none ∧ env.frame.localSlot? v = none ∨ ∃ disp disp',
    env.frame.localSlot? v = some disp ∧ env.frame.localSlot? v = some disp' ∧ _
  cases hslot : env.frame.localSlot? v with
  | none => exact .inl ⟨rfl, rfl⟩
  | some disp => exact .inr ⟨disp, disp, rfl, rfl, fun _ => hmem _⟩

theorem Setting.loose_ready : (Setting.loose env depth lines).Ready :=
  Setting.alone_ready (fun _ _ hc => hc) fun h => h.elim

theorem Setting.has_of_loose (σ : Setting) (hloose : ¬ σ.strict) {t : Temp} (ht : σ.owns t) : σ.Has t :=
  ⟨ht, fun h => absurd h hloose, fun h => absurd h hloose, fun h => absurd h hloose⟩

/-- Any operand may be read if nothing is known of it. -/
theorem Setting.reads_of_refers {σ : Setting} (hloose : ¬ σ.strict) (howns : ∀ t, σ.owns t)
    {x : Ir.Operand} (hx : x.Refers σ.shift.fixed.symbols) : σ.Reads x := by
  cases x with
  | temp t => exact σ.has_of_loose hloose (howns t)
  | var v => exact fun h => absurd h hloose
  | outer name type => exact hloose
  | int value type => exact trivial
  | str c => exact hx
  | symbol name => exact ⟨hx, fun h => absurd h hloose⟩
  | label name => exact hx

/-- Any code may be compared if nothing is known of it. -/
theorem Setting.takes_of_refers {σ : Setting} (hloose : ¬ σ.strict) (howns : ∀ t, σ.owns t) {i : Instr}
    (hP : Allows σ.lines i) (hi : i.Refers σ.shift.fixed.symbols)
    (hD : i.op = .call → callBytes (i.args.length - 1) ≤ σ.depth) : σ.Takes i :=
  ⟨hP, fun x hx => reads_of_refers hloose howns (hi.args x hx),
    fun t _ => σ.has_of_loose hloose (howns t), hi.target, hD, fun h => absurd h hloose⟩

theorem Setting.loose_reads (x : Ir.Operand) : (Setting.loose env depth lines).Reads x :=
  Setting.reads_of_refers id (fun _ => trivial) x.refers_any

theorem Setting.loose_takes {i : Instr} (hP : Allows lines i)
    (hD : i.op = .call → callBytes (i.args.length - 1) ≤ depth) :
    (Setting.loose env depth lines).Takes i :=
  Setting.takes_of_refers id (fun _ => trivial) hP i.refers_any hD

end

variable (env : Env)

/-- Every register in use has an owner. -/
abbrev Settled (env : Env) (s : State) : Prop := Owned env (fun _ => True) [] s

section

variable {P : Line → Prop}

theorem emitNext_loose (bi : Nat) {i : Instr} (hP : Allows P i) (rest : List Instr) :
    Tracks (.loose env (callBytes (i.args.length - 1)) P) (Settled env) (emitNext env bi i rest)
      (emitNext env bi i rest) (fun _ => Settled env) fun _ _ => True :=
  emitNext_tracks Setting.loose_ready (Setting.loose_takes hP fun _ => Nat.le_refl _) bi rest

theorem endBlock_loose (hP : ∀ op args, op.isMove → P (.ins op args)) (bi : Nat) (b : Block) :
    Tracks (.loose env 0 P) (Settled env) (endBlock env bi b) (endBlock env bi b)
      (fun _ => Settled env) fun _ _ => True :=
  endBlock_tracks Setting.loose_ready hP bi b

theorem emitParams_loose (hP : ∀ op args, op.isMove → P (.ins op args)) {I : State → Prop}
    (ps : List Local) (n : Nat) :
    Tracks (.loose env 0 P) I (emitParams env n ps) (emitParams env n ps) (fun _ => I) fun _ _ => True :=
  have hall : ∀ disp, ArgPlace (n + ps.length) disp → True := fun _ _ => trivial
  emitParams_tracks Setting.loose_ready hP hall n (fun _ _ => ⟨fun h => h.elim, fun h => h.elim⟩) (by omega)

end

variable {s : State} {bi : Nat}

theorem emitNext_gives (bi : Nat) (i : Instr) (rest : List Instr) (h : Settled env s) :
    Gives Spares (emitNext env bi i rest) s fun _ s' => Settled env s' :=
  ((emitNext_loose env bi (allows_any i) rest).gives rfl h).mono fun _ _ h => h.1

theorem endBlock_gives (bi : Nat) (b : Block) (h : Settled env s) :
    Gives Spares (endBlock env bi b) s fun _ s' => Settled env s' :=
  ((endBlock_loose (P := fun _ => True) env (fun _ _ _ => trivial) bi b).gives rfl h).mono fun _ _ h => h.1

theorem emitParams_gives (ps : List Local) (n : Nat) :
    Gives Spares (emitParams env n ps) s fun _ s' => s = s' :=
  ((emitParams_loose (P := fun _ => True) env (fun _ _ _ => trivial) ps n).gives rfl rfl).mono
    fun _ _ h => h.1

/-! ## The points between instructions -/

/-- Emitting a function comes to block `bi` with the instructions `rest` still to come, in state
`s`. -/
inductive Reached : Nat → List Instr → State → Prop
  | first {b : Block} {s : State} :
      (emitParams env 0 env.func.params (State.start env.func)).result = .ok ((), s) →
      env.func.blocks[0]? = some b → Reached 0 b.code s
  | instr {bi : Nat} {i : Instr} {rest : List Instr} {s s' : State} :
      Reached bi (i :: rest) s → (emitNext env bi i rest s).result = .ok ((), s') →
      Reached bi rest s'
  | block {bi : Nat} {b b' : Block} {s s' : State} : Reached bi [] s → env.func.blocks[bi]? = some b →
      (endBlock env bi b s).result = .ok ((), s') →
      env.func.blocks[bi + 1]? = some b' → Reached (bi + 1) b'.code s'

variable {env}

/-- At every point each register in use has one owner. -/
theorem Reached.settled {rest : List Instr} (h : Reached env bi rest s) : Settled env s := by
  induction h with
  | first hp _ =>
    obtain rfl := (emitParams_gives env env.func.params 0).of_ok hp
    exact owned_start env _
  | instr _ hi ih => exact (emitNext_gives env _ _ _ ih).of_ok hi
  | block _ _ he _ ih => exact (endBlock_gives env _ _ ih).of_ok he

/-- The next step from some point fails for a cause. -/
inductive Stops (env : Env) (cause : Option Cause) : Prop
  | instr {bi : Nat} {i : Instr} {rest : List Instr} {s : State} {e : Failure} :
      Reached env bi (i :: rest) s → (emitNext env bi i rest s).result = .error e →
      e.cause? = cause → Stops env cause
  | block {bi : Nat} {b : Block} {s : State} {e : Failure} :
      Reached env bi [] s → (endBlock env bi b s).result = .error e →
      e.cause? = cause → Stops env cause

/-- Every point of some code of block `bi` has been reached. -/
def Passed (env : Env) (bi : Nat) (code : List Instr) : Prop :=
  ∀ done rest, code = done ++ rest → ∃ s, Reached env bi rest s

/-- The instructions of a block are emitted point by point. -/
theorem emitCode_reached {code : List Instr} (label : String) (h : Reached env bi code s) :
    Gives (Stops env) (emitCode env bi label code) s fun _ s' =>
      Reached env bi [] s' ∧ Passed env bi code := by
  induction code generalizing s with
  | nil =>
    refine Gives.pure ⟨h, fun done rest hsplit => ?_⟩
    obtain ⟨-, rfl⟩ := List.nil_eq_append_iff.mp hsplit
    exact ⟨s, h⟩
  | cons i rest ih =>
    have hnext : Gives (Stops env) (emitNext env bi i rest) s fun _ s' => Reached env bi rest s' := by
      unfold Gives
      cases hr : (emitNext env bi i rest s).result with
      | ok p => exact .instr h hr
      | error e => exact .instr h hr rfl
    refine Gives.bind (Gives.within hnext _) fun _ _ h' => (ih h').mono ?_
    rintro _ s' ⟨hend, hpassed⟩
    refine ⟨hend, fun done more hsplit => ?_⟩
    cases done with
    | nil =>
      rw [List.nil_append] at hsplit
      exact ⟨s, hsplit ▸ h⟩
    | cons j done => exact hpassed done more (List.cons.inj hsplit).2

theorem emitBlock_reached {b : Block} (h : Reached env bi b.code s) :
    Gives (Stops env) (emitBlock env bi b) s fun _ s' =>
      (∃ t, Reached env bi [] t ∧ (endBlock env bi b t).result = .ok ((), s')) ∧
      Passed env bi b.code := by
  refine Gives.bind (Gives.write (Q := fun _ s' => s = s') rfl) ?_
  rintro _ _ rfl
  refine Gives.bind (emitCode_reached b.label h) ?_
  rintro _ t ⟨ht, hpassed⟩
  unfold Gives
  cases hr : (endBlock env bi b t).result with
  | ok p => exact ⟨⟨t, ht, hr⟩, hpassed⟩
  | error e => exact .block ht hr rfl

/-- The blocks of a function are emitted point by point. -/
theorem emitBlocks_reached {bs : List Block} (hbs : env.func.blocks.drop bi = bs)
    (h : ∀ b, bs.head? = some b → Reached env bi b.code s) :
    Gives (Stops env) (emitBlocks env bi bs) s fun _ _ =>
      ∀ k b, bi ≤ k → env.func.blocks[k]? = some b → Passed env k b.code := by
  -- along the blocks: what comes first in the rest is what is emitted next
  induction bs generalizing bi s with
  | nil =>
    refine Gives.pure fun k b hk hb => ?_
    have hlen : env.func.blocks.length ≤ bi := List.drop_eq_nil_iff.mp hbs
    have hlt : k < env.func.blocks.length := (List.getElem?_eq_some_iff.mp hb).1
    omega
  | cons b bs ih =>
    have hb : env.func.blocks[bi]? = some b := by
      rw [← List.head?_drop, hbs]
      rfl
    have hrest : env.func.blocks.drop (bi + 1) = bs := by
      rw [← List.drop_drop, hbs]
      rfl
    refine Gives.bind (emitBlock_reached (h b rfl)) ?_
    rintro _ s' ⟨⟨t, ht, he⟩, hpassed⟩
    refine (ih hrest fun b' hb' => ?_).mono fun _ _ hlater k c hk hc => ?_
    · refine .block ht hb he ?_
      rw [← List.head?_drop, hrest, hb']
    · by_cases hkb : k = bi
      · obtain rfl : b = c := by rw [hkb, hb] at hc; exact Option.some.inj hc
        exact hkb ▸ hpassed
      · exact hlater k c (by omega) hc

/-- A failure of the body is one of copying the parameters or of a step between points, and if there
is none, all points are reached. -/
theorem emitBody_gives (env : Env) : Gives Spares (emitBody env) (State.start env.func) fun _ _ =>
      ∀ bi b, env.func.blocks[bi]? = some b → Passed env bi b.code := by
  have hparams : Gives Spares (emitParams env 0 env.func.params) (State.start env.func) fun _ s =>
      (emitParams env 0 env.func.params (State.start env.func)).result = .ok ((), s) := by
    have hspares := emitParams_gives env (s := State.start env.func) env.func.params 0
    unfold Gives at hspares ⊢
    cases hr : (emitParams env 0 env.func.params (State.start env.func)).result with
    | ok p => exact rfl
    | error e => exact hspares.of_error hr
  refine Gives.bind (Gives.within hparams _) fun _ s hs => ?_
  refine Outcome.Gives.mono (emitBlocks_reached rfl fun b hb => ?_) (fun c hc => ?_)
    fun _ hall bi b => hall bi b (Nat.zero_le bi)
  · exact .first hs (by rwa [← List.head?_eq_getElem?])
  · cases hc with
    | instr hr he hc => exact hc ▸ (emitNext_gives env _ _ _ hr.settled).of_error he
    | block hr he hc => exact hc ▸ (endBlock_gives env _ _ hr.settled).of_error he

theorem linesOf_gives {E : Option Cause → Prop} {x : Asm.Text Unit}
    (h : Asm.Text.Gives E x fun _ => True) : (linesOf x).Gives E fun _ => True :=
  Outcome.Gives.bind h fun _ _ => trivial

theorem emitBody_sparing (env : Env) : Sparing (fun _ => True) (Emitter.fromStart env (emitBody env)) :=
  .bind ⟨fun _ _ => trivial, (emitBody_gives env).mono fun _ _ _ => trivial⟩ fun _ => .pure ()

/-! ## Whole functions -/

theorem Sparing.wholeFunc (env : Env) (isEntry : Bool) :
    Sparing (fun _ => True) (wholeFunc env isEntry) := by
  have heach : ∀ op rs, Sparing (fun _ => True) (eachReg op rs) := by
    intro op rs
    induction rs with
    | nil => exact .pure ()
    | cons r rs ih => exact .bind (.ins trivial) fun _ => ih
  have hreserve : Sparing (fun _ => True) (Asm.Text.lift env.frame.reserve) := by
    refine .lift ?_
    unfold Frame.reserve
    split <;> exact trivial
  refine .bind (.within ?_ _) fun _ => .bind (emitBody_sparing env) fun _ => .within ?_ _
  · exact .bind (.line trivial) fun _ => .bind (.ins trivial) fun _ => .bind (.ins trivial) fun _ =>
      .bind (heach _ _) fun _ => .bind hreserve fun _ => .onlyIf (.ins trivial)
  · refine .bind (.line trivial) fun _ => .bind hreserve fun _ => .bind (.onlyIf (.ins trivial))
      fun _ => .bind (heach _ _) fun _ => .bind (.ins trivial) fun _ => .ite ?_ (.ins trivial)
    exact .bind (.ins trivial) fun _ => .bind (.ins trivial) fun _ => .ins trivial

theorem successors_gives (f : Func) (i : Nat) (b : Block) :
    (Liveness.successors f i b).Gives Spares fun _ => True := by
  unfold Liveness.successors
  cases b.code.getLast? with
  | none => exact trivial
  | some last =>
    show Outcome.Gives Spares (if _ then _ else _) _
    split
    · exact trivial
    · split
      · refine Outcome.Gives.bind (target_gives last) fun label _ => ?_
        dsimp only
        cases f.blockIndex? (label.getD "") with
        | none => exact rfl
        | some target =>
          show Outcome.Gives Spares (if _ then _ else _) _
          split <;> exact trivial
      · exact trivial

theorem useDefFrom_gives (code : List Instr) (use defs : BitSet) :
    (Liveness.useDefFrom use defs code).Gives Spares fun _ => True := by
  induction code generalizing use defs with
  | nil => exact trivial
  | cons i code ih =>
    have hreads : i.reads.Gives Spares fun _ => True := by
      unfold Instr.reads
      split
      · split <;> exact trivial
      · exact trivial
    have hwritten : i.written.Gives Spares fun _ => True := by
      unfold Instr.written
      split
      · exact trivial
      · split
        · exact (arg_gives i 0).bind fun _ _ => trivial
        · exact trivial
    exact hreads.bind fun _ _ => hwritten.bind fun _ _ => ih _ _

theorem analyze_gives (f : Func) : (Liveness.analyze f).Gives Spares fun _ => True := by
  refine Outcome.Gives.bind (Q := fun _ => True) ?_ fun bs _ => ?_
  · refine Outcome.Gives.bind
      (Outcome.Gives.within (Outcome.Gives.mapM (fun _ => successors_gives f _ _) _) _) ?_
    intro succs _
    refine Outcome.Gives.mapM (fun p => ?_) _
    exact (useDefFrom_gives p.1.code ∅ ∅).bind fun _ _ => trivial
  · unfold Liveness.solve
    split <;> exact trivial

theorem emitFunc_gives (u : Universe) (m : Module) (f : Func) (isEntry : Bool) :
    (emitFunc u m f isEntry).Gives Spares fun _ => True := by
  refine Outcome.Gives.bind (Outcome.Gives.within (analyze_gives f) _) fun live _ => ?_
  exact Outcome.Gives.bind (linesOf_gives (emitBody_sparing _).spares) fun dry _ =>
    linesOf_gives (Sparing.wholeFunc _ _).spares

/-! ## Registers and their owners -/

/-- Each register in use is that of exactly one temporary, and the headroom is free. -/
structure Separate (s : State) : Prop where
  injective : ∀ i j r, s.bound? i = some r → s.bound? j = some r → i = j
  inUse : ∀ r, r ∈ s.pool.used ↔ ∃ i, s.bound? i = some r
  spare : Pool.headroom ≤ s.pool.free.length

theorem mem_filterMap_iff_bound? (s : State) (r : Reg) :
    r ∈ s.bound.filterMap id ↔ ∃ i, s.bound? i = some r := by
  have hmem : r ∈ s.bound.filterMap id ↔ some r ∈ s.bound := by simp
  rw [hmem, List.mem_iff_getElem?]
  exact exists_congr fun i => Option.join_eq_some_iff.symm

/-- A list in which no value occurs twice has it at one place only. -/
theorem getElem?_inj_of_nodup {xs : List (Option Reg)} (h : (xs.filterMap id).Nodup) {i j : Nat}
    {r : Reg} (hi : xs[i]? = some (some r)) (hj : xs[j]? = some (some r)) : i = j := by
  induction xs generalizing i j with
  | nil => cases hi
  | cons x xs ih =>
    -- a second place holds a register that the first one has
    have hclash : ∀ k, xs[k]? = some (some r) → r ∈ xs.filterMap id := fun k hk =>
      List.mem_filterMap.mpr ⟨some r, List.mem_of_getElem? hk, rfl⟩
    cases i with
    | zero =>
      obtain rfl : x = some r := by simpa using hi
      cases j with
      | zero => rfl
      | succ j =>
        have hnot : r ∉ xs.filterMap id := (List.nodup_cons.mp h).1
        exact absurd (hclash j (by simpa using hj)) hnot
    | succ i =>
      cases j with
      | zero =>
        obtain rfl : x = some r := by simpa using hj
        have hnot : r ∉ xs.filterMap id := (List.nodup_cons.mp h).1
        exact absurd (hclash i (by simpa using hi)) hnot
      | succ j =>
        have htail : (xs.filterMap id).Nodup := by
          cases x with
          | none => exact h
          | some y => exact (List.nodup_cons.mp h).2
        exact congrArg Nat.succ (ih htail (by simpa using hi) (by simpa using hj))

theorem Holds.separate (h : Holds s []) : Separate s := by
  have howned := h.owned
  rw [List.append_nil] at howned
  have hnodup : (s.bound.filterMap id).Nodup :=
    howned.nodup_iff.mpr (List.nodup_append.mp h.nodup).2.1
  refine ⟨?_, ?_, h.spare⟩
  · intro i j r hi hj
    exact getElem?_inj_of_nodup hnodup (Option.join_eq_some_iff.mp hi) (Option.join_eq_some_iff.mp hj)
  · intro r
    rw [← mem_filterMap_iff_bound?, howned.mem_iff]

theorem Setting.Working.mem_used {σ : Setting} {n : Nat} (h : σ.Working n s) (r : Reg) :
    r ∈ s.pool.used ↔ r ∈ s.scratches ∨ ∃ i, s.bound? i = some r := by
  rw [← h.1.holds.owned.mem_iff, List.mem_append, mem_filterMap_iff_bound?, or_comm]

/-- Between two instructions of any function the registers in use belong to one temporary each and
two are free; an instruction takes at most two more, and all that are in use then are these and those
of the temporaries. Every point between instructions is one that emission passes. So no function
fails because registers run out, or because one is given back that is not in use. -/
theorem registers_suffice :
    (∀ (env : Env) (bi : Nat) (rest : List Instr) (s : State), Reached env bi rest s → Separate s ∧
      ∀ i rest' last s', rest = i :: rest' →
        (emitOp env bi last i { s with scratches := [] }).result = .ok ((), s') →
        s'.scratches.length ≤ 2 ∧
        ∀ r, r ∈ s'.pool.used ↔ r ∈ s'.scratches ∨ ∃ j, s'.bound? j = some r) ∧
    (∀ (env : Env) (s : State), (emitBody env (State.start env.func)).result = .ok ((), s) →
      ∀ bi b, env.func.blocks[bi]? = some b → ∀ done rest, b.code = done ++ rest →
        ∃ t, Reached env bi rest t) ∧
    ∀ (u : Universe) (m : Module) (f : Func) (isEntry : Bool) (e : Failure),
      emitFunc u m f isEntry = .error e →
        e.cause? ≠ some .outOfScratchRegisters ∧ ∀ r, e.cause? ≠ some (.registerNotInUse r) := by
  refine ⟨fun env bi rest s h => ⟨h.settled.holds.separate, ?_⟩, fun env s hs => ?_,
    fun u m f isEntry e he => ?_⟩
  · intro i rest' last s' _ hop
    let σ := Setting.loose env (callBytes (i.args.length - 1)) fun _ => True
    have hworking : σ.Working 0 { s with scratches := [] } :=
      ⟨h.settled.congr rfl rfl, Nat.le_refl 0⟩
    have huses := emitOp_uses (σ := σ) Setting.loose_ready
      (Setting.loose_takes (allows_any i) fun _ => Nat.le_refl _) bi last
    have hworking' : σ.Working 2 s' := (Outcome.Gives.of_ok (huses.gives rfl hworking) hop).1
    exact ⟨hworking'.2, hworking'.mem_used⟩
  · exact (emitBody_gives env).of_ok hs
  · have hspares : Spares e.cause? := (emitFunc_gives u m f isEntry).of_error he
    refine ⟨fun hc => ?_, fun r hc => ?_⟩
    · rw [hc] at hspares
      exact absurd hspares (by simp [Spares, isPoolFault])
    · rw [hc] at hspares
      exact absurd hspares (by simp [Spares, isPoolFault])

/-- Reads a parameter, doubles it and returns it. -/
def doublingBlock : Block := ⟨".L0", [
  ⟨.move, none, [.temp ⟨0, .int⟩, .var ⟨0, "c", .int, true⟩]⟩,
  ⟨.add, some ⟨1, .int⟩, [.temp ⟨0, .int⟩, .temp ⟨0, .int⟩]⟩,
  ⟨.ret, none, [.temp ⟨1, .int⟩]⟩]⟩

/-- A function of one parameter, with two temporaries and one block. -/
def oneBlock (b : Block) : Func :=
  ⟨"f", .int, true, false, [⟨0, "c", .int, true⟩], [⟨0, .int⟩, ⟨1, .int⟩], [b]⟩

def doublingEnv : Env :=
  let u := Universe.make 64 false
  ⟨u, .empty, oneBlock doublingBlock, Frame.ofFunc u (oneBlock doublingBlock) 16, [default]⟩

/-- Before the parameter is read, and before the function returns, each register in use has one owner. A
jump to nowhere is refused, but not for want of registers. -/
theorem registers_suffice_doubling :
    (∃ s s', Reached doublingEnv 0 doublingBlock.code s ∧ Separate s ∧ (emitOp doublingEnv 0 false
        ⟨.move, none, [.temp ⟨0, .int⟩, .var ⟨0, "c", .int, true⟩]⟩ { s with scratches := [] }).result
          = .ok ((), s') ∧ s'.scratches.length ≤ 2) ∧
    (∃ t, Reached doublingEnv 0 [⟨.ret, none, [.temp ⟨1, .int⟩]⟩] t ∧ Separate t) ∧
    ∃ e, emitFunc (Universe.make 64 false) .empty
        (oneBlock ⟨".L0", [⟨.jump, none, [.label "x"]⟩]⟩) false = .error e ∧
      e.cause? ≠ some .outOfScratchRegisters := by
  refine ⟨?_, ?_, _, rfl, ?_⟩
  · have hfirst : Reached doublingEnv 0 doublingBlock.code _ := .first rfl rfl
    obtain ⟨hseparate, huses⟩ := registers_suffice.1 _ _ _ _ hfirst
    exact ⟨_, _, hfirst, hseparate, rfl, (huses _ _ false _ rfl rfl).1⟩
  · obtain ⟨t, ht⟩ := registers_suffice.2.1 doublingEnv _ rfl 0 _ rfl [_, _] [_] rfl
    exact ⟨t, ht, (registers_suffice.1 _ _ _ _ ht).1⟩
  · exact (registers_suffice.2.2 (Universe.make 64 false) .empty
      (oneBlock ⟨".L0", [⟨.jump, none, [.label "x"]⟩]⟩) false _ rfl).1

end Emit

end TreeAsm
