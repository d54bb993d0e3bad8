import TreeAsm.Proofs.Emit.Simulation

/-!
# Blocks are emitted

Blocks of computing instructions and a terminator are emitted without a failure: types fit, every
temporary that is read or written has its place, and there are registers left. This is the setting
where code is in order and nothing may fail (`Setting.sure`).
-/

namespace TreeAsm.Emit

open Asm (Reg runLines widths)
open Ir

/-- A run of code that is in order, which does not fail. The temporaries with registers are those of
the function that fit one. -/
def Setting.sure (env : Env) : Setting :=
  .alone env 0 (fun _ => True) (fun _ => False) True env.HasTemp

section

variable {env : Env} {K : Nat → Bool} {i : Instr} {s : State} {bi : Nat}

theorem widths_of_scalar {type : Ty} (h : env.types.isScalar type) : env.types.bits type ∈ widths :=
  Asm.mem_widths.mpr (isWidth_of_scalar h)

theorem Setting.sure_ready : (Setting.sure env).Ready := by
  refine Setting.alone_ready (fun h => absurd trivial h) fun _ {_ t t'} htemp ht _ => ?_
  obtain rfl : t = t' := Option.some.inj (htemp.symm.trans ht.1)
  exact widths_of_scalar ht.2

theorem Setting.sure_fit {type : Ty} (h : env.types.isScalar type) : (Setting.sure env).Fit type :=
  Outcome.gives_of_ok (checkScalar_eq h) (widths_of_scalar h)

theorem Setting.sure_has {t : Temp} (ht : env.HasTemp t) : (Setting.sure env).Has t :=
  ⟨ht, fun _ => ht.lt, fun _ => typed_of_scalar ht.2, fun _ => sure_fit ht.2⟩

theorem Setting.sure_reads (hframed : env.Framed) {x : Ir.Operand} (hx : env.Reads x) :
    (Setting.sure env).Reads x := by
  cases x with
  | temp t => exact sure_has hx
  | var v =>
    intro _
    show (env.frame.localSlot? v).isSome
    rw [localSlot?_eq hframed hx.lt]
    rfl
  | int value type => exact trivial
  | _ => exact hx.elim

theorem Setting.sure_binary (hframed : env.Framed) {op : Opcode} (hop : op.isBinary) {t : Temp}
    (ht : env.HasTemp t) {x y : Ir.Operand} (hx : env.Reads x) (hy : env.Reads y) :
    (Setting.sure env).Takes ⟨op, some t, [x, y]⟩ := by
  refine ⟨allows_any _, fun z hz => ?_, fun t' ht' => ?_, fun _ _ _ => trivial, fun hcall => ?_,
    fun _ => .binary hop t fun _ => ⟨typed_of_scalar hx.scalar, typed_of_scalar hy.scalar⟩⟩
  · simp only [List.mem_cons, List.not_mem_nil, or_false] at hz
    rcases hz with rfl | rfl
    · exact sure_reads hframed hx
    · exact sure_reads hframed hy
  · obtain rfl : t = t' := Option.some.inj ht'
    exact sure_has ht
  · obtain rfl : op = .call := hcall
    cases hop

theorem Computing.takes (hframed : env.Framed) (hi : Computing env K i) : (Setting.sure env).Takes i := by
  cases hi with
  | @moveTemp t x ht hx =>
    refine ⟨allows_any _, fun z hz => ?_, nofun, fun _ _ _ => trivial, nofun, fun _ => .moveTemp t x⟩
    simp only [List.mem_cons, List.not_mem_nil, or_false] at hz
    rcases hz with rfl | rfl
    · exact Setting.sure_has ht
    · exact Setting.sure_reads hframed hx
  | @moveVar v x hv hx =>
    refine ⟨allows_any _, fun z hz => ?_, nofun, fun _ _ _ => trivial, nofun,
      fun _ => .moveVar (Setting.sure_fit hv.2) x⟩
    simp only [List.mem_cons, List.not_mem_nil, or_false] at hz
    rcases hz with rfl | rfl
    · exact Setting.sure_reads (x := .var v) hframed hv
    · exact Setting.sure_reads hframed hx
  | @arithmetic op t x y hop ht hx hy hxt hyt =>
    refine Setting.sure_binary hframed ?_ ht hx hy
    simp only [List.mem_cons, List.not_mem_nil, or_false] at hop
    rcases hop with rfl | rfl | rfl | rfl | rfl <;> rfl
  | @compare op t x y hop ht hbool hx hy hxt hyt hknown =>
    exact Setting.sure_binary hframed (isBinary_of_isCompare hop) ht hx hy

theorem Terminating.takes (hframed : env.Framed) (hi : Terminating env i) : (Setting.sure env).Takes i := by
  have hargs : ∀ x ∈ i.args, (Setting.sure env).Reads x := by
    intro z hz
    cases hi with
    | retNothing => cases hz
    | ret hx => exact List.mem_singleton.mp hz ▸ Setting.sure_reads hframed hx
    | jump hl => exact List.mem_singleton.mp hz ▸ trivial
    | cjump hx l sentinel type =>
      simp only [List.mem_cons, List.not_mem_nil, or_false] at hz
      rcases hz with rfl | rfl | rfl
      · exact Setting.sure_reads hframed hx
      · exact trivial
      · exact trivial
  have hresult : i.result = none := by cases hi <;> rfl
  refine ⟨allows_any _, hargs, fun t ht => absurd (hresult.symm.trans ht) nofun,
    fun _ _ _ => trivial, fun hcall => ?_, fun _ => ?_⟩
  · cases hi <;> cases hcall
  · cases hi with
    | retNothing => exact .retNothing
    | @ret x hx =>
      refine .ret ?_
      by_cases hvoid : env.types.isVoid env.func.ret
      · exact (if_pos hvoid).trans_ne (typed_of_scalar hx.scalar)
      · refine (if_neg hvoid).trans_ne fun huntyped => ?_
        have hret : env.func.ret = .untyped := huntyped
        rw [hret] at hvoid
        exact hvoid rfl
    | jump hl => exact .jump hl
    | @cjump x hx l sentinel type => exact .cjump x l sentinel type

/-! ## The code of a block -/

theorem code_gives (hframed : env.Framed) (label : String) {code : List Instr}
    (hcode : BlockCode env K code) (hs : Ordered env [] s) :
    Gives (fun _ => False) (emitCode env bi label code) s fun _ s' => Ordered env [] s' := by
  have htakes : ∀ i ∈ code, (Setting.sure env).Takes i := by
    induction hcode with
    | last hi => exact fun j hj => List.mem_singleton.mp hj ▸ hi.takes hframed
    | cons hi _ ih =>
      intro j hj
      rcases List.mem_cons.mp hj with rfl | hj
      · exact hi.takes hframed
      · exact ih j hj
  exact ((emitCode_tracks Setting.sure_ready bi label htakes).gives rfl
    (ordered_iff_owned.mp hs)).mono fun _ _ h => ordered_iff_owned.mpr h.1

/-- Every block of computing instructions and a terminator is emitted. -/
theorem block_gives (hframed : env.Framed) (bi : Nat) {b : Block} (hcode : BlockCode env K b.code)
    (hs : Ordered env [] s) :
    Gives (fun _ => False) (emitBlock env bi b) s fun _ s' => Ordered env [] s' := by
  refine Gives.bind (Gives.write (Q := fun _ s' => s = s') rfl) ?_
  rintro _ _ rfl
  refine Gives.bind (code_gives hframed b.label hcode hs) fun _ s1 hs1 => ?_
  rw [endBlock, if_pos hcode.isTerminated]
  exact Gives.pure hs1

end

/-! ## What a block does -/

/-- Before anything is emitted, no register has been handed out. -/
theorem ordered_start (env : Env) : Ordered env [] (.start env.func) :=
  ordered_iff_owned.mpr (owned_start env env.HasTemp)

/-- A block is emitted, and the lines do what its code does: they lead to the same place with the same
values where it goes on, and they fault where it does. -/
theorem emitBlock_simulates {env : Env} (hframed : env.Framed) {m : Asm.Machine}
    (hfits : env.Fits (m.regs .rbp)) {s : State} (hs : Ordered env [] s) {σ : Store}
    (hrep : Represents env (m.regs .rbp) (fun _ => True) σ s m) (bi : Nat) {b : Block}
    (hcode : BlockCode env (fun i => (s.const? i).isSome) b.code) :
    ∃ s', (emitBlock env bi b s).result = .ok ((), s') ∧ (runCode env.types b.code σ ≠ .stuck →
        Simulates env (m.regs .rbp) bi (runCode env.types b.code σ) s'
          (runLines (emitBlock env bi b s).lines m)) := by
  have hbetween : Between env (m.regs .rbp) (Needed env bi b.code) σ (fun i => (s.const? i).isSome)
      s m := by
    refine ⟨(hrep.weaken fun _ _ => trivial).state rfl rfl, ?_, fun _ => rfl⟩
    exact ⟨hs.holds.congr rfl rfl, hs.length, hs.owner⟩
  have hgives := block_gives hframed bi hcode hs
  cases hresult : (emitBlock env bi b s).result with
  | error e => exact (Outcome.Gives.of_error hgives hresult).elim
  | ok p =>
    obtain ⟨_, s'⟩ := p
    refine ⟨s', rfl, fun hstuck => ?_⟩
    have hleads := code_leads hframed hfits b.label hcode hbetween hstuck
    exact block_leads hcode.isTerminated hleads () s' hresult

/-- The code of a block that squares five more than a variable and compares the square with it. -/
def squareBlock : Block :=
  ⟨".L0", [⟨.add, some ⟨0, .int⟩, [.var ⟨0, "x", .int, false⟩, .int 5 .int]⟩,
    ⟨.mul, some ⟨1, .int⟩, [.temp ⟨0, .int⟩, .temp ⟨0, .int⟩]⟩,
    ⟨.lt, some ⟨2, .bool⟩, [.temp ⟨1, .int⟩, .var ⟨0, "x", .int, false⟩]⟩,
    ⟨.cjump, none, [.temp ⟨2, .bool⟩, .label ".L0", .int 1 .int]⟩]⟩

def squareFunc : Func :=
  { name := "square", ret := .int, isPublic := false, external := false
    locals := [⟨0, "x", .int, false⟩], temps := [⟨0, .int⟩, ⟨1, .int⟩, ⟨2, .bool⟩]
    blocks := [squareBlock] }

def squareEnv : Env :=
  let types := Universe.make 64 true
  ⟨types, default, squareFunc, Frame.ofFunc types squareFunc Asm.SysV.stackAlign, []⟩

/-- The variable is zero. -/
def squareMachine : Asm.Machine := ⟨fun r => if r = .rbp then 4096 else 0, fun _ => 0, none⟩

theorem square_simulates : ∃ s', (emitBlock squareEnv 0 squareBlock (.start squareFunc)).result
      = .ok ((), s') ∧
    Simulates squareEnv 4096 0 (runCode squareEnv.types squareBlock.code ⟨fun _ => none, fun _ => 0⟩) s'
      (runLines (emitBlock squareEnv 0 squareBlock (.start squareFunc)).lines squareMachine) := by
  have hframed : squareEnv.Framed := rfl
  have hfits : squareEnv.Fits 4096 := by
    unfold Env.Fits
    decide
  have hvar : squareEnv.HasVar ⟨0, "x", .int, false⟩ := ⟨rfl, rfl⟩
  have hsum : squareEnv.HasTemp ⟨0, .int⟩ := ⟨rfl, rfl⟩
  have hsquare : squareEnv.HasTemp ⟨1, .int⟩ := ⟨rfl, rfl⟩
  have hless : squareEnv.HasTemp ⟨2, .bool⟩ := ⟨rfl, rfl⟩
  have hrep : Represents squareEnv 4096 (fun _ => True) ⟨fun _ => none, fun _ => 0⟩
      (.start squareFunc) squareMachine := by
    refine ⟨rfl, fun t a _ _ ha => absurd ha nofun, fun v hv => ?_⟩
    obtain rfl : v = ⟨0, "x", .int, false⟩ := List.mem_singleton.mp (List.mem_of_getElem? hv.1)
    exact ⟨rfl, by decide⟩
  have hcode : BlockCode squareEnv (fun i => (State.const? (.start squareFunc) i).isSome)
      squareBlock.code := by
    refine .cons (.arithmetic (by decide) hsum hvar ⟨rfl, by decide⟩ nofun nofun) ?_
    refine .cons (.arithmetic (by decide) hsquare hsum hsum (by decide) (by decide)) ?_
    refine .cons (.compare rfl hless rfl hsquare hvar (by decide) nofun (by decide)) ?_
    exact .last (.cjump (x := .temp ⟨2, .bool⟩) hless ".L0" 1 .int)
  obtain ⟨s', hok, hsimulates⟩ :=
    emitBlock_simulates (m := squareMachine) hframed hfits (ordered_start squareEnv) hrep 0 hcode
  exact ⟨s', hok, hsimulates nofun⟩

end TreeAsm.Emit
