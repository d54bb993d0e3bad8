import TreeAsm.Proofs.Asm.Tidy
import TreeAsm.Proofs.Asm.Writing
import TreeAsm.Proofs.Emit.Registers

/-!
# Two runs side by side

A function is emitted twice: the run that finds out which registers have to be saved and the run that
knows them differ in the distances of the slots only. `Tracks` says all that is needed of a step. From
one state the two runs come to one state, they write the same lines up to slots, those of the second
run are tidy and of an allowed kind, and a failure has one of the allowed causes.

What is allowed is a matter of the `Setting`. A run side by side with itself is the case in which no
slot is moved (`Setting.Still`), so what is said of two runs says as much of one. Where code is known
to be in order (`strict`), steps fail for the causes of the setting only; elsewhere they may fail for
anything but the pool of registers.
-/

namespace TreeAsm.Emit

open Asm (Line Mem Mnemonic Reg Register Text frameRegs widths)
open Ir

/-- The environment with registers saved. -/
abbrev Env.saving (env : Env) (saved : List Reg) : Env :=
  { env with frame := { env.frame with saved := saved } }

/-- The distance of a slot from the base pointer. -/
def Frame.Slot (fr : Frame) (disp : Int64) : Prop := ∃ x ∈ fr.locals ++ fr.temps, disp = x + fr.bias

/-- The saved registers move the slots, and not what other operands refer to. -/
def Env.shift (env : Env) (saved : List Reg) (K : Asm.Fixed) : Asm.Shift :=
  ⟨env.frame.Slot, K, env.frame.bias - (env.saving saved).frame.bias⟩

/-- On what terms two runs are compared: how operands differ and which slots may be written, how many
bytes calls may push, which lines are written and what failures are due to. If the code is known to be
in order the setting is strict. Some temporaries may have registers. -/
structure Setting where
  env : Env
  saved : List Reg
  shift : Asm.Shift
  slots : Int64 → Prop
  depth : Nat
  lines : Line → Prop
  causes : Option Cause → Prop
  strict : Prop
  owns : Temp → Prop

namespace Setting

variable (σ : Setting)

/-- The environment of the second run. -/
abbrev final : Env := σ.env.saving σ.saved

/-- Slots are where they were, so that the runs are the same. -/
def Still : Prop := σ.shift.down = 0

/-- Operands of the two runs that can be written down, and are no registers of the frame. -/
structure Kin (x y : Asm.Operand) : Prop where
  alike : x.Alike σ.shift y
  spare : y.Spare
  nameable : y.Nameable

/-- Operands of the two runs that may be written to. -/
structure Twins (x y : Asm.Operand) : Prop extends Kin σ x y where
  slot : ∀ m : Mem, y = .mem m → m.Framed → σ.slots m.disp

/-- Two runs of a step that writes lines. -/
structure Joint {α : Type} (x y : Text α) (R : α → α → Prop) : Prop where
  agree : σ.Still → x = y
  fails : σ.Still → Text.Gives σ.causes y fun _ => True
  pairs : Text.Paired σ.shift σ.slots σ.depth 0 0 x y R
  lines : ∀ a b, x.result = .ok a → y.result = .ok b → ∀ l ∈ y.lines, σ.lines l

end Setting

section

variable {σ : Setting} {x y : Asm.Operand}

theorem Setting.Kin.eq (h : σ.Kin x y) (hstill : σ.Still) : x = y := h.alike.eq hstill

theorem Setting.Twins.twins (h : σ.Twins x y) : x.Twins σ.shift σ.slots y :=
  ⟨h.alike, h.spare, h.slot⟩

variable {r : Register} {bits : Int64}

theorem Setting.twins_reg (hspare : r.reg ∉ frameRegs) (hr : r.Nameable) : σ.Twins (.reg r) (.reg r) := by
  refine ⟨⟨.reg r, fun r' hr' => ?_, hr⟩, fun _ hm => nomatch hm⟩
  obtain rfl := Asm.Operand.reg.inj hr'
  exact hspare

theorem Setting.Kin.sized (h : σ.Kin (.reg r) (.reg r)) (hbits : bits ∈ widths) :
    σ.Twins (.reg ⟨r.reg, bits⟩) (.reg ⟨r.reg, bits⟩) := by
  have hr : r.Nameable := h.nameable
  exact twins_reg (h.spare r rfl) ⟨hr.1, hbits⟩

theorem scratch_spare : ∀ r ∈ Asm.SysV.scratch, r ∉ frameRegs := by decide

theorem Setting.twins_scratch {r : Reg} (hr : r ∈ Asm.SysV.scratch) (hbits : bits ∈ widths) :
    σ.Twins (.reg ⟨r, bits⟩) (.reg ⟨r, bits⟩) :=
  twins_reg (scratch_spare r hr) ⟨Asm.SysV.scratch_whole r hr, hbits⟩

end

namespace Setting.Joint

variable {α β : Type} {σ : Setting} {x y : Text α} {R S : α → α → Prop}

theorem mono (h : σ.Joint x y R) (hRS : ∀ a b, R a b → S a b) : σ.Joint x y S :=
  ⟨h.agree, h.fails, h.pairs.mono hRS, h.lines⟩

theorem bind {f g : α → Text β} {T : β → β → Prop} (hx : σ.Joint x y R)
    (hf : ∀ a b, R a b → σ.Joint (f a) (g b) T) : σ.Joint (x >>= f) (y >>= g) T := by
  -- where the runs are the same, a result is related to itself
  have hself : σ.Still → ∀ b, y.result = .ok b → R b b := fun hstill b hb =>
    (hx.pairs b b (hx.agree hstill ▸ hb) hb).1
  refine ⟨fun hstill => ?_, fun hstill => ?_, hx.pairs.bind fun a b hR => (hf a b hR).pairs, ?_⟩
  · rw [hx.agree hstill]
    show y.andThen f = y.andThen g
    unfold Text.andThen
    cases hy : y.result with
    | error e => rfl
    | ok b => simp only [(hf b b (hself hstill b hy)).agree hstill]
  · exact Text.Gives.bind (Outcome.Gives.known (hx.fails hstill) (hself hstill)) fun b hb =>
      (hf b b hb).fails hstill
  · intro c d hc hd l hl
    obtain ⟨a, ha, hfa, -⟩ := Text.bind_ok hc
    obtain ⟨b, hb, hgb, hlines⟩ := Text.bind_ok hd
    rw [hlines] at hl
    rcases List.mem_append.mp hl with hl | hl
    · exact hx.lines a b ha hb l hl
    · exact (hf a b (hx.pairs a b ha hb).1).lines c d hfa hgb l hl

theorem within (h : σ.Joint x y R) (step : String) : σ.Joint (Text.within step x) (Text.within step y) R :=
  ⟨fun hstill => by rw [h.agree hstill], fun hstill => (h.fails hstill).within step,
    h.pairs.within step step, fun a b ha hb => h.lines a b (Text.within_ok ha) (Text.within_ok hb)⟩

/-- A step that writes the same in both runs whatever the slots, and nothing in fact. -/
theorem quiet {Q : α → Prop} (hlines : x.lines = []) (h : Text.Gives σ.causes x Q) :
    σ.Joint x x fun a b => a = b ∧ Q b := by
  refine ⟨fun _ => rfl, fun _ => h.mono fun _ _ => trivial, fun a b ha hb => ?_, fun _ _ _ _ l hl => ?_⟩
  · obtain rfl : a = b := Except.ok.inj (ha.symm.trans hb)
    rw [hlines]
    exact ⟨⟨rfl, Outcome.Gives.of_ok h ha⟩, .nil, .nil⟩
  · rw [hlines] at hl
    cases hl

theorem pure {a b : α} (h : R a b) (hab : σ.Still → a = b) : σ.Joint (pure a : Text α) (pure b) R :=
  ⟨fun hstill => by rw [hab hstill], fun _ => trivial, .pure h,
    fun _ _ _ _ _ hl => absurd hl List.not_mem_nil⟩

theorem ins {op : Mnemonic} {xs ys : List Asm.Operand}
    (halike : List.Forall₂ (Asm.Operand.Alike σ.shift) xs ys) (hnames : ∀ z ∈ ys, z.Nameable)
    (htidy : Asm.Tidy σ.slots σ.depth 0 [.ins op ys] 0) (hline : σ.lines (.ins op ys)) :
    σ.Joint (Text.ins op xs) (Text.ins op ys) fun _ _ => True := by
  refine ⟨fun hstill => by rw [Asm.eq_of_alike halike hstill], fun _ => Text.ins_gives op hnames,
    .ins halike htidy, fun _ _ _ hb l hl => ?_⟩
  rw [Text.ins_lines hb] at hl
  exact List.mem_singleton.mp hl ▸ hline

end Setting.Joint

/-- From a state with `I`, two runs of a step come to one state, where `J` holds, and to results that
are related by `R`. -/
def Tracks {α : Type} (σ : Setting) (I : State → Prop) (x y : Emitter α) (J : α → State → Prop)
    (R : α → α → Prop) : Prop :=
  ∀ s, I s → σ.Joint (x s) (y s) fun p q => p.2 = q.2 ∧ J q.1 q.2 ∧ R p.1 q.1

/-- Two runs of a step without a result that keep what holds. -/
abbrev Steady (σ : Setting) (I : State → Prop) (x y : Emitter Unit) : Prop :=
  Tracks σ I x y (fun _ => I) fun _ _ => True

namespace Tracks

variable {α β : Type} {σ : Setting} {I : State → Prop} {x y : Emitter α} {J : α → State → Prop}
  {R : α → α → Prop}

theorem pure {a b : α} (h : R a b) (hab : σ.Still → a = b) (hJ : ∀ s, I s → J b s) :
    Tracks σ I (pure a : Emitter α) (pure b) J R :=
  fun s hs => Setting.Joint.pure (a := (a, s)) (b := (b, s)) ⟨rfl, hJ s hs, h⟩
    fun hstill => by rw [hab hstill]

/-- Nothing is done, with nothing as the result. -/
theorem done : Steady σ I (Pure.pure () : Emitter Unit) (Pure.pure ()) :=
  pure trivial (fun _ => rfl) fun _ hs => hs

variable {K : β → State → Prop} {T : β → β → Prop} {Q : α → Prop} {f g : α → Emitter β}

theorem bind (hx : Tracks σ I x y J R) (hf : ∀ a b, R a b → Tracks σ (J b) (f a) (g b) K T) :
    Tracks σ I (x >>= f) (y >>= g) K T := by
  intro s hs
  refine (hx s hs).bind ?_
  rintro ⟨a, s1⟩ ⟨b, s2⟩ ⟨hstate, hJ, hR⟩
  obtain rfl : s1 = s2 := hstate
  exact hf a b hR s1 hJ

/-- A step whose results are the same in both runs. -/
theorem bindSame (hx : Tracks σ I x y J fun a b => a = b ∧ Q b)
    (hf : ∀ a, Q a → Tracks σ (J a) (f a) (g a) K T) : Tracks σ I (x >>= f) (y >>= g) K T := by
  refine hx.bind ?_
  rintro a _ ⟨rfl, hQ⟩
  exact hf a hQ

theorem next {x y : Emitter Unit} {J : State → Prop} {f g : Emitter β}
    (hx : Tracks σ I x y (fun _ => J) fun _ _ => True) (hf : Tracks σ J f g K T) :
    Tracks σ I (x >>= fun _ => f) (y >>= fun _ => g) K T :=
  hx.bind fun _ _ _ => hf

theorem mono {K : α → State → Prop} {S : α → α → Prop} (h : Tracks σ I x y J R)
    (hJ : ∀ b s, J b s → K b s) (hR : ∀ a b, R a b → S a b) : Tracks σ I x y K S :=
  fun s hs => (h s hs).mono fun p q hpq => ⟨hpq.1, hJ q.1 q.2 hpq.2.1, hR p.1 q.1 hpq.2.2⟩

theorem weaken {I' : State → Prop} (h : Tracks σ I x y J R) (hI : ∀ s, I' s → I s) : Tracks σ I' x y J R :=
  fun s hs => h s (hI s hs)

theorem within (h : Tracks σ I x y J R) (step : String) :
    Tracks σ I (Emitter.within step x) (Emitter.within step y) J R :=
  fun s hs => (h s hs).within step

theorem ite {c : Prop} [Decidable c] {x' y' : Emitter α} (hx : Tracks σ I x y J R)
    (hy : Tracks σ I x' y' J R) : Tracks σ I (if c then x else x') (if c then y else y') J R := by
  by_cases h : c
  · rw [if_pos h, if_pos h]
    exact hx
  · rw [if_neg h, if_neg h]
    exact hy

theorem onlyIf {c : Bool} {x y : Emitter Unit} (h : c → Steady σ I x y) :
    Steady σ I (Emitter.onlyIf c x) (Emitter.onlyIf c y) := by
  cases c with
  | true => exact h rfl
  | false => exact done

theorem write {x y : Text α} (h : σ.Joint x y R) :
    Tracks σ I (Emitter.write x) (Emitter.write y) (fun _ => I) R := by
  intro s hs
  refine ⟨fun hstill => by rw [h.agree hstill], fun hstill => ?_, fun p q hp hq => ?_,
    fun p q hp hq => h.lines _ _ (Emitter.write_ok hp).1 (Emitter.write_ok hq).1⟩
  · exact Gives.write (Q := fun _ _ => True) (h.fails hstill)
  · obtain ⟨hx, hp⟩ := Emitter.write_ok hp
    obtain ⟨hy, hq⟩ := Emitter.write_ok hq
    obtain ⟨hR, hlines⟩ := h.pairs _ _ hx hy
    exact ⟨⟨hp.trans hq.symm, hq ▸ hs, hR⟩, hlines⟩

/-- A step that only changes the state. -/
theorem quiet (hquiet : Quiet x) (h : ∀ s, I s → Gives σ.causes x s fun b s' => J b s' ∧ Q b) :
    Tracks σ I x x J fun a b => a = b ∧ Q b := by
  intro s hs
  refine (Setting.Joint.quiet (hquiet s) (h s hs)).mono ?_
  rintro p _ ⟨rfl, hJ, hQ⟩
  exact ⟨rfl, hJ, rfl, hQ⟩

theorem modify {J : State → Prop} {f : State → State} (h : ∀ s, I s → J (f s)) :
    Tracks σ I (modify f : Emitter PUnit) (modify f) (fun _ => J) fun _ _ => True :=
  (quiet (Q := fun _ => True) (.modify f) fun s hs => Gives.modify ⟨h s hs, trivial⟩).mono
    (fun _ _ h => h) fun _ _ _ => trivial

theorem get : Tracks σ I (get : Emitter State) get (fun t s => I s ∧ t = s) fun a b => a = b ∧ I b :=
  quiet .get fun _ hs => Gives.get ⟨⟨hs, rfl⟩, hs⟩

/-- A check or lookup that does not depend on the frame. -/
theorem same {x : Outcome α} (h : x.Gives σ.causes Q) :
    Tracks σ I (Emitter.lift x) (Emitter.lift x) (fun _ => I) fun a b => a = b ∧ Q b :=
  quiet (.lift x) fun _ hs => Gives.lift (h.mono (fun _ hc => hc) fun _ hQ => ⟨hs, hQ⟩)

theorem fail {c : Cause} (h : σ.causes (some c)) :
    Tracks σ I (Emitter.fail c : Emitter α) (Emitter.fail c) J R := by
  have hnever : ∀ s, Gives σ.causes (Emitter.fail c : Emitter α) s fun b s' => J b s' ∧ False :=
    fun _ => Gives.lift (x := .fail c) h
  exact (quiet (.lift _) fun s _ => hnever s).mono (fun _ _ h => h) fun _ _ h => h.2.elim

/-- Where the runs are the same, a step does not fail but for the causes of the setting. -/
theorem gives (h : Tracks σ I x y J R) (hstill : σ.Still) {s : State} (hs : I s) :
    Gives σ.causes y s fun b s' => J b s' ∧ R b b := by
  have hjoint := h s hs
  exact Outcome.Gives.known (hjoint.fails hstill) fun p hy =>
    (hjoint.pairs p p (hjoint.agree hstill ▸ hy) hy).1.2

theorem lines_of_ok (h : Tracks σ I x y J R) (hstill : σ.Still) {s : State} (hs : I s)
    {p : α × State} (hy : (y s).result = .ok p) : ∀ l ∈ (y s).lines, σ.lines l :=
  (h s hs).lines p p ((h s hs).agree hstill ▸ hy) hy

end Tracks

/-! ## Settings that are ready -/

/-- What the steps need of a setting: slots that may be written in both runs, known symbols, and
causes for everything that can fail. -/
structure Setting.Ready (σ : Setting) : Prop where
  temps : ∀ t : Temp, t.id < σ.env.func.temps.length →
    σ.Twins (.mem (tempSlot σ.env t)) (.mem (tempSlot σ.final t))
  locals : ∀ v, σ.env.frame.localSlot? v = none ∧ σ.final.frame.localSlot? v = none ∨
    ∃ disp disp', σ.env.frame.localSlot? v = some disp ∧ σ.final.frame.localSlot? v = some disp' ∧
      ∀ bits, σ.Twins (.mem (slot disp bits)) (.mem (slot disp' bits))
  strings : ∀ c ∈ σ.env.module.strings, σ.shift.fixed.symbols c.label
  funcs : ∀ f ∈ σ.env.module.funcs, σ.shift.fixed.symbols f.name
  globals : ∀ g ∈ σ.env.module.globals, σ.shift.fixed.symbols g.name
  ends : σ.shift.fixed.symbols endLabel
  spares : ¬ σ.strict → ∀ c, Spares c → σ.causes c
  stores : σ.strict → ∀ {bi : Nat} {t t' : Temp}, σ.env.func.temps[t'.id]? = some t → σ.owns t' →
    isLiveOut σ.env bi t'.id = true → σ.env.types.bits t.type ∈ widths

section

variable {σ : Setting} (hσ : σ.Ready) {I : State → Prop} {n : Nat}

include hσ

/-- What cannot happen to code in order may fail for anything but the pool of registers. -/
theorem Setting.Ready.excuse {c : Option Cause} (h : σ.strict → False) (hc : Spares c) : σ.causes c :=
  hσ.spares h c hc

/-- A check that may fail for its own causes in code that is in order. -/
theorem Setting.Ready.gives {α : Type} {x : Outcome α} {Q : α → Prop}
    (hspares : x.Gives Spares fun _ => True) (h : σ.strict → x.Gives σ.causes Q) :
    x.Gives σ.causes fun a => σ.strict → Q a := by
  by_cases hstrict : σ.strict
  · exact (h hstrict).mono (fun _ hc => hc) fun _ ha _ => ha
  · exact hspares.mono (hσ.spares hstrict) fun _ _ hs => absurd hs hstrict

/-- A lookup that succeeds in code that is in order. -/
theorem Setting.Ready.known {α : Type} {x : Outcome α} {Q : α → Prop} (h : x.Gives Spares Q)
    (hok : σ.strict → ∃ a, x = .ok a) : x.Gives σ.causes Q := by
  by_cases hstrict : σ.strict
  · obtain ⟨a, ha⟩ := hok hstrict
    exact Outcome.gives_of_ok ha (h.of_ok ha)
  · exact h.mono (hσ.spares hstrict) fun _ hQ => hQ

/-! ## Registers -/

omit hσ in
theorem constAt_tracks (id : Nat) :
    Tracks σ I (constAt id) (constAt id) (fun _ => I) fun a b => a = b ∧ True :=
  .quiet (constAt_quiet id) fun _ hs => ⟨hs, trivial⟩

/-- A temporary of the function has its place in the table of registers. -/
theorem boundAt_tracks {id : Nat} (hid : σ.strict → id < σ.env.func.temps.length)
    (hI : ∀ s, I s → ∃ taken, Owned σ.env σ.owns taken s) :
    Tracks σ I (boundAt id) (boundAt id) (fun r s => I s ∧ s.bound[id]? = some r) fun a b =>
      a = b ∧ id < σ.env.func.temps.length ∧ ∀ r, b = some r → r ∈ Asm.SysV.scratch := by
  refine .quiet (boundAt_quiet id) fun s hs => ?_
  obtain ⟨taken, howned⟩ := hI s hs
  refine boundAt_gives (fun r hr => ⟨⟨hs, hr⟩, ?_, ?_⟩) fun hnone =>
    hσ.excuse (fun hstrict => ?_) trivial
  · rw [← howned.length]
    exact (List.getElem?_eq_some_iff.mp hr).1
  · rintro r rfl
    exact howned.mem_scratch_of_bound hr
  · have hlen := List.getElem?_eq_none_iff.mp hnone
    have hlt := hid hstrict
    rw [howned.length] at hlen
    omega

end

/-- Within an instruction: what is taken on top of the registers of temporaries is the list of scratch
registers, and there are at most `n` of them. -/
def Setting.Working (σ : Setting) (n : Nat) (s : State) : Prop :=
  Owned σ.env σ.owns s.scratches s ∧ s.scratches.length ≤ n

/-- Some registers are taken, and the scratch registers are the given ones. -/
def Setting.Kept (σ : Setting) (taken scratches : List Reg) (s : State) : Prop :=
  Owned σ.env σ.owns taken s ∧ s.scratches = scratches

/-- Two runs of a step lead from at most `n` scratch registers to a number that may depend on the
result. -/
abbrev Uses {α : Type} (σ : Setting) (n : Nat) (x y : Emitter α) (k : α → Nat)
    (R : α → α → Prop) : Prop :=
  Tracks σ (σ.Working n) x y (fun b => σ.Working (k b)) R

/-- A step in the two runs leads from at most `n` scratch registers to at most `k`. -/
abbrev Setting.Spends (σ : Setting) (n k : Nat) (step : Env → Emitter Unit) : Prop :=
  Uses σ n (step σ.env) (step σ.final) (fun _ => k) fun _ _ => True

theorem Tracks.widen {α : Type} {σ : Setting} {I : State → Prop} {x y : Emitter α} {k m : α → Nat}
    {R : α → α → Prop} (h : Tracks σ I x y (fun b => σ.Working (k b)) R) (hkm : ∀ b, k b ≤ m b) :
    Tracks σ I x y (fun b => σ.Working (m b)) R :=
  h.mono (fun b _ hs => ⟨hs.1, Nat.le_trans hs.2 (hkm b)⟩) fun _ _ hR => hR

/-- Two runs of a step that keep the registers of everything but the temporaries they take them away
from. -/
def Keeps (σ : Setting) (x y : Emitter Unit) : Prop :=
  ∀ taken scratches, Steady σ (σ.Kept taken scratches) x y

section

variable {σ : Setting} {n : Nat} {x y : Emitter Unit}

theorem Keeps.uses (h : Keeps σ x y) : Steady σ (σ.Working n) x y := by
  refine fun s hs => (h s.scratches s.scratches s ⟨hs.1, rfl⟩).mono ?_
  rintro p q ⟨hstate, ⟨howned, hscratches⟩, -⟩
  rw [← hscratches] at howned
  exact ⟨hstate, ⟨howned, hscratches ▸ hs.2⟩, trivial⟩

/-- Between two instructions no register is taken but those of temporaries. -/
theorem Keeps.between (h : Keeps σ x y) : Steady σ (Owned σ.env σ.owns []) x y :=
  fun s hs => (h [] s.scratches s ⟨hs, rfl⟩).mono fun _ _ h => ⟨h.1, h.2.1.1, trivial⟩

theorem Keeps.next {f g : Emitter Unit} (hx : Keeps σ x y) (hf : Keeps σ f g) :
    Keeps σ (x >>= fun _ => f) (y >>= fun _ => g) :=
  fun taken scratches => (hx taken scratches).next (hf taken scratches)

theorem forget_uses (id : Nat) :
    Steady σ (σ.Working n) (modify fun s => s.forget id) (modify fun s => s.forget id) :=
  .modify fun _ hs => ⟨hs.1.congr rfl rfl, hs.2⟩

theorem remember_uses (id : Nat) (c : Const) :
    Steady σ (σ.Working n) (modify fun s => s.remember id c) (modify fun s => s.remember id c) :=
  .modify fun _ hs => ⟨hs.1.congr rfl rfl, hs.2⟩

variable {taken scratches : List Reg}

theorem release_tracks (r : Reg) : Tracks σ (σ.Kept (r :: taken) scratches) (release r) (release r)
      (fun _ => σ.Kept taken scratches) fun _ _ => True := by
  refine (Tracks.quiet (Q := fun _ => True) (release_quiet r) fun s hs => ?_).mono
    (fun _ _ h => h) fun _ _ _ => trivial
  obtain ⟨p, hp, howned⟩ := hs.1.release
  unfold Gives
  rw [hp]
  exact ⟨⟨howned, hs.2⟩, trivial⟩

theorem unbind_tracks (id : Nat) (r : Reg) :
    Tracks σ (fun s => σ.Kept taken scratches s ∧ s.bound[id]? = some (some r)) (unbind id r)
      (unbind id r) (fun _ => σ.Kept taken scratches) fun _ _ => True :=
  (Tracks.modify fun _ hs => ⟨hs.1.1.unbind hs.2, hs.1.2⟩).next (release_tracks r)

theorem unbindAny_keeps (hσ : σ.Ready) {id : Nat}
    (hid : σ.strict → id < σ.env.func.temps.length) : Keeps σ (unbindAny id) (unbindAny id) := by
  refine fun taken scratches => (boundAt_tracks hσ hid fun s hs => ⟨_, hs.1⟩).bindSame fun o _ => ?_
  cases o with
  | some r => exact unbind_tracks id r
  | none => exact Tracks.done.weaken fun _ hs => hs.1

/-- A spare register is taken for a temporary without one, which may then own it. -/
theorem takeSpare_tracks {t : Temp} (ht : σ.owns t) :
    Tracks σ (fun s => σ.Working n s ∧ s.bound[t.id]? = some none) takeSpare takeSpare
      (fun o s => match o with
        | none => σ.Working n s
        | some r => σ.Working n (s.bind t.id (some r)))
      fun a b => a = b ∧ ∀ r, b = some r → r ∈ Asm.SysV.scratch := by
  refine .quiet takeSpare_quiet fun s hs => ?_
  obtain ⟨hs, hid⟩ := hs
  refine Gives.bind (Gives.get (Q := fun t s' => s = t ∧ s = s') ⟨rfl, rfl⟩) ?_
  rintro _ _ ⟨rfl, rfl⟩
  cases hp : s.pool.takeSpare with
  | none => exact Gives.pure ⟨hs, nofun⟩
  | some rp =>
    obtain ⟨r, p⟩ := rp
    obtain ⟨htake, hroom⟩ := takeSpare_eq hp
    have howned := hs.1.take htake
    have hr : r ∈ Asm.SysV.scratch :=
      howned.mem_scratch (howned.holds.owned.subset (by simp))
    exact ⟨⟨howned.bind hid hroom ht, hs.2⟩, fun _ h => Option.some.inj h ▸ hr⟩

/-- The headroom is what scratch registers are taken from. -/
theorem scratch_uses {bits : Int64} (hbits : bits ∈ widths) (hn : n < Pool.headroom) :
    Uses σ n (scratch bits) (scratch bits) (fun _ => n + 1) fun a b =>
      a = b ∧ σ.Twins (.reg b) (.reg b) ∧ b.bits = bits := by
  refine .quiet (scratch_quiet bits) fun s hs => ?_
  refine Gives.bind (Gives.get (Q := fun t s' => s = t ∧ s = s') ⟨rfl, rfl⟩) ?_
  rintro _ _ ⟨rfl, rfl⟩
  cases hp : s.pool.take with
  | none =>
    -- fewer than `headroom` are taken, so that one of the headroom is left
    have hfree : s.pool.free = [] := by
      unfold Pool.take at hp
      cases hf : s.pool.free with
      | nil => rfl
      | cons r free =>
        rw [hf] at hp
        cases hp
    have hspare := hs.1.holds.spare
    have hfew := hs.2
    rw [hfree, List.length_nil] at hspare
    omega
  | some rp =>
    obtain ⟨r, p⟩ := rp
    have howned := hs.1.take hp
    have hr : r ∈ Asm.SysV.scratch :=
      howned.mem_scratch (howned.holds.owned.subset (by simp))
    exact ⟨⟨howned.congr rfl rfl, Nat.succ_le_succ hs.2⟩, Setting.twins_scratch hr hbits, rfl⟩

end

/-! ## Lines -/

section

variable {σ : Setting} {I : State → Prop} {x y d d' : Asm.Operand}

variable {xs ys : List Asm.Operand} {op : Mnemonic}

theorem Setting.forall_nameable (h : List.Forall₂ σ.Kin xs ys) : ∀ z ∈ ys, z.Nameable := by
  induction h with
  | nil => exact fun _ hz => nomatch hz
  | cons hxy _ ih =>
    intro z hz
    rcases List.mem_cons.mp hz with rfl | hz
    · exact hxy.nameable
    · exact ih z hz

/-- An instruction that only writes to what may be written. -/
theorem Tracks.plain (h : List.Forall₂ σ.Kin xs ys) (hplain : Asm.Plain σ.slots op ys)
    (hline : σ.lines (.ins op ys)) : Steady σ I (Emitter.ins op xs) (Emitter.ins op ys) :=
  .write (.ins (h.imp fun _ _ hxy => hxy.alike) (Setting.forall_nameable h) (.plain hplain .nil) hline)

theorem Tracks.writer (hop : op ∈ Asm.writers) (hd : σ.Twins d d') (h : σ.Kin x y)
    (hline : σ.lines (.ins op [d', y])) :
    Steady σ I (Emitter.ins op [d, x]) (Emitter.ins op [d', y]) :=
  .plain (.cons hd.toKin (.cons h .nil)) (Asm.plain_writer hop hd.twins.isOpen) hline

theorem through_none : Text.ThroughSpare none := fun _ h => nomatch h

theorem through_rax : Text.ThroughSpare (some .rax) := fun _ h => Option.some.inj h ▸ by decide

/-- A place for values: in code that is in order, one that they fit. -/
structure Setting.Landing (σ : Setting) (d d' : Asm.Operand) : Prop extends Twins σ d d' where
  target : σ.strict → d'.Target

section

variable (hP : ∀ op args, op.isMove = true → σ.lines (.ins op args))

include hP

theorem Tracks.moveToReg {d : Register} (signed : Bool) (hd : σ.Twins (.reg d) (.reg d))
    (h : σ.Kin x y) (via : Option Reg) :
    Steady σ I (Emitter.move (.reg d) x signed via) (Emitter.move (.reg d) y signed via) :=
  .write ⟨fun hstill => by rw [h.eq hstill], fun _ => Text.moveToReg_gives signed hd.nameable h.nameable,
    Text.moveToReg_paired signed (hd.spare d rfl) h.alike,
    fun _ _ _ _ => (Sparing.moveToReg hP d y signed).holds⟩

end

section

variable (hσ : σ.Ready)

include hσ

theorem Tracks.ofSparing (signed : Bool) {via : Option Reg} (hd : σ.Landing d d') (h : σ.Kin x y)
    (hvia : Text.ThroughSpare via) (hsparing : Sparing σ.lines (Text.move d' y signed via))
    (hgives : σ.strict → Text.Gives σ.causes (Text.move d' y signed via) fun _ => True) :
    Steady σ I (Emitter.move d x signed via) (Emitter.move d' y signed via) :=
  .write ⟨fun hstill => by rw [hd.toKin.eq hstill, h.eq hstill],
    fun _ => (hσ.gives hsparing.spares hgives).mono (fun _ hc => hc) fun _ _ => trivial,
    Text.move_paired signed hd.twins h.alike h.spare hvia, fun _ _ _ _ => hsparing.holds⟩

variable {r : Register}

/-- A register is stored with copies only. -/
theorem Tracks.store (hP : ∀ op args, op.isCopy → σ.lines (.ins op args)) {m m' : Mem}
    (signed : Bool) (hd : σ.Landing (.mem m) (.mem m')) (hr : σ.Kin (.reg r) (.reg r)) :
    Steady σ I (Emitter.move (.mem m) (.reg r) signed none) (Emitter.move (.mem m') (.reg r) signed none) :=
  .ofSparing hσ signed hd hr through_none (.moveRegToMem hP m' r signed) fun hstrict =>
    Text.moveReg_gives signed none (hd.target hstrict) hr.nameable

variable (hP : ∀ op args, op.isMove = true → σ.lines (.ins op args))

include hP

/-- A register goes anywhere. -/
theorem Tracks.moveReg (signed : Bool) (hd : σ.Landing d d') (hr : σ.Kin (.reg r) (.reg r)) :
    Steady σ I (Emitter.move d (.reg r) signed none) (Emitter.move d' (.reg r) signed none) :=
  .ofSparing hσ signed hd hr through_none (.move hP ..) fun hstrict =>
    Text.moveReg_gives signed none (hd.target hstrict) hr.nameable

/-- Anything goes anywhere through `rax`. -/
theorem Tracks.moveVia (signed : Bool) (hd : σ.Landing d d') (h : σ.Kin x y) :
    Steady σ I (Emitter.move d x signed (some .rax)) (Emitter.move d' y signed (some .rax)) :=
  .ofSparing hσ signed hd h through_rax (.move hP ..) fun hstrict =>
    Text.moveVia_gives signed (hd.target hstrict) h.nameable Reg.rax_whole

end

end

end TreeAsm.Emit
