import TreeAsm.Proofs.Asm.Arith
import TreeAsm.Proofs.Emit.Layout

/-!
# What emitted lines do

`Runs F x s m Q` says what the lines do that a step of emission writes: if the step `x` comes from
state `s` to a result and a state, then on a machine in state `m` its lines run on to the line after
them, with `Q`, or they fault, which is possible under `F` only. Steps that follow each other run one
after the other (`Runs.bind`).
-/

namespace TreeAsm

/-- A run leads on to a state with a property, or it faults where that is possible. -/
def Asm.Exit.Meets (F : Prop) (Q : Asm.Machine → Prop) : Asm.Exit → Prop
  | .next m => Q m
  | .fault => F
  | _ => False

theorem Asm.Exit.Meets.mono {F : Prop} {Q Q' : Asm.Machine → Prop} {e : Asm.Exit}
    (h : e.Meets F Q) (hQ : ∀ m, Q m → Q' m) : e.Meets F Q' := by
  cases e with
  | next m => exact hQ m h
  | fault => exact h
  | goto l m | stuck => exact h.elim

namespace Emit

open Asm (Mnemonic Reg Text runLines runLines_append runLines_append_of_ne)

variable {α β : Type} {F : Prop} {s : State} {m : Asm.Machine} {Q Q' : α → State → Asm.Machine → Prop}

/-- The lines of a step that succeeds run on to a state with `Q`, or they fault under `F`. -/
def Runs (F : Prop) (x : Emitter α) (s : State) (m : Asm.Machine) (Q : α → State → Asm.Machine → Prop) :
    Prop :=
  ∀ a s', (x s).result = .ok (a, s') → (runLines (x s).lines m).Meets F (Q a s')

/-- What follows a step that writes nothing. -/
theorem bind_quiet {x : Emitter α} {f : α → Emitter β} {a : α} {s1 : State}
    (hx : x s = ⟨[], .ok (a, s1)⟩) : (x >>= f) s = f a s1 := by
  show (x s >>= fun p => f p.1 p.2) = _
  rw [hx]
  rfl

/-- An instruction that is emitted is a line. -/
theorem Emitter.ins_lines {op : Mnemonic} {args : List Asm.Operand} {p : Unit × State}
    (h : (Emitter.ins op args s).result = .ok p) : (Emitter.ins op args s).lines = [.ins op args] :=
  Text.ins_lines (Emitter.write_ok h).1

namespace Runs

theorem pure {a : α} (h : Q a s m) : Runs F (pure a : Emitter α) s m Q := by
  intro b s' hb
  cases hb
  exact h

variable {x : Emitter α}

theorem mono (h : Runs F x s m Q) (hQ : ∀ a s' m', Q a s' m' → Q' a s' m') : Runs F x s m Q' :=
  fun a s' ha => (h a s' ha).mono (hQ a s')

/-- More faults may be possible. -/
theorem fault {F' : Prop} (h : Runs F x s m Q) (hF : F → F') : Runs F' x s m Q := by
  intro a s' ha
  have hmeets := h a s' ha
  cases hrun : runLines (x s).lines m with
  | next m' =>
    rw [hrun] at hmeets
    exact hmeets
  | fault =>
    rw [hrun] at hmeets
    exact hF hmeets
  | goto l m' | stuck =>
    rw [hrun] at hmeets
    exact hmeets.elim

theorem bind {f : α → Emitter β} {R : β → State → Asm.Machine → Prop} (h : Runs F x s m Q)
    (hf : ∀ a s' m', Q a s' m' → Runs F (f a) s' m' R) : Runs F (x >>= f) s m R := by
  intro b s2 hb
  obtain ⟨a, s1, ha, hrest, hlines⟩ := Emitter.bind_ok hb
  have hmeets := h a s1 ha
  rw [hlines]
  cases hrun : runLines (x s).lines m with
  | next m1 =>
    rw [hrun] at hmeets
    rw [runLines_append hrun]
    exact hf a s1 m1 hmeets b s2 hrest
  | fault =>
    rw [hrun] at hmeets
    rw [runLines_append_of_ne (by simp [hrun]), hrun]
    exact hmeets
  | goto l m' | stuck =>
    rw [hrun] at hmeets
    exact hmeets.elim

theorem within (h : Runs F x s m Q) (step : String) : Runs F (Emitter.within step x) s m Q :=
  fun a s' ha => h a s' (Text.within_ok ha)

theorem ite {c : Prop} [Decidable c] {y : Emitter α} (hx : c → Runs F x s m Q)
    (hy : ¬ c → Runs F y s m Q) : Runs F (if c then x else y) s m Q := by
  by_cases h : c
  · rw [if_pos h]
    exact hx h
  · rw [if_neg h]
    exact hy h

theorem modify {f : State → State} {Q : PUnit → State → Asm.Machine → Prop} (h : Q ⟨⟩ (f s) m) :
    Runs F (modify f : Emitter PUnit) s m Q := by
  intro a s' ha
  cases ha
  exact h

/-- A text runs as its lines do. -/
theorem write {x : Text α} (h : ∀ a, x.result = .ok a → (runLines x.lines m).Meets F (Q a s)) :
    Runs F (Emitter.write x) s m Q := by
  intro a s' ha
  change (x.result.map fun a => (a, s)) = .ok (a, s') at ha
  cases hx : x.result with
  | error e =>
    rw [hx] at ha
    cases ha
  | ok b =>
    rw [hx] at ha
    cases ha
    exact h _ hx

/-- Something that writes nothing and gives a result. -/
theorem lift {x : Outcome α} (h : ∀ a, x = .ok a → Q a s m) : Runs F (Emitter.lift x) s m Q :=
  write h

/-- An instruction runs as the machine runs it. -/
theorem ins {op : Mnemonic} {args : List Asm.Operand} {Q : Unit → State → Asm.Machine → Prop}
    (h : (runLines [.ins op args] m).Meets F (Q () s)) : Runs F (Emitter.ins op args) s m Q := by
  refine write fun _ ha => ?_
  rw [Text.ins_lines ha]
  exact h

end Runs

end Emit

end TreeAsm
