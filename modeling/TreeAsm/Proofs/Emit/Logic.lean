import TreeAsm.Emit.Module

/-!
# What steps of emission come to

A step of emission ends with a result and a state, or it fails. `Gives E x s Q` says that from state
`s` the step `x` comes to a result and a state with `Q`, and that any cause it fails for satisfies
`E`; a crash has no cause. The steps around a failure do not change its cause, so the rules below
follow the way steps are put together and nothing else.
-/

namespace TreeAsm

/-- What a failure is due to; a crash is due to nothing that could be named. -/
def Failure.cause? : Failure → Option Cause
  | crash => none
  | report _ cause => some cause

@[simp] theorem Failure.cause?_within (step : String) (e : Failure) :
    (e.within step).cause? = e.cause? := by
  cases e <;> rfl

namespace Outcome

variable {α β : Type} {E E' : Option Cause → Prop} {Q Q' : α → Prop}

/-- A result has a property, and a failure a cause with a property. -/
def Gives (E : Option Cause → Prop) (x : Outcome α) (Q : α → Prop) : Prop :=
  match x with
  | .ok a => Q a
  | .error e => E e.cause?

variable {x : Outcome α} {f : β → Outcome α}

theorem Gives.mono (h : x.Gives E Q) (hE : ∀ c, E c → E' c) (hQ : ∀ a, Q a → Q' a) : x.Gives E' Q' := by
  cases x with
  | ok a => exact hQ a h
  | error e => exact hE _ h

theorem Gives.and (h : x.Gives E Q) (h' : x.Gives E' Q') :
    x.Gives (fun c => E c ∧ E' c) (fun a => Q a ∧ Q' a) := by
  cases x with
  | ok a => exact ⟨h, h'⟩
  | error e => exact ⟨h, h'⟩

theorem Gives.bind {f : α → Outcome β} {R : β → Prop} (h : x.Gives E Q)
    (hf : ∀ a, Q a → (f a).Gives E R) : (x >>= f).Gives E R := by
  cases x with
  | ok a => exact hf a h
  | error e => exact h

theorem Gives.within (h : x.Gives E Q) (step : String) : (x.within step).Gives E Q := by
  cases x with
  | ok a => exact h
  | error e =>
    show E (e.within step).cause?
    rw [Failure.cause?_within]
    exact h

theorem Gives.mapM_mem {xs : List β} (hf : ∀ b ∈ xs, (f b).Gives E fun _ => True) :
    (xs.mapM f).Gives E fun _ => True := by
  induction xs with
  | nil => exact trivial
  | cons b xs ih =>
    rw [List.mapM_cons]
    have hrest := ih fun c hc => hf c (List.mem_cons_of_mem _ hc)
    exact (hf b (List.mem_cons_self ..)).bind fun _ _ => hrest.bind fun _ _ => trivial

theorem Gives.mapM (hf : ∀ b, (f b).Gives E fun _ => True) (xs : List β) :
    (xs.mapM f).Gives E fun _ => True :=
  Gives.mapM_mem fun b _ => hf b

/-- What a result has is known if it is there. -/
theorem Gives.known (h : x.Gives E fun _ => True) (hQ : ∀ a, x = .ok a → Q a) : x.Gives E Q := by
  cases x with
  | ok a => exact hQ a rfl
  | error e => exact h

theorem gives_of_ok {a : α} (h : x = .ok a) (hQ : Q a) : x.Gives E Q := by
  rw [h]
  exact hQ

theorem Gives.of_ok {a : α} (h : x.Gives E Q) (hx : x = .ok a) : Q a := by
  rw [hx] at h
  exact h

theorem Gives.of_error {e : Failure} (h : x.Gives E Q) (hx : x = .error e) : E e.cause? := by
  rw [hx] at h
  exact h

end Outcome

namespace Asm.Text

variable {α β : Type} {E : Option Cause → Prop} {Q : α → Prop}

theorem bind_result (x : Text α) (f : α → Text β) :
    (x >>= f).result = x.result >>= fun a => (f a).result := by
  show (x.andThen f).result = _
  unfold andThen
  cases x.result <;> rfl

variable {x : Text α} {a : α} {f : α → Text β}

theorem eq_of_ok (h : x.result = .ok a) : x = ⟨x.lines, .ok a⟩ := by
  cases x
  cases h
  rfl

theorem bind_assoc {γ : Type} (x : Text α) (f : α → Text β) (g : β → Text γ) :
    (x >>= f >>= g) = x >>= fun a => f a >>= g := by
  show (x.andThen f).andThen g = x.andThen fun a => (f a).andThen g
  unfold andThen
  cases x.result with
  | error e => rfl
  | ok a => cases hf : (f a).result <;> simp [hf]

/-- A step after another that succeeds with it. -/
theorem bind_ok {b : β} (h : (x >>= f).result = .ok b) :
    ∃ a, x.result = .ok a ∧ (f a).result = .ok b ∧ (x >>= f).lines = x.lines ++ (f a).lines := by
  rw [bind_result] at h
  cases hx : x.result with
  | error e =>
    rw [hx] at h
    cases h
  | ok a =>
    rw [hx] at h
    refine ⟨a, rfl, h, ?_⟩
    show (x.andThen f).lines = _
    unfold andThen
    rw [hx]

theorem within_ok {step : String} (h : (Text.within step x).result = .ok a) : x.result = .ok a := by
  change Outcome.within step x.result = .ok a at h
  cases hx : x.result with
  | ok a' =>
    rw [hx] at h
    exact h
  | error e =>
    rw [hx] at h
    cases h

theorem ins_lines {op : Mnemonic} {args : List Operand} (h : (ins op args).result = .ok ()) :
    (ins op args).lines = [.ins op args] := by
  unfold ins at h ⊢
  split
  · rfl
  next hc =>
    rw [if_neg hc] at h
    cases h

/-- The result of a step that writes lines has a property, and a failure a cause with one. -/
def Gives (E : Option Cause → Prop) (x : Text α) (Q : α → Prop) : Prop := x.result.Gives E Q

theorem Gives.pure (h : Q a) : Gives E (pure a : Text α) Q := h

theorem Gives.mono {Q' : α → Prop} (h : Gives E x Q) (hQ : ∀ a, Q a → Q' a) : Gives E x Q' :=
  Outcome.Gives.mono h (fun _ hc => hc) hQ

theorem Gives.bind {R : β → Prop} (h : Gives E x Q) (hf : ∀ a, Q a → Gives E (f a) R) :
    Gives E (x >>= f) R := by
  unfold Gives
  rw [bind_result]
  exact Outcome.Gives.bind h hf

theorem Gives.lift {x : Outcome α} (h : x.Gives E Q) : Gives E (Text.lift x) Q := h

theorem Gives.within (h : Gives E x Q) (step : String) : Gives E (Text.within step x) Q :=
  Outcome.Gives.within h step

theorem Gives.ite {c : Prop} [Decidable c] {y : Text α} (hx : c → Gives E x Q)
    (hy : ¬ c → Gives E y Q) : Gives E (if c then x else y) Q := by
  by_cases h : c
  · rw [if_pos h]
    exact hx h
  · rw [if_neg h]
    exact hy h

end Asm.Text

namespace Emit

open Asm (Text)

variable {α β : Type} {E E' : Option Cause → Prop} {s : State} {Q Q' : α → State → Prop}

/-- From state `s` a step comes to a result and a state with `Q`, or fails for a cause with `E`. -/
def Gives (E : Option Cause → Prop) (x : Emitter α) (s : State) (Q : α → State → Prop) : Prop :=
  (x s).result.Gives E fun p => Q p.1 p.2

variable {x : Emitter α}

theorem Gives.mono (h : Gives E x s Q) (hQ : ∀ a s', Q a s' → Q' a s') : Gives E x s Q' :=
  Outcome.Gives.mono h (fun _ hc => hc) fun p => hQ p.1 p.2

theorem Gives.and (h : Gives E x s Q) (h' : Gives E' x s Q') :
    Gives (fun c => E c ∧ E' c) x s fun a s' => Q a s' ∧ Q' a s' :=
  Outcome.Gives.and h h'

theorem Gives.pure {a : α} (h : Q a s) : Gives E (pure a : Emitter α) s Q := h

theorem Gives.bind {f : α → Emitter β} {R : β → State → Prop} (h : Gives E x s Q)
    (hf : ∀ a s', Q a s' → Gives E (f a) s' R) : Gives E (x >>= f) s R :=
  Text.Gives.bind h fun p hp => hf p.1 p.2 hp

theorem Gives.write {x : Text α} (h : Text.Gives E x fun a => Q a s) : Gives E (Emitter.write x) s Q := by
  show Outcome.Gives E (x.result.map fun a => (a, s)) _
  unfold Text.Gives at h
  cases hx : x.result with
  | ok a =>
    rw [hx] at h
    exact h
  | error e =>
    rw [hx] at h
    exact h

/-- A step that writes lines leaves the state as it is. -/
theorem Emitter.write_ok {x : Text α} {p : α × State} (h : (Emitter.write x s).result = .ok p) :
    x.result = .ok p.1 ∧ p.2 = s := by
  change x.result.map (fun a => (a, s)) = .ok p at h
  cases hx : x.result with
  | ok a =>
    rw [hx] at h
    cases h
    exact ⟨rfl, rfl⟩
  | error e =>
    rw [hx] at h
    cases h

theorem Gives.lift {x : Outcome α} (h : x.Gives E fun a => Q a s) : Gives E (Emitter.lift x) s Q :=
  Gives.write h

theorem Gives.within (h : Gives E x s Q) (step : String) : Gives E (Emitter.within step x) s Q :=
  Text.Gives.within h step

theorem Gives.get {Q : State → State → Prop} (h : Q s s) : Gives E (get : Emitter State) s Q := h

theorem Gives.modify {f : State → State} {Q : PUnit → State → Prop} (h : Q ⟨⟩ (f s)) :
    Gives E (modify f : Emitter PUnit) s Q := h

theorem Gives.ite {c : Prop} [Decidable c] {y : Emitter α} (hx : c → Gives E x s Q)
    (hy : ¬ c → Gives E y s Q) : Gives E (if c then x else y) s Q := by
  by_cases h : c
  · rw [if_pos h]
    exact hx h
  · rw [if_neg h]
    exact hy h

/-- The register of a temporary is looked up in the state, which stays as it is. -/
theorem boundAt_gives {id : Nat} {Q : Option Asm.Reg → State → Prop}
    (h : ∀ r, s.bound[id]? = some r → Q r s) (hE : s.bound[id]? = none → E none) :
    Gives E (boundAt id) s Q := by
  refine Gives.bind (Gives.get (Q := fun t s' => s = t ∧ s = s') ⟨rfl, rfl⟩) ?_
  rintro _ _ ⟨rfl, rfl⟩
  cases hb : s.bound[id]? with
  | some r => exact Gives.pure (h r hb)
  | none => exact Gives.lift (hE hb)

end Emit

end TreeAsm
