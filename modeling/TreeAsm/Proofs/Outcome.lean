import Mathlib.Data.List.Forall2
import TreeAsm.Failure

/-!
# Successful outcomes

How a step that succeeds decomposes into the steps it is made of, and how steps that succeed are put
together. A step that goes through a list does so element by element (`mapM_eq_ok_iff`).
-/

namespace TreeAsm

/-- A successful pair of steps is a successful step after a successful step. -/
theorem Outcome.bind_ok {α β : Type} {x : Outcome α} {f : α → Outcome β} {b : β}
    (h : (x >>= f) = .ok b) : ∃ a, x = .ok a ∧ f a = .ok b := by
  cases x with
  | error e => cases h
  | ok a => exact ⟨a, rfl, h⟩

theorem Outcome.within_eq_ok {α : Type} {step : String} {x : Outcome α} {a : α}
    (h : Outcome.within step x = .ok a) : x = .ok a := by
  cases x with
  | error e => cases h
  | ok b => exact h

theorem Outcome.bind_eq {α β : Type} {x : Outcome α} {f : α → Outcome β} {a : α} (h : x = .ok a) :
    (x >>= f) = f a := by
  rw [h]
  rfl

theorem Outcome.within_eq {α : Type} {step : String} {x : Outcome α} {a : α} (h : x = .ok a) :
    x.within step = .ok a := by
  rw [h]
  rfl

theorem Outcome.exists_ok {α : Type} {x : Outcome α} (h : x.isOk) : ∃ a, x = .ok a := by
  cases x with
  | error e => cases h
  | ok a => exact ⟨a, rfl⟩

/-- To see that a step succeeds with a result of some kind, run it. -/
theorem Outcome.exists_ok_of_any {α : Type} {x : Outcome α} {P : α → Prop} [DecidablePred P]
    (h : x.toOption.any (fun a => decide (P a))) : ∃ a, x = .ok a ∧ P a := by
  cases x with
  | error e => cases h
  | ok a => exact ⟨a, rfl, of_decide_eq_true h⟩

/-! ## Lists -/

/-- What every step through a list keeps holds after all of them. -/
theorem Outcome.foldlM_keeps {σ α : Type} {step : σ → α → Outcome σ} {I : σ → Prop}
    (hstep : ∀ {s s' a}, step s a = .ok s' → I s → I s') :
    ∀ {xs : List α} {s s' : σ}, xs.foldlM step s = .ok s' → I s → I s' := by
  intro xs
  induction xs with
  | nil =>
    intro s s' h hs
    cases h
    exact hs
  | cons a xs ih =>
    intro s s' h hs
    obtain ⟨s1, h1, h⟩ := bind_ok h
    exact ih h (hstep h1 hs)

section

variable {α β : Type} {f : α → Outcome β} {xs : List α} {ys : List β}

theorem Outcome.mapM_eq_ok_iff : xs.mapM f = .ok ys ↔ List.Forall₂ (fun x y => f x = .ok y) xs ys := by
  constructor
  · intro h
    induction xs generalizing ys with
    | nil =>
      cases h
      exact .nil
    | cons x xs ih =>
      rw [List.mapM_cons] at h
      obtain ⟨y, hy, h⟩ := bind_ok h
      obtain ⟨zs, hzs, h⟩ := bind_ok h
      cases h
      exact .cons hy (ih hzs)
  · intro h
    induction h with
    | nil => rfl
    | cons hy _ ih =>
      rw [List.mapM_cons, bind_eq hy, bind_eq ih]
      rfl

/-- Every result is that of some element. -/
theorem Outcome.mem_of_mapM (h : xs.mapM f = .ok ys) : ∀ y ∈ ys, ∃ x ∈ xs, f x = .ok y := by
  intro y hy
  induction mapM_eq_ok_iff.mp h with
  | nil => cases hy
  | cons hx hrest ih =>
    rcases List.mem_cons.mp hy with rfl | hy
    · exact ⟨_, List.mem_cons_self, hx⟩
    · obtain ⟨x, hmem, hx⟩ := ih (mapM_eq_ok_iff.mpr hrest) hy
      exact ⟨x, List.mem_cons_of_mem _ hmem, hx⟩

/-- The result of an element is at its place. -/
theorem Outcome.getElem?_mapM (h : xs.mapM f = .ok ys) {i : Nat} {x : α} (hx : xs[i]? = some x) :
    ∃ y, ys[i]? = some y ∧ f x = .ok y := by
  induction mapM_eq_ok_iff.mp h generalizing i with
  | nil => cases hx
  | cons hy hrest ih =>
    cases i with
    | zero => exact ⟨_, rfl, Option.some.inj hx ▸ hy⟩
    | succ i => exact ih (mapM_eq_ok_iff.mpr hrest) hx

/-- A step that succeeds on every element of a list succeeds on the list, and what holds of every
single result holds of all of them. -/
theorem Outcome.mapM_ok {P : β → Prop} (xs : List α) (h : ∀ x ∈ xs, ∃ y, f x = .ok y ∧ P y) :
    ∃ ys, xs.mapM f = .ok ys ∧ ys.length = xs.length ∧ ∀ y ∈ ys, P y := by
  induction xs with
  | nil => exact ⟨[], rfl, rfl, fun _ hy => nomatch hy⟩
  | cons x xs ih =>
    obtain ⟨y, hy, hPy⟩ := h x List.mem_cons_self
    obtain ⟨ys, hys, hlen, hPys⟩ := ih fun z hz => h z (List.mem_cons_of_mem _ hz)
    refine ⟨y :: ys, mapM_eq_ok_iff.mpr (.cons hy (mapM_eq_ok_iff.mp hys)), ?_, ?_⟩
    · rw [List.length_cons, List.length_cons, hlen]
    · intro z hz
      rcases List.mem_cons.mp hz with rfl | hz
      · exact hPy
      · exact hPys z hz

end

end TreeAsm
