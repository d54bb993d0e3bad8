import TreeAsm.Proofs.Lowering.File

/-!
# Functions that do not return

A function is reported if control can reach the end of its body. Lowering takes the code after a return
for reachable: it gets a block of its own, and the end of a list of statements is reached if the end of
the last one is (`lowerFile_notices`). So a function that returns and then does something is reported
(`lowerFile_notices_afterReturn`).
-/

namespace TreeAsm.Lowering

open Ir
open Outcome (bind_ok within_eq_ok)
open Program (Stmt)

mutual

/-- The functions with a body that a statement at top level declares, in order. -/
def pendingOf (ns : String) : Stmt → List Pending
  | .space _ name body => allPendingOf (qualify ns name) body
  | .func pos name _ _ _ (some body) => [⟨qualify ns name, ns, pos, body⟩]
  | _ => []

/-- The functions with a body that statements at top level declare, in order. -/
def allPendingOf (ns : String) : List Stmt → List Pending
  | [] => []
  | st :: rest => pendingOf ns st ++ allPendingOf ns rest

end

mutual

theorem declare_bodies {u : Universe} : ∀ (st : Stmt) {ns : String} {d d' : Declared},
    declare u ns d st = .ok d' → d'.bodies = d.bodies ++ pendingOf ns st := by
  intro st ns d d' h
  cases st with
  | space _ name body => exact declareAll_bodies body (within_eq_ok h)
  | func pos name isPublic params ret body =>
    obtain ⟨f, hf, h⟩ := bind_ok h
    obtain ⟨m, -, h⟩ := bind_ok h
    cases body with
    | none =>
      cases h
      exact (List.append_nil _).symm
    | some b =>
      cases h
      obtain ⟨_, -, hf⟩ := bind_ok (within_eq_ok hf)
      obtain ⟨_, -, hf⟩ := bind_ok hf
      cases hf
      rfl
  | struct | var =>
    obtain ⟨_, -, h⟩ := bind_ok h
    cases h
    exact (List.append_nil _).symm
  | outside _ name isVar params ret =>
    cases isVar <;>
    · obtain ⟨_, -, h⟩ := bind_ok h
      obtain ⟨m, -, h⟩ := bind_ok h
      cases h
      exact (List.append_nil _).symm
  | _ => cases h

/-- The bodies that wait are those of the program, in order. -/
theorem declareAll_bodies {u : Universe} : ∀ (stmts : List Stmt) {ns : String} {d d' : Declared},
    declareAll u ns d stmts = .ok d' → d'.bodies = d.bodies ++ allPendingOf ns stmts
  | [], _, _, _, h => by
    cases h
    exact (List.append_nil _).symm
  | st :: rest, _, _, _, h => by
    obtain ⟨d1, h1, h⟩ := bind_ok h
    rw [declareAll_bodies rest h, declare_bodies st h1, allPendingOf, List.append_assoc]

end

theorem lowerAllPending_notices {u : Universe} : ∀ {xs : List Pending} {m m' : Module}
    {notices : List Notice}, InProgress u m xs → lowerAllPending u m xs = .ok (m', notices) →
    notices = (xs.filter (·.body.continues true)).map Pending.notice := by
  intro xs
  induction xs with
  | nil =>
    intro m m' notices _ h
    cases h
    rfl
  | cons x xs ih =>
    intro m m' notices hm h
    obtain ⟨⟨m1, notices1⟩, h1, h⟩ := bind_ok h
    obtain ⟨⟨m2, notices2⟩, h2, h⟩ := bind_ok h
    cases h
    have h1 := within_eq_ok h1
    obtain ⟨-, -, -, -, -, -, -, -, -, hfirst⟩ := lowerPending_cases hm h1
    rw [hfirst, ih (lowerPending_inProgress hm h1) h2, List.filter_cons]
    split <;> rfl

/-- The functions that are reported are, in the order of their declaration, those whose body can be left
at its end if the code after a return counts as reached. A lowered block says the same of its end. -/
theorem lowerFile_notices {u : Universe} {file : Program.File} {r : Lowered}
    (h : lowerFile u file = .ok r) :
    ((allPendingOf "" file.stmts).map (·.name)).Nodup ∧
    r.notices = ((allPendingOf "" file.stmts).filter (·.body.continues true)).map Pending.notice ∧
    ∀ {env : Env} {pending : List String} {b : Program.Block} {s s' : State} {ends : Bool},
      env.ret.Proper → s.Wf env pending → s.Ends false → lowerBlock env b s = .ok (ends, s') →
      ends = !b.continues true := by
  obtain ⟨d, st, hsound, htyped, ⟨m, -, hd⟩, hst, -, hm'⟩ := lowerFile_steps h
  have hbodies : d.bodies = allPendingOf "" file.stmts := declareAll_bodies file.stmts hd
  have hnotices := lowerAllPending_notices (hsound.inProgress htyped hst) hm'
  rw [hbodies] at hnotices
  refine ⟨hbodies ▸ hsound.bodies, hnotices, ?_⟩
  intro env pending b s s' ends hret hwf hends hb
  exact (lowerBlock_runs env hret b hwf hends hb).2

/-- A function that returns before its last statement. -/
def setsAfterReturn : Program.File :=
  let p : Position := default
  ⟨"after", [.func p "f" true [⟨"x", ⟨"int", 0⟩⟩] ⟨"int", 0⟩ (some (.mk p [
    .return p (some (.int p 1)), .set p "x" "=" (.int p 2)]))]⟩

theorem lowerFile_notices_onlyFunction :
    ∃ r, lowerFile (Universe.make 64 false) setsAfterReturn = .ok r ∧ r.notices
      = ((allPendingOf "" setsAfterReturn.stmts).filter (·.body.continues true)).map Pending.notice := by
  obtain ⟨r, hr, -⟩ := Outcome.exists_ok_of_any (P := fun _ => True)
    (x := lowerFile (Universe.make 64 false) setsAfterReturn) (by decide +kernel)
  exact ⟨r, hr, (lowerFile_notices hr).2.1⟩

/-- It is reported, although no path reaches the end of its body. -/
theorem lowerFile_notices_afterReturn :
    (allPendingOf "" setsAfterReturn.stmts).map (·.body.continues false) = [false] ∧
    ∃ r, lowerFile (Universe.make 64 false) setsAfterReturn = .ok r ∧
      r.notices = [⟨default, "function f did not return"⟩] := by
  refine ⟨by decide +kernel, Outcome.exists_ok_of_any ?_⟩
  decide +kernel

end TreeAsm.Lowering
