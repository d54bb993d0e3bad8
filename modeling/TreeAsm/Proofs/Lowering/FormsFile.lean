import TreeAsm.Proofs.Lowering.File

/-!
# Temporaries of lowered programs

The functions of a lowered program are arranged: every temporary is written by one instruction and
read only after it in the same block. Therefore no temporary is ever live between two blocks.
-/

namespace TreeAsm.Lowering

open Ir

variable {u : Universe}

/-- A function of a lowered program that has a body has the forms of lowering. -/
theorem lowerFile_lowered {file : Program.File} {r : Lowered} (h : lowerFile u file = .ok r)
    {f : Func} (hf : f ∈ r.module.funcs) (hext : f.external = false) : Func.Lowered f :=
  ((lowerFile_inProgress h).done hf hext).lowered

/-- The liveness of a function of a lowered program can be computed, and nothing is live between its
blocks. -/
theorem lowerFile_idle {file : Program.File} {r : Lowered} (h : lowerFile u file = .ok r) {f : Func}
    (hf : f ∈ r.module.funcs) :
    Arranged (f.blocks.map (·.code)) ∧ ∃ facts visits, Liveness.analyze f = .ok (facts, visits) ∧
      facts.length = f.blocks.length ∧ ∀ b ∈ facts, b.Idle := by
  have hprogress := lowerFile_inProgress h
  have hdone : Arranged (f.blocks.map (·.code)) ∧ ∃ facts, Liveness.analyze f = .ok facts := by
    cases hext : f.external with
    | false =>
      have hwf := hprogress.wellFormed.funcs f hf hext
      exact ⟨(lowerFile_lowered h hf hext).arranged, Liveness.analyze_ok hwf.jumps hwf.code⟩
    | true =>
      have hblocks := hprogress.external f hf hext
      refine ⟨⟨by simp [hblocks], by simp [hblocks]⟩, ?_⟩
      exact Liveness.analyze_ok (m := r.module) (by simp [hblocks]) (by simp [hblocks])
  obtain ⟨harranged, ⟨facts, visits⟩, hfacts⟩ := hdone
  obtain ⟨hidle, hlen⟩ := Liveness.analyze_arranged
    (fun b hb => harranged.covered b.code (List.mem_map_of_mem hb)) hfacts
  exact ⟨harranged, facts, visits, hfacts, hlen, hidle⟩

/-- In every function of a lowered program each temporary is written by at most one instruction, and
every instruction that reads it comes after one that writes it in the same block. So nothing is live
at the start or at the end of any block. -/
theorem lowerFile_temps_local {file : Program.File} {r : Lowered} (h : lowerFile u file = .ok r) :
    ∀ f ∈ r.module.funcs, (∀ id, f.code.countP (·.writes id) ≤ 1) ∧
      (∀ b ∈ f.blocks, ∀ done i rest, b.code = done ++ i :: rest → ∀ id, i.readsTemp id = true →
        ∃ j ∈ done, j.writes id = true) ∧
      ∃ facts visits, Liveness.analyze f = .ok (facts, visits) ∧
        facts.length = f.blocks.length ∧ ∀ b ∈ facts, b.liveIn = ∅ ∧ b.liveOut = ∅ := by
  intro f hf
  obtain ⟨harranged, facts, visits, hfacts, hlen, hidle⟩ := lowerFile_idle h hf
  refine ⟨fun id => ?_, fun b hb => harranged.covered b.code (List.mem_map_of_mem hb), facts, visits,
    hfacts, hlen, fun b hb => ⟨(hidle b hb).liveIn, (hidle b hb).liveOut⟩⟩
  have hcode : f.code = (f.blocks.map (·.code)).flatten := List.flatMap_def
  rw [hcode]
  exact harranged.countP_writes id

/-- A function that sums every second element of an array and writes the sum to the place after the
last one: its loop keeps its bound in a variable, and the write goes through an address. -/
def steppedSum : Program.File :=
  let p : Position := default
  let id := Program.Expr.ident p
  ⟨"sum", [.func p "sum" true [⟨"xs", ⟨"int", 1⟩⟩, ⟨"n", ⟨"int", 0⟩⟩] ⟨"int", 0⟩ (some (.mk p [
    .var p "s" ⟨"int", 0⟩ (some (.int p 0)),
    .for p "i" (.int p 0) (.binary p "-" (id "n") (.int p 1)) (some (.int p 2)) (some (.mk p [
      .set p "s" "+=" (.index p (id "xs") (id "i"))])),
    .expr p (.assign p (.index p (id "xs") (id "n")) (id "s")),
    .return p (some (id "s"))]))]⟩

theorem lowerFile_temps_local_steppedSum :
    ∃ r, lowerFile (Universe.make 64 false) steppedSum = .ok r ∧ ∀ f ∈ r.module.funcs,
      (∀ id, f.code.countP (·.writes id) ≤ 1) ∧
      (∀ b ∈ f.blocks, ∀ done i rest, b.code = done ++ i :: rest → ∀ id, i.readsTemp id = true →
        ∃ j ∈ done, j.writes id = true) ∧
      ∃ facts visits, Liveness.analyze f = .ok (facts, visits) ∧
        facts.length = f.blocks.length ∧ ∀ b ∈ facts, b.liveIn = ∅ ∧ b.liveOut = ∅ := by
  have hok : (lowerFile (Universe.make 64 false) steppedSum).isOk = true := by decide +kernel
  obtain ⟨r, hr⟩ := Outcome.exists_ok hok
  exact ⟨r, hr, lowerFile_temps_local hr⟩

end TreeAsm.Lowering
