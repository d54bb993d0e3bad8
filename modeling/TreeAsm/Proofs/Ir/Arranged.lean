import Mathlib.Data.List.Nodup
import TreeAsm.Liveness.Func
import TreeAsm.Proofs.Liveness.Links
import TreeAsm.Proofs.Outcome

/-!
# Code in which temporaries stay within their block

Code is arranged if every temporary is written at one place at most, and every place that reads one
comes after that place in the same block. Nothing is live between the blocks of such code, whatever
the flow of control (`analyze_arranged`): no block reads a temporary before writing it, so that the
solver, which starts from empty sets, finds nothing to add.
-/

namespace TreeAsm.Ir

/-- The number of the temporary that an instruction writes. -/
def Instr.target? (i : Instr) : Option Nat :=
  match i.written with
  | .ok (some t) => some t.id
  | _ => none

/-- Whether an instruction writes a temporary. -/
def Instr.writes (i : Instr) (id : Nat) : Bool := i.target? == some id

/-- Whether an instruction reads a temporary. -/
def Instr.readsTemp (i : Instr) (id : Nat) : Bool :=
  match i.reads with
  | .ok xs => xs.any fun x => x.temp?.any (·.id == id)
  | .error _ => false

/-- The instructions of a function, block by block. -/
def Func.code (f : Func) : List Instr := f.blocks.flatMap (·.code)

/-- Every read of a temporary comes after a write of it. -/
def Covered (code : List Instr) : Prop :=
  ∀ done i rest, code = done ++ i :: rest → ∀ id, i.readsTemp id = true → ∃ j ∈ done, j.writes id = true

/-- Every temporary is written at most once, and read only after that in the same block. -/
structure Arranged (codes : List (List Instr)) : Prop where
  once : (codes.flatten.filterMap Instr.target?).Nodup
  covered : ∀ code ∈ codes, Covered code

variable {code : List Instr} {codes : List (List Instr)}

/-- An instruction at the end of covered code reads what has been written. -/
theorem Covered.concat (h : Covered code) {i : Instr}
    (hi : ∀ id, i.readsTemp id → ∃ j ∈ code, j.writes id) : Covered (code ++ [i]) := by
  intro done j rest hsplit id hid
  rcases List.eq_nil_or_concat rest with rfl | ⟨rest, k, rfl⟩
  · obtain ⟨rfl, hj⟩ := List.append_inj' hsplit rfl
    obtain rfl : i = j := by simpa using hj
    exact hi id hid
  · have hshift : code ++ [i] = (done ++ j :: rest) ++ [k] := by
      rw [hsplit]
      simp
    obtain ⟨rfl, -⟩ := List.append_inj' hshift rfl
    exact h done j rest rfl id hid

theorem covered_nil : Covered [] := by
  intro done i rest hsplit
  simp at hsplit

/-- No temporary of arranged code is written twice. -/
theorem Arranged.countP_writes (h : Arranged codes) (id : Nat) :
    codes.flatten.countP (·.writes id) ≤ 1 := by
  have hcount := List.nodup_iff_count_le_one.mp h.once id
  rw [List.count, List.countP_filterMap] at hcount
  refine Nat.le_trans (Nat.le_of_eq (List.countP_congr fun i _ => ?_)) hcount
  unfold Instr.writes
  cases i.target? <;> simp

/-- A temporary that is written is not written again later. -/
theorem Arranged.written_once (h : Arranged codes) {more : List Instr}
    (hcode : code ++ more ∈ codes) {j : Instr} {id : Nat} (hj : j ∈ code)
    (hwrites : j.writes id) : ∀ i ∈ more, i.writes id = false := by
  have hnodup : ((code ++ more).filterMap Instr.target?).Nodup :=
    h.once.sublist ((List.sublist_flatten_of_mem hcode).filterMap _)
  rw [List.filterMap_append, List.nodup_append] at hnodup
  intro i hi
  cases hagain : i.writes id with
  | false => rfl
  | true =>
    have hfirst : id ∈ code.filterMap Instr.target? :=
      List.mem_filterMap.mpr ⟨j, hj, by simpa [Instr.writes] using hwrites⟩
    have hsecond : id ∈ more.filterMap Instr.target? :=
      List.mem_filterMap.mpr ⟨i, hi, by simpa [Instr.writes] using hagain⟩
    exact absurd rfl (hnodup.2.2 id hfirst id hsecond)

end TreeAsm.Ir

namespace TreeAsm.BitSet

/-- A word beyond the end is empty. -/
theorem contains_eq (s : BitSet) (k : Nat) :
    s.contains k = (s.words[k / 64]?.getD 0 &&& bit (k % 64) != 0) := by
  unfold contains
  cases s.words[k / 64]? <;> simp

theorem getD_setBit (words : List (BitVec 64)) (i j n : Nat) : (setBit words i j)[n]?.getD 0 =
      if n = i then words[n]?.getD 0 ||| bit j else words[n]?.getD 0 := by
  induction words, i, j using setBit.induct generalizing n with
  | case1 j => cases n <;> simp [setBit]
  | case2 i j ih =>
    cases n with
    | zero => simp [setBit]
    | succ n => simpa [setBit] using ih n
  | case3 w ws j => cases n <;> simp [setBit]
  | case4 w ws i j ih =>
    cases n with
    | zero => simp [setBit]
    | succ n => simpa [setBit] using ih n

theorem bit_ne_zero {j : Nat} (h : j < 64) : bit j ≠ 0 := by
  intro hzero
  have hbit := congrArg (·.getLsbD j) hzero
  simp [bit, h] at hbit

/-- What a set has stays in it, and what is added is there. -/
theorem contains_insert {s : BitSet} {j k : Nat} (h : s.contains k ∨ j = k) : (s.insert j).contains k := by
  rw [contains_eq] at h ⊢
  rw [insert, getD_setBit]
  have hor : ∀ w b c : BitVec 64, (w &&& c != 0) ∨ (b &&& c != 0) → ((w ||| b) &&& c != 0) := by
    intro w b c hwb
    rw [BitVec.and_or_distrib_right, bne_iff_ne]
    intro hzero
    obtain ⟨hw, hb⟩ := BitVec.or_eq_zero_iff.mp hzero
    exact hwb.elim (fun h => bne_iff_ne.mp h hw) fun h => bne_iff_ne.mp h hb
  by_cases hword : k / 64 = j / 64
  · rw [if_pos hword]
    refine hor _ _ _ (h.imp_right fun hjk => ?_)
    rw [hjk, BitVec.and_self, bne_iff_ne]
    exact bit_ne_zero (Nat.mod_lt _ (by decide))
  · rw [if_neg hword]
    exact h.resolve_right fun hjk => hword (by rw [hjk])

end TreeAsm.BitSet

namespace TreeAsm.Liveness

open Ir

/-! ## Reading before writing -/

variable {bs : List Facts} {use defs : BitSet} {r : List Facts × Nat}

/-- Operands whose temporaries have been written add nothing. -/
theorem addReads_of_covered {xs : List Operand}
    (h : ∀ x ∈ xs, ∀ t, x.temp? = some t → defs.contains t.id) : addReads use defs xs = use := by
  induction xs with
  | nil => rfl
  | cons x xs ih =>
    have hrest := ih fun y hy => h y (List.mem_cons_of_mem _ hy)
    unfold addReads at hrest ⊢
    rw [List.foldl_cons]
    cases ht : x.temp? with
    | none => exact hrest
    | some t =>
      simp only [h x (List.mem_cons_self ..) t ht, if_true]
      exact hrest

/-- Covered code reads nothing before it is written. The induction is on the code still to come:
`done` is what comes before it, and all that it writes is in `defs`. -/
theorem useDefFrom_covered {done code : List Instr} {use' defs' : BitSet}
    (hcovered : Covered (done ++ code)) (hdefs : ∀ j ∈ done, ∀ id, j.writes id → defs.contains id)
    (h : useDefFrom use defs code = .ok (use', defs')) : use' = use := by
  induction code generalizing done use defs with
  | nil =>
    cases h
    rfl
  | cons i code ih =>
    unfold useDefFrom at h
    cases hreads : i.reads with
    | error e =>
      rw [hreads] at h
      cases h
    | ok xs =>
      cases hwritten : i.written with
      | error e =>
        rw [hreads, hwritten] at h
        cases h
      | ok w =>
        rw [hreads, hwritten] at h
        have hxs : addReads use defs xs = use := by
          refine addReads_of_covered fun x hx t ht => ?_
          have hread : i.readsTemp t.id := by
            unfold Instr.readsTemp
            rw [hreads]
            exact List.any_eq_true.mpr ⟨x, hx, by simp [ht]⟩
          obtain ⟨j, hj, hw⟩ := hcovered done i code rfl t.id hread
          exact hdefs j hj t.id hw
        simp only [bind, Except.bind, hxs] at h
        have hsplit : Covered ((done ++ [i]) ++ code) := by simpa using hcovered
        refine ih hsplit ?_ h
        intro j hj id hid
        rcases List.mem_append.mp hj with hj | hj
        · have hold := hdefs j hj id hid
          cases w with
          | none => exact hold
          | some t => exact BitSet.contains_insert (.inl hold)
        · obtain rfl := List.mem_singleton.mp hj
          unfold Instr.writes Instr.target? at hid
          rw [hwritten] at hid
          cases w with
          | none => cases hid
          | some t => exact BitSet.contains_insert (.inr (by simpa using hid))

/-! ## Nothing is live -/

/-- A block that reads nothing before writing it and of which nothing is known to be live. -/
structure Facts.Idle (b : Facts) : Prop where
  use : b.use = ∅
  liveIn : b.liveIn = ∅
  liveOut : b.liveOut = ∅

theorem Facts.join_idle (hbs : ∀ b ∈ bs, b.Idle) {b : Facts} (hb : b.Idle) : Facts.join bs b = ∅ := by
  unfold Facts.join
  rw [hb.liveOut]
  induction b.succ with
  | nil => rfl
  | cons s succ ih =>
    rw [List.foldl_cons]
    cases hs : bs[s]? with
    | none => exact ih
    | some x =>
      have hx : (∅ : BitSet).union x.liveIn = ∅ := by
        rw [(hbs x (List.mem_of_getElem? hs)).liveIn]
        rfl
      simp only [hx]
      exact ih

/-- A visit finds nothing to add. -/
theorem Search.visit_idle {s : Search} (h : ∀ b ∈ s.blocks, b.Idle) (i : Nat) :
    (∀ b ∈ (s.visit i).blocks, b.Idle) ∧ (s.visit i).blocks.length = s.blocks.length := by
  unfold Search.visit
  cases hi : s.blocks[i]? with
  | none => exact ⟨h, rfl⟩
  | some b =>
    have hb : b.Idle := h b (List.mem_of_getElem? hi)
    have htransfer : b.transfer ∅ = ∅ := by
      unfold Facts.transfer
      rw [hb.use]
      rfl
    have hequal : BitSet.equal ∅ b.liveIn := by
      rw [hb.liveIn]
      rfl
    simp only [Facts.join_idle h hb, htransfer, hequal, if_true]
    refine ⟨fun c hc => ?_, List.length_set⟩
    rcases List.mem_or_eq_of_mem_set hc with hc | rfl
    · exact h c hc
    · exact ⟨hb.use, hb.liveIn, rfl⟩

theorem Search.run_idle (fuel : Nat) {s : Search} (h : ∀ b ∈ s.blocks, b.Idle) :
    (∀ b ∈ (Search.run fuel s).blocks, b.Idle) ∧ (Search.run fuel s).blocks.length = s.blocks.length := by
  induction fuel generalizing s with
  | zero => exact ⟨h, rfl⟩
  | succ fuel ih =>
    unfold Search.run
    cases s.queue with
    | nil => exact ⟨h, rfl⟩
    | cons i queue =>
      obtain ⟨hvisit, hlen⟩ := Search.visit_idle (s := { s with queue := queue }) h i
      obtain ⟨hrun, hlen'⟩ := ih hvisit
      exact ⟨hrun, hlen'.trans hlen⟩

theorem linked_idle (h : ∀ b ∈ bs, b.Idle) : ∀ b ∈ linked bs, b.Idle := by
  intro b hb
  rw [linked_eq] at hb
  obtain ⟨⟨c, i⟩, hc, rfl⟩ := List.mem_map.mp hb
  have hmem : c ∈ bs := List.fst_mem_of_mem_zipIdx hc
  exact ⟨(h c hmem).use, (h c hmem).liveIn, (h c hmem).liveOut⟩

theorem solve_idle (hbs : ∀ b ∈ bs, b.Idle) (h : solve bs = .ok r) :
    (∀ b ∈ r.1, b.Idle) ∧ r.1.length = bs.length := by
  unfold solve at h
  split at h
  · cases h
    obtain ⟨hrun, hlen⟩ := Search.run_idle (visitBound bs) (s := ⟨linked bs, allQueued bs.length, 0⟩)
      (linked_idle hbs)
    refine ⟨hrun, hlen.trans ?_⟩
    rw [linked_eq, List.length_map, List.length_zipIdx]
  · cases h

/-- Nothing is live at the start or at the end of any block of arranged code. -/
theorem analyze_arranged {f : Func} (hcovered : ∀ b ∈ f.blocks, Covered b.code)
    (h : analyze f = .ok r) : (∀ b ∈ r.1, b.Idle) ∧ r.1.length = f.blocks.length := by
  obtain ⟨facts, hfacts, h⟩ := Outcome.bind_ok h
  obtain ⟨succs, hsuccs, hfacts⟩ := Outcome.bind_ok hfacts
  have hlen := (Outcome.mapM_eq_ok_iff.mp hfacts).length_eq.symm
  have hidle : ∀ b ∈ facts, b.Idle := by
    intro b hb
    obtain ⟨⟨c, succ⟩, hc, hfc⟩ := Outcome.mem_of_mapM hfacts b hb
    obtain ⟨⟨use, defs⟩, hud, hfc⟩ := Outcome.bind_ok hfc
    cases hfc
    have hblock : Covered ([] ++ c.code) := hcovered c (List.of_mem_zip hc).1
    have huse : use = ∅ := useDefFrom_covered hblock (by simp) hud
    exact ⟨huse, rfl, rfl⟩
  obtain ⟨hsolved, hsolvedLen⟩ := solve_idle hidle h
  refine ⟨hsolved, hsolvedLen.trans (hlen.trans ?_)⟩
  have hsuccsLen := (Outcome.mapM_eq_ok_iff.mp (Outcome.within_eq_ok hsuccs)).length_eq.symm
  rw [List.length_zipIdx] at hsuccsLen
  rw [List.length_zip, hsuccsLen, Nat.min_self]

end TreeAsm.Liveness
