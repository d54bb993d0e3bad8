import Mathlib.Logic.Relation
import TreeAsm.Proofs.Liveness.Solver
import TreeAsm.Proofs.Lowering.Steps

/-!
# Liveness is exact

Here liveness is said in terms of single instructions. A point of a function is a place in one of its
blocks. Control goes from an instruction to the next one of its block, and from the end of a block to
the blocks that its last instruction allows (`Func.Flows`). A temporary is live at the start of a
block if control can go from there to an instruction that reads it past instructions that do not write
it (`Func.LiveFrom`).

The sets of the analysis are exactly this (`analyze_live_iff`). Two things stand between it and the
solver, which works on whole blocks: one scan tells what a block reads before it writes it
(`useDefFrom_contains`), and a path past whole blocks is a path past their instructions
(`liveAt_iff_liveFrom`).
-/

namespace TreeAsm.Ir

/-- An instruction reads the temporaries among its operands, but a move does not read its first
operand, which it writes. -/
def Instr.Reads (i : Instr) (id : Nat) : Prop :=
  ∃ k t, i.args[k]? = some (.temp t) ∧ t.id = id ∧ (i.op = .move → k ≠ 0)

/-- An instruction writes its result; a move without one writes its first operand. -/
def Instr.Writes (i : Instr) (id : Nat) : Prop :=
  (∃ t, i.result = some t ∧ t.id = id) ∨
    i.result = none ∧ i.op = .move ∧ ∃ t, i.args[0]? = some (.temp t) ∧ t.id = id

/-- A move has a first operand. -/
def Instr.HasTarget (i : Instr) : Prop := i.op = .move → i.args ≠ []

/-- Control can go from the end of a block to the start of another: to the one that a jump or a
conditional jump at its end names, and to the next one unless a jump or a return ends the block. -/
inductive Func.Flows (f : Func) : Nat → Nat → Prop
  | target {b c : Nat} {B : Block} {i : Instr} {l : String} :
      f.blocks[b]? = some B → B.code.getLast? = some i → i.target = .ok (some l) →
      f.blockIndex? l = some c → f.Flows b c
  | next {b : Nat} {B : Block} : f.blocks[b]? = some B → b + 1 < f.blocks.length →
      (∀ i, B.code.getLast? = some i → i.op ≠ .ret ∧ i.op ≠ .jump) → f.Flows b (b + 1)

/-- One step of control from a point of a function to another, in which a temporary is not written. -/
inductive Func.Passes (f : Func) (id : Nat) : Nat × Nat → Nat × Nat → Prop
  | instr {b k : Nat} {B : Block} {i : Instr} :
      f.blocks[b]? = some B → B.code[k]? = some i → ¬ i.Writes id → f.Passes id (b, k) (b, k + 1)
  | leave {b c : Nat} {B : Block} :
      f.blocks[b]? = some B → f.Flows b c → f.Passes id (b, B.code.length) (c, 0)

/-- There is an instruction at a point, and it reads a temporary. -/
def Func.ReadsAt (f : Func) (id : Nat) (p : Nat × Nat) : Prop :=
  ∃ B i, f.blocks[p.1]? = some B ∧ B.code[p.2]? = some i ∧ i.Reads id

/-- Control can go from the start of a block to an instruction that reads a temporary, with no
instruction before it writing the temporary. -/
def Func.LiveFrom (f : Func) (id b : Nat) : Prop :=
  ∃ p, Relation.ReflTransGen (f.Passes id) (b, 0) p ∧ f.ReadsAt id p

/-- Code that reads a temporary with no instruction before that writing it. -/
def ReadsFirst (code : List Instr) (id : Nat) : Prop :=
  ∃ done i rest, code = done ++ i :: rest ∧ i.Reads id ∧ ∀ j ∈ done, ¬ j.Writes id

theorem not_readsFirst_nil (id : Nat) : ¬ ReadsFirst [] id := by
  rintro ⟨done, i, rest, hsplit, -⟩
  simp at hsplit

theorem readsFirst_cons (i : Instr) (code : List Instr) (id : Nat) :
    ReadsFirst (i :: code) id ↔ i.Reads id ∨ ¬ i.Writes id ∧ ReadsFirst code id := by
  constructor
  · rintro ⟨done, j, rest, hsplit, hreads, hdone⟩
    cases done with
    | nil =>
      obtain ⟨rfl, -⟩ := List.cons.inj hsplit
      exact .inl hreads
    | cons x done =>
      obtain ⟨rfl, hrest⟩ := List.cons.inj hsplit
      refine Or.inr ⟨hdone i List.mem_cons_self, done, j, rest, hrest, hreads, fun y hy => ?_⟩
      exact hdone y (List.mem_cons_of_mem _ hy)
  · rintro (hreads | ⟨hkeep, done, j, rest, rfl, hreads, hdone⟩)
    · exact ⟨[], i, code, rfl, hreads, by simp⟩
    · refine ⟨i :: done, j, rest, rfl, hreads, fun y hy => ?_⟩
      rcases List.mem_cons.mp hy with rfl | hy
      · exact hkeep
      · exact hdone y hy

end TreeAsm.Ir

namespace TreeAsm.Liveness

open Ir

/-! ## One scan over a block -/

/-- What an instruction reads can be told unless it is a move without operands, and then it is what
the scan adds. -/
theorem reads_cases (i : Instr) : ¬ i.HasTarget ∧ i.reads = .crash ∨
      i.HasTarget ∧ ∃ xs, i.reads = .ok xs ∧ ∀ id, i.Reads id ↔ ∃ t, .temp t ∈ xs ∧ t.id = id := by
  rw [Instr.reads]
  by_cases hop : i.op = .move
  · rw [if_pos hop]
    cases hargs : i.args with
    | nil => exact .inl ⟨fun h => h hop hargs, rfl⟩
    | cons x xs =>
      refine Or.inr ⟨fun _ => by simp [hargs], xs, rfl, fun id => ⟨?_, ?_⟩⟩
      · rintro ⟨k, t, hk, hid, hne⟩
        obtain ⟨k, rfl⟩ := Nat.exists_eq_succ_of_ne_zero (hne hop)
        rw [hargs] at hk
        exact ⟨t, List.mem_of_getElem? (by simpa using hk), hid⟩
      · rintro ⟨t, ht, hid⟩
        obtain ⟨k, hk⟩ := List.getElem?_of_mem ht
        refine ⟨k + 1, t, ?_, hid, fun _ => Nat.succ_ne_zero k⟩
        rw [hargs]
        simpa using hk
  · rw [if_neg hop]
    refine Or.inr ⟨fun h => absurd h hop, i.args, rfl, fun id => ⟨?_, ?_⟩⟩
    · rintro ⟨k, t, hk, hid, -⟩
      exact ⟨t, List.mem_of_getElem? hk, hid⟩
    · rintro ⟨t, ht, hid⟩
      obtain ⟨k, hk⟩ := List.getElem?_of_mem ht
      exact ⟨k, t, hk, hid, fun h => absurd h hop⟩

variable {f : Func} {b : Nat} {i : Instr} {B : Block}

/-- What an instruction writes can be told if it is no move without operands. -/
theorem written_of_hasTarget (h : i.HasTarget) :
    ∃ w, i.written = .ok w ∧ ∀ id, i.Writes id ↔ ∃ t, w = some t ∧ t.id = id := by
  rw [Instr.written]
  cases hres : i.result with
  | some t =>
    refine ⟨some t, rfl, fun id => ?_⟩
    simp [Instr.Writes, hres]
  | none =>
    by_cases hop : i.op = .move
    · cases hargs : i.args with
      | nil => exact absurd hargs (h hop)
      | cons x xs =>
        have harg : i.arg 0 = .ok x := by rw [Instr.arg, hargs]; rfl
        simp only [if_pos hop, harg]
        refine ⟨x.temp?, rfl, fun id => ?_⟩
        cases x <;> simp [Instr.Writes, hres, hop, hargs, Operand.temp?]
    · simp only [if_neg hop]
      refine ⟨none, rfl, fun id => ?_⟩
      simp [Instr.Writes, hres, hop]

theorem addReads_contains (use defs : BitSet) (xs : List Operand) (id : Nat) :
    (addReads use defs xs).contains id ↔ use.contains id ∨
      defs.contains id = false ∧ ∃ t, .temp t ∈ xs ∧ t.id = id := by
  induction xs generalizing use with
  | nil => simp [addReads]
  | cons x xs ih =>
    have hstep : addReads use defs (x :: xs) = addReads (x.temp?.elim use fun t =>
        if defs.contains t.id then use else use.insert t.id) defs xs := by
      cases x <;> rfl
    rw [hstep, ih]
    cases x with
    | temp t =>
      by_cases hdef : defs.contains t.id
      · -- a temporary that has been written adds nothing
        simp only [Operand.temp?, Option.elim_some, hdef, if_true, List.mem_cons, Operand.temp.injEq]
        constructor
        · rintro (huse | ⟨hnot, t', ht', hid⟩)
          · exact .inl huse
          · exact .inr ⟨hnot, t', .inr ht', hid⟩
        · rintro (huse | ⟨hnot, t', rfl | ht', hid⟩)
          · exact .inl huse
          · rw [hid, hnot] at hdef
            cases hdef
          · exact .inr ⟨hnot, t', ht', hid⟩
      · simp only [Operand.temp?, Option.elim_some, if_neg hdef, BitSet.contains_insert_iff,
          List.mem_cons, Operand.temp.injEq]
        constructor
        · rintro ((huse | rfl) | ⟨hnot, t', ht', hid⟩)
          · exact .inl huse
          · exact .inr ⟨Bool.eq_false_iff.mpr hdef, t, .inl rfl, rfl⟩
          · exact .inr ⟨hnot, t', .inr ht', hid⟩
        · rintro (huse | ⟨hnot, t', rfl | ht', hid⟩)
          · exact .inl (.inl huse)
          · exact .inl (.inr hid)
          · exact .inr ⟨hnot, t', ht', hid⟩
    | _ => simp [Operand.temp?]

/-- What one instruction adds to a scan. -/
theorem useDefFrom_cons (h : i.HasTarget) (use defs : BitSet) :
    ∃ use1 defs1, (∀ code, useDefFrom use defs (i :: code) = useDefFrom use1 defs1 code) ∧
      (∀ id, use1.contains id ↔ use.contains id ∨ defs.contains id = false ∧ i.Reads id) ∧
      ∀ id, defs1.contains id ↔ defs.contains id ∨ i.Writes id := by
  rcases reads_cases i with ⟨hnot, -⟩ | ⟨-, xs, hreads, hxs⟩
  · exact absurd h hnot
  obtain ⟨w, hwritten, hw⟩ := written_of_hasTarget h
  cases w with
  | none =>
    refine ⟨addReads use defs xs, defs, fun code => ?_, fun id => ?_, fun id => ?_⟩
    · rw [useDefFrom, hreads, hwritten]
      rfl
    · rw [addReads_contains, hxs]
    · simp [hw]
  | some t =>
    refine ⟨addReads use defs xs, defs.insert t.id, fun code => ?_, fun id => ?_, fun id => ?_⟩
    · rw [useDefFrom, hreads, hwritten]
      rfl
    · rw [addReads_contains, hxs]
    · rw [BitSet.contains_insert_iff, hw]
      simp

/-- The scan of a block answers if every move in it has a first operand. -/
theorem useDefFrom_ok_iff (use defs : BitSet) (code : List Instr) :
    (∃ r, useDefFrom use defs code = .ok r) ↔ ∀ i ∈ code, i.HasTarget := by
  induction code generalizing use defs with
  | nil => exact ⟨fun _ => by simp, fun _ => ⟨_, rfl⟩⟩
  | cons i code ih =>
    rw [List.forall_mem_cons]
    by_cases htarget : i.HasTarget
    · obtain ⟨use1, defs1, hstep, -⟩ := useDefFrom_cons htarget use defs
      rw [hstep, ih]
      exact ⟨fun h => ⟨htarget, h⟩, fun h => h.2⟩
    · refine ⟨?_, fun h => absurd h.1 htarget⟩
      rcases reads_cases i with ⟨-, hreads⟩ | ⟨htarget', -⟩
      · rintro ⟨r, hr⟩
        rw [useDefFrom, hreads] at hr
        cases hr
      · exact absurd htarget' htarget

/-- The scan finds what the code reads before writing it, and what it writes. The induction is on the
code still to come: what comes before it has written `defs`. -/
theorem useDefFrom_contains {use defs use' defs' : BitSet} {code : List Instr}
    (h : useDefFrom use defs code = .ok (use', defs')) (id : Nat) :
    (use'.contains id ↔ use.contains id ∨ defs.contains id = false ∧ ReadsFirst code id) ∧
      (defs'.contains id ↔ defs.contains id ∨ ∃ i ∈ code, i.Writes id) := by
  induction code generalizing use defs with
  | nil =>
    cases h
    simp [not_readsFirst_nil]
  | cons i code ih =>
    have htarget : i.HasTarget :=
      (useDefFrom_ok_iff use defs (i :: code)).mp ⟨_, h⟩ i List.mem_cons_self
    obtain ⟨use1, defs1, hstep, hreads, hwrites⟩ := useDefFrom_cons htarget use defs
    rw [hstep] at h
    obtain ⟨huse, hdefs⟩ := ih h
    rw [huse, hdefs, hreads, ← Bool.not_eq_true, ← Bool.not_eq_true, hwrites, readsFirst_cons]
    constructor
    · rw [not_or, and_or_left, or_assoc, and_assoc]
    · simp [or_assoc]

/-! ## The flow of control -/

theorem mem_nextBlock (f : Func) (b c : Nat) : c ∈ nextBlock f b ↔ c = b + 1 ∧ b + 1 < f.blocks.length := by
  rw [nextBlock]
  by_cases hlt : b + 1 < f.blocks.length
  · simp [hlt]
  · simp [hlt]

/-- Only jumps have a target. -/
theorem jumps_of_target {l : String} (h : i.target = .ok (some l)) : i.op = .jump ∨ i.op = .cjump := by
  rw [Instr.target] at h
  cases hop : i.op with
  | jump => exact .inl rfl
  | cjump => exact .inr rfl
  | _ =>
    rw [hop] at h
    cases h

/-- The flow of control out of a block, read off its last instruction. -/
theorem flows_iff (hB : f.blocks[b]? = some B) (c : Nat) : f.Flows b c ↔
      (∃ i l, B.code.getLast? = some i ∧ i.target = .ok (some l) ∧ f.blockIndex? l = some c) ∨
        c ∈ nextBlock f b ∧ ∀ i, B.code.getLast? = some i → i.op ≠ .ret ∧ i.op ≠ .jump := by
  rw [mem_nextBlock]
  constructor
  · intro h
    cases h with
    | target hB' hlast htarget hc =>
      obtain rfl := Option.some.inj (hB.symm.trans hB')
      exact .inl ⟨_, _, hlast, htarget, hc⟩
    | next hB' hlt hlast =>
      obtain rfl := Option.some.inj (hB.symm.trans hB')
      exact .inr ⟨⟨rfl, hlt⟩, hlast⟩
  · rintro (⟨i, l, hlast, htarget, hc⟩ | ⟨⟨rfl, hlt⟩, hlast⟩)
    · exact .target hB hlast htarget hc
    · exact .next hB hlt hlast

/-- The successors of a block are the blocks that control can go to. -/
theorem successors_flows (hB : f.blocks[b]? = some B)
    (hjump : ∀ i, B.code.getLast? = some i → i.JumpsInto (f.blocks.map (·.label))) :
    ∃ succ, successors f b B = .ok succ ∧ ∀ c, c ∈ succ ↔ f.Flows b c := by
  rw [successors]
  cases hlast : B.code.getLast? with
  | none =>
    refine ⟨_, rfl, fun c => ?_⟩
    rw [flows_iff hB]
    simp [hlast]
  | some i =>
    simp only [flows_iff hB, hlast, Option.some.injEq, forall_eq', exists_eq_left', exists_and_left]
    by_cases hret : i.op = .ret
    · -- nothing comes after a return
      refine ⟨[], by rw [if_pos hret], fun c => ?_⟩
      simp only [List.not_mem_nil, hret, ne_eq, not_true_eq_false, false_and, and_false, or_false,
        false_iff]
      rintro ⟨l, htarget, -⟩
      rcases jumps_of_target htarget with hop | hop <;> rw [hret] at hop <;> cases hop
    · rw [if_neg hret]
      by_cases hop : i.op = .jump ∨ i.op = .cjump
      · obtain ⟨l, hl, htarget⟩ := hjump i hlast hop
        obtain ⟨k, hk, -⟩ := blockIndex_of_mem hl
        rw [if_pos (by simpa using hop), htarget]
        simp only [bind, Except.bind, Option.getD_some, hk]
        rcases hop with hop | hop
        · refine ⟨[k], by rw [if_neg (by simp [hop])]; rfl, fun c => ?_⟩
          simp [hop, hk, eq_comm]
        · refine ⟨k :: (nextBlock f b).filter (· != k), by rw [if_pos hop]; rfl, fun c => ?_⟩
          by_cases hck : c = k
          · simp [hck, hk]
          · simp [hop, hck, hk, Ne.symm hck]
      · rw [if_neg (by simpa using hop)]
        refine ⟨_, rfl, fun c => ?_⟩
        rw [not_or] at hop
        simp only [ne_eq, hret, hop.1, not_false_eq_true, and_self, and_true]
        refine ⟨.inr, ?_⟩
        rintro (⟨l, htarget, -⟩ | hc)
        · rcases jumps_of_target htarget with h | h
          · exact absurd h hop.1
          · exact absurd h hop.2
        · exact hc

theorem flows_lt {c : Nat} (h : f.Flows b c) : c < f.blocks.length := by
  cases h with
  | target _ _ _ hc => exact (List.findIdx?_eq_some_iff_getElem.mp hc).1
  | next _ hlt _ => exact hlt

/-! ## From blocks to instructions -/

/-- Facts about the blocks of a function: what each reads before writing it, what it writes, and where
control goes from it. -/
structure Describes (f : Func) (bs : List Facts) : Prop where
  length : bs.length = f.blocks.length
  block : ∀ (i : Nat) (B : Block), f.blocks[i]? = some B → ∃ x, bs[i]? = some x ∧
    (∀ id, x.use.contains id = true ↔ ReadsFirst B.code id) ∧
    (∀ id, x.defs.contains id = true ↔ ∃ j ∈ B.code, j.Writes id) ∧
    ∀ c, c ∈ x.succ ↔ f.Flows i c

/-- The jumps at the ends of the blocks go to blocks. -/
def TargetsExist (f : Func) : Prop :=
  ∀ b ∈ f.blocks, ∀ i, b.code.getLast? = some i → i.JumpsInto (f.blocks.map (·.label))

/-- The equations can be set up if every move has a first operand, and then they describe the
function. -/
theorem equations_describes (hjumps : TargetsExist f) :
    ((∃ bs, equations f = .ok bs) ↔ ∀ b ∈ f.blocks, ∀ i ∈ b.code, i.HasTarget) ∧
      ∀ bs, equations f = .ok bs → Describes f bs ∧ Fresh bs := by
  obtain ⟨succs, hsuccs, hlen, -⟩ :=
    Outcome.mapM_ok (f := fun p : Block × Nat => successors f p.2 p.1) (P := fun _ => True)
      f.blocks.zipIdx fun p hp => by
      obtain ⟨succ, hsucc, -⟩ := successors_flows (List.mem_zipIdx_iff_getElem?.mp hp)
        (hjumps p.1 (List.fst_mem_of_mem_zipIdx hp))
      exact ⟨succ, hsucc, trivial⟩
  rw [List.length_zipIdx] at hlen
  have heq : equations f = (f.blocks.zip succs).mapM fun p => do
      let r ← useDef p.1
      return Facts.start r.1 r.2 p.2 := by
    rw [equations, hsuccs]
    rfl
  -- block by block: its successors, and its entry in the equations
  have hblock : ∀ bs, equations f = .ok bs → ∀ (i : Nat) (B : Block), f.blocks[i]? = some B →
      ∃ use defs succ, bs[i]? = some (Facts.start use defs succ) ∧
        useDef B = .ok (use, defs) ∧ ∀ c, c ∈ succ ↔ f.Flows i c := by
    intro bs hbs i B hB
    rw [heq] at hbs
    have hindex : f.blocks.zipIdx[i]? = some (B, i) := by
      rw [List.getElem?_zipIdx, hB]
      simp
    obtain ⟨succ, hsucc, hsuccB⟩ := Outcome.getElem?_mapM hsuccs hindex
    obtain ⟨succ', hsuccB', hflows⟩ :=
      successors_flows hB (hjumps B (List.mem_of_getElem? hB))
    obtain rfl : succ = succ' := Except.ok.inj (hsuccB.symm.trans hsuccB')
    have hpair : (f.blocks.zip succs)[i]? = some (B, succ) :=
      List.getElem?_zip_eq_some.mpr ⟨hB, hsucc⟩
    obtain ⟨x, hx, hentry⟩ := Outcome.getElem?_mapM hbs hpair
    obtain ⟨⟨use, defs⟩, huse, hstart⟩ := Outcome.bind_ok hentry
    cases hstart
    exact ⟨use, defs, succ, hx, huse, hflows⟩
  refine ⟨⟨?_, ?_⟩, ?_⟩
  · rintro ⟨bs, hbs⟩ B hB
    obtain ⟨i, hi⟩ := List.getElem?_of_mem hB
    obtain ⟨use, defs, -, -, huse, -⟩ := hblock bs hbs i B hi
    exact (useDefFrom_ok_iff ∅ ∅ B.code).mp ⟨_, huse⟩
  · intro htargets
    obtain ⟨bs, hbs, -⟩ := Outcome.mapM_ok (f := fun p : Block × List Nat => do
        let r ← useDef p.1
        return Facts.start r.1 r.2 p.2) (P := fun _ => True) (f.blocks.zip succs) fun p hp => by
      obtain ⟨r, hr⟩ :=
        (useDefFrom_ok_iff ∅ ∅ p.1.code).mpr (htargets p.1 (List.of_mem_zip hp).1)
      refine ⟨Facts.start r.1 r.2 p.2, ?_, trivial⟩
      rw [useDef, hr]
      rfl
    exact ⟨bs, heq.trans hbs⟩
  · intro bs hbs
    have hlength : bs.length = f.blocks.length := by
      rw [heq] at hbs
      rw [← (Outcome.mapM_eq_ok_iff.mp hbs).length_eq, List.length_zip, hlen, Nat.min_self]
    refine ⟨⟨hlength, fun i B hB => ?_⟩, fun x hx => ?_⟩
    · obtain ⟨use, defs, succ, hx, huse, hflows⟩ := hblock bs hbs i B hB
      have hscan := useDefFrom_contains huse
      refine ⟨_, hx, fun id => (hscan id).1.trans ?_, fun id => (hscan id).2.trans ?_, hflows⟩
      · simp
      · simp
    · obtain ⟨i, hi⟩ := List.getElem?_of_mem hx
      have hlt := (List.getElem?_eq_some_iff.mp hi).1
      rw [hlength] at hlt
      obtain ⟨use, defs, succ, hx', -⟩ := hblock bs hbs i _ (List.getElem?_eq_getElem hlt)
      obtain rfl := Option.some.inj (hi.symm.trans hx')
      exact fun t => ⟨BitSet.contains_empty t, BitSet.contains_empty t⟩

/-- Control goes through instructions that do not write a temporary, one after the other. -/
theorem passes_code {id : Nat} (hB : f.blocks[b]? = some B) {done rest : List Instr}
    (hcode : B.code = done ++ rest) (hkeep : ∀ j ∈ done, ¬ j.Writes id) :
    Relation.ReflTransGen (f.Passes id) (b, 0) (b, done.length) := by
  induction done using List.reverseRecOn generalizing rest with
  | nil => exact .refl
  | append_singleton done i ih =>
    have hbefore : B.code = done ++ i :: rest := by
      rw [hcode]
      simp
    have hpath := ih hbefore fun j hj => hkeep j (List.mem_append_left _ hj)
    have hi : B.code[done.length]? = some i := by
      rw [hbefore]
      simp
    rw [List.length_append]
    exact hpath.tail (.instr hB hi (hkeep i (by simp)))

section

variable {f : Func} {bs : List Facts} {id : Nat} (h : Describes f bs)

include h

/-- The facts of a block are about a block. -/
theorem Describes.facts {i : Nat} {x : Facts} (hx : bs[i]? = some x) :
    ∃ B, f.blocks[i]? = some B ∧ (∀ id, x.use.contains id ↔ ReadsFirst B.code id) ∧
      (∀ id, x.defs.contains id ↔ ∃ j ∈ B.code, j.Writes id) ∧ ∀ c, c ∈ x.succ ↔ f.Flows i c := by
  have hlt := (List.getElem?_eq_some_iff.mp hx).1
  rw [h.length] at hlt
  have hB := List.getElem?_eq_getElem hlt
  obtain ⟨x', hx', hfacts⟩ := h.block i _ hB
  obtain rfl := Option.some.inj (hx.symm.trans hx')
  exact ⟨_, hB, hfacts⟩

/-- What is live by the equations is live along a path. -/
theorem Describes.liveFrom {b : Nat} (hlive : LiveAt bs id b) : f.LiveFrom id b := by
  induction hlive with
  | @use i x hx huse =>
    obtain ⟨B, hB, huses, -⟩ := h.facts hx
    obtain ⟨done, j, rest, hcode, hreads, hkeep⟩ := (huses id).mp huse
    refine ⟨(i, done.length), passes_code hB hcode hkeep, B, j, hB, ?_, hreads⟩
    simp [hcode]
  | @through i c x hx hdefs hc _ ih =>
    obtain ⟨B, hB, -, hwrites, hflows⟩ := h.facts hx
    obtain ⟨p, hpath, hread⟩ := ih
    have hkeep : ∀ j ∈ B.code, ¬ j.Writes id := by
      intro j hj hw
      rw [(hwrites id).mpr ⟨j, hj, hw⟩] at hdefs
      cases hdefs
    have hthrough := passes_code hB (List.append_nil B.code).symm hkeep
    exact ⟨p, (hthrough.tail (.leave hB ((hflows c).mp hc))).trans hpath, hread⟩

/-- A temporary is live in front of some code of block `b`, the rest of it: the code reads it first, or
does not write it, and it is live after the block. -/
def LiveBefore (f : Func) (bs : List Facts) (id b : Nat) (code : List Instr) : Prop :=
  ReadsFirst code id ∨ (∀ j ∈ code, ¬ j.Writes id) ∧ ∃ c, f.Flows b c ∧ LiveAt bs id c

theorem Describes.liveAt_of_liveBefore {b : Nat} {B : Block} (hB : f.blocks[b]? = some B)
    (hlive : LiveBefore f bs id b B.code) : LiveAt bs id b := by
  obtain ⟨x, hx, huses, hwrites, hflows⟩ := h.block b B hB
  rcases hlive with hreads | ⟨hkeep, c, hc, hlive⟩
  · exact .use hx ((huses id).mpr hreads)
  · refine .through hx (Bool.eq_false_iff.mpr fun hdefs => ?_) ((hflows c).mpr hc) hlive
    obtain ⟨j, hj, hw⟩ := (hwrites id).mp hdefs
    exact hkeep j hj hw

/-- Along a path to a read, the temporary is live in front of the rest of the block that the path is
in. The induction is on the path, from its end. -/
theorem Describes.liveBefore {p q : Nat × Nat} (hread : f.ReadsAt id p)
    (hpath : Relation.ReflTransGen (f.Passes id) q p) {B : Block} (hB : f.blocks[q.1]? = some B) :
    LiveBefore f bs id q.1 (B.code.drop q.2) := by
  induction hpath using Relation.ReflTransGen.head_induction_on generalizing B with
  | refl =>
    obtain ⟨B', i, hB', hi, hreads⟩ := hread
    obtain rfl := Option.some.inj (hB.symm.trans hB')
    rw [List.drop_eq_getElem?_toList_append, hi]
    exact .inl ((readsFirst_cons i _ id).mpr (.inl hreads))
  | head hstep _ ih =>
    cases hstep with
    | @instr b k B' i hB' hi hkeep =>
      obtain rfl := Option.some.inj (hB.symm.trans hB')
      rw [List.drop_eq_getElem?_toList_append, hi]
      rcases ih hB with hreads | ⟨hrest, hafter⟩
      · exact .inl ((readsFirst_cons i _ id).mpr (.inr ⟨hkeep, hreads⟩))
      · exact .inr ⟨List.forall_mem_cons.mpr ⟨hkeep, hrest⟩, hafter⟩
    | @leave b c B' hB' hflows =>
      -- the path goes on at the start of a successor, where the temporary is live
      obtain rfl := Option.some.inj (hB.symm.trans hB')
      have hC := List.getElem?_eq_getElem (flows_lt hflows)
      have hlive := h.liveAt_of_liveBefore hC (ih hC)
      refine Or.inr ⟨?_, c, hflows, hlive⟩
      simp

/-- A temporary is live for the solver's equations exactly if it is live along a path of
instructions. -/
theorem Describes.liveAt_iff_liveFrom (b : Nat) (hb : b < f.blocks.length) :
    LiveAt bs id b ↔ f.LiveFrom id b := by
  refine ⟨h.liveFrom, ?_⟩
  rintro ⟨p, hpath, hread⟩
  have hB := List.getElem?_eq_getElem hb
  exact h.liveAt_of_liveBefore hB (h.liveBefore hread hpath hB)

end

/-! ## The analysis -/

/-- If the jumps at the ends of blocks go to blocks, the analysis answers exactly if every move has a
first operand, and its answer is exact: a temporary is in the set of the start of a block if and only
if control can go from there to an instruction that reads it past none that writes it, and in the set
of the end of a block if and only if it is in that of the start of a block that control can go to. -/
theorem analyze_live_iff {f : Func} (hjumps : TargetsExist f) :
    ((∃ r, analyze f = .ok r) ↔ ∀ b ∈ f.blocks, ∀ i ∈ b.code, i.HasTarget) ∧
      ∀ r n, analyze f = .ok (r, n) → r.length = f.blocks.length ∧ ∀ b x, r[b]? = some x → ∀ id,
          (x.liveIn.contains id = true ↔ f.LiveFrom id b) ∧
          (x.liveOut.contains id = true ↔
            ∃ c, f.Flows b c ∧ ∃ y, r[c]? = some y ∧ y.liveIn.contains id = true) := by
  obtain ⟨hanswers, hdescribes⟩ := equations_describes hjumps
  have hsolve : ∀ bs, equations f = .ok bs → ∃ r n, analyze f = .ok (r, n) ∧
      r.length = f.blocks.length ∧ ∀ b x, r[b]? = some x → ∀ id,
        (x.liveIn.contains id = true ↔ f.LiveFrom id b) ∧
        (x.liveOut.contains id = true ↔ ∃ c, f.Flows b c ∧ f.LiveFrom id c) := by
    intro bs hbs
    obtain ⟨hdesc, hfresh⟩ := hdescribes bs hbs
    have hsucc : ∀ x ∈ bs, ∀ c ∈ x.succ, c < bs.length := by
      intro x hx c hc
      obtain ⟨i, hi⟩ := List.getElem?_of_mem hx
      obtain ⟨B, -, -, -, hflows⟩ := hdesc.facts hi
      rw [hdesc.length]
      exact flows_lt ((hflows c).mp hc)
    obtain ⟨r, n, hr, hlen, hlive⟩ := solve_live hfresh hsucc
    refine ⟨r, n, ?_, hlen.trans hdesc.length, fun b x hx id => ?_⟩
    · rw [analyze, hbs]
      exact hr
    · have hb : b < bs.length := by
        rw [← hlen]
        exact (List.getElem?_eq_some_iff.mp hx).1
      have hy := List.getElem?_eq_getElem hb
      obtain ⟨x', hx', hin, hout⟩ := hlive b _ hy
      obtain rfl := Option.some.inj (hx.symm.trans hx')
      obtain ⟨B, -, -, -, hflows⟩ := hdesc.facts hy
      rw [hin, hout, hdesc.liveAt_iff_liveFrom b (hdesc.length ▸ hb)]
      refine ⟨Iff.rfl, exists_congr fun c => ?_⟩
      rw [hflows]
      exact and_congr_right fun hc => hdesc.liveAt_iff_liveFrom c (flows_lt hc)
  refine ⟨?_, ?_⟩
  · rw [← hanswers]
    constructor
    · rintro ⟨r, hr⟩
      obtain ⟨bs, hbs, -⟩ := Outcome.bind_ok hr
      exact ⟨bs, hbs⟩
    · rintro ⟨bs, hbs⟩
      obtain ⟨r, n, hr, -⟩ := hsolve bs hbs
      exact ⟨_, hr⟩
  · intro r n hr
    obtain ⟨bs, hbs, -⟩ := Outcome.bind_ok hr
    obtain ⟨r', n', hr', hlen, hlive⟩ := hsolve bs hbs
    cases Except.ok.inj (hr.symm.trans hr')
    refine ⟨hlen, fun b x hx id => ⟨(hlive b x hx id).1, ?_⟩⟩
    rw [(hlive b x hx id).2]
    refine exists_congr fun c => and_congr_right fun hc => ?_
    have hlt := flows_lt hc
    rw [← hlen] at hlt
    have hy := List.getElem?_eq_getElem hlt
    constructor
    · intro hfrom
      exact ⟨_, hy, (hlive c _ hy id).1.mpr hfrom⟩
    · rintro ⟨y, hy', hin⟩
      exact (hlive c y hy' id).1.mp hin

/-- A loop that counts `t0` from the value of a parameter up to 10 and returns it. -/
def countLoop : Func :=
  let t0 : Operand := .temp ⟨0, .int⟩
  let n : Local := ⟨0, "n", .int, true⟩
  { name := "count", ret := .int, isPublic := false, external := false, locals := [n]
    temps := [⟨0, .int⟩, ⟨1, .bool⟩, ⟨2, .int⟩]
    blocks := [⟨".L0", [⟨.move, none, [t0, .var n]⟩, ⟨.jump, none, [.label ".L1"]⟩]⟩,
      ⟨".L1", [⟨.lt, some ⟨1, .bool⟩, [t0, .int 10 .int]⟩,
        ⟨.cjump, none, [.temp ⟨1, .bool⟩, .label ".L3", .int 0 .bool]⟩]⟩,
      ⟨".L2", [⟨.add, some ⟨2, .int⟩, [t0, .int 1 .int]⟩, ⟨.move, none, [t0, .temp ⟨2, .int⟩]⟩,
        ⟨.jump, none, [.label ".L1"]⟩]⟩,
      ⟨".L3", [⟨.ret, none, [t0]⟩]⟩] }

theorem countLoop_targetsExist : TargetsExist countLoop := by
  intro b hb i hi hop
  simp only [countLoop, List.mem_cons, List.not_mem_nil, or_false] at hb
  rcases hb with rfl | rfl | rfl | rfl
  · cases hi
    exact ⟨".L1", by decide, rfl⟩
  · cases hi
    exact ⟨".L3", by decide, rfl⟩
  · cases hi
    exact ⟨".L1", by decide, rfl⟩
  · cases hi
    exact absurd hop (by decide)

/-- In the loop, what is counted is live at the start of the loop's head, and the sum and the outcome
of the comparison are not. -/
theorem analyze_live_iff_countLoop : TargetsExist countLoop ∧ countLoop.LiveFrom 0 1 ∧
    ¬ countLoop.LiveFrom 1 1 ∧ ¬ countLoop.LiveFrom 2 1 := by
  obtain ⟨⟨r, n⟩, hanswer, hhead⟩ := Outcome.exists_ok_of_any (x := analyze countLoop)
    (P := fun r => (r.1[1]?.map fun x => x.liveIn.toList) = some [0]) rfl
  obtain ⟨x, hx, hin⟩ := Option.map_eq_some_iff.mp hhead
  obtain ⟨-, hsets⟩ := (analyze_live_iff countLoop_targetsExist).2 r n hanswer
  have hiff : ∀ id, countLoop.LiveFrom id 1 ↔ id ∈ [0] := by
    intro id
    rw [← (hsets 1 x hx id).1, ← BitSet.mem_toList, hin]
  refine ⟨countLoop_targetsExist, ?_, ?_, ?_⟩
  · rw [hiff]
    decide
  · rw [hiff]
    decide
  · rw [hiff]
    decide

end TreeAsm.Liveness
