import Mathlib.Data.Set.Lattice
import TreeAsm.Proofs.Liveness.Solver

/-!
# The solution of the liveness equations

What the solver answers is the least solution of the equations, and it has really run out of blocks to
visit: with more visits it would answer the same (`solve_least`). A second run on the answer visits
every block once and changes no word of any set (`solve_solved`). For this a block that does not wait
has to be more than settled: merging the starts of its successors into its end once more must leave
even the number of words as it is (`Facts.Final`). If control only goes on to later blocks, the first
run visits every block once already, because all blocks that could wait again still do
(`solve_forward`).
-/

namespace TreeAsm

namespace BitSet

/-- The members of a set. -/
def members (s : BitSet) : Set Nat := {t | s.contains t = true}

/-! ## Unions that change nothing

Sets with the same members can have different numbers of words, so these are equations of words. -/

theorem mergeWords_nil (s : List (BitVec 64)) : (mergeWords s []).2 = s := by
  cases s <;> rfl

theorem mergeWords_mergeWords (s x : List (BitVec 64)) :
    (mergeWords (mergeWords s x).2 x).2 = (mergeWords s x).2 := by
  induction x generalizing s with
  | nil => exact mergeWords_nil _
  | cons x xs ih =>
    cases s with
    | nil => simp [mergeWords, ih]
    | cons w ws => simp [mergeWords, ih, BitVec.or_assoc]

theorem mergeWords_absorb {s x : List (BitVec 64)} (h : (mergeWords s x).2 = s)
    (y : List (BitVec 64)) : (mergeWords (mergeWords s y).2 x).2 = (mergeWords s y).2 := by
  induction x generalizing s y with
  | nil => exact mergeWords_nil _
  | cons x xs ih =>
    cases s with
    | nil => simp [mergeWords] at h
    | cons w ws =>
      cases y with
      | nil => rw [mergeWords_nil, h]
      | cons y ys =>
        simp only [mergeWords, List.cons.injEq] at h ⊢
        refine ⟨?_, ih h.2 ys⟩
        rw [BitVec.or_assoc, BitVec.or_comm y x, ← BitVec.or_assoc, h.1]

theorem union_union (s x : BitSet) : (s.union x).union x = s.union x :=
  congrArg BitSet.mk (mergeWords_mergeWords s.words x.words)

/-- A set that a union does not change is not changed by it after another union either. -/
theorem union_absorb {s x : BitSet} (h : s.union x = s) (y : BitSet) : (s.union y).union x = s.union y :=
  congrArg BitSet.mk (mergeWords_absorb (congrArg BitSet.words h) y.words)

theorem equal_self (s : BitSet) : s.equal s := (equal_iff s s).mpr fun _ => Iff.rfl

end BitSet

namespace Liveness

variable {i : Nat} {bs : List Facts} {s : Search}

/-! ## What every run keeps -/

/-- What every visit of the first block that waits preserves is preserved by a run. -/
theorem Search.run_induction {P : Search → Prop}
    (hvisit : ∀ (blocks : List Facts) (i : Nat) (q : List Nat) (n : Nat), P ⟨blocks, i :: q, n⟩ →
      P (Search.visit ⟨blocks, q, n⟩ i)) (fuel : Nat) (h : P s) : P (Search.run fuel s) := by
  induction fuel generalizing s with
  | zero => exact h
  | succ fuel ih =>
    obtain ⟨blocks, queue, n⟩ := s
    cases queue with
    | nil => exact h
    | cons i q => exact ih (hvisit blocks i q n h)

variable {b : Facts} {α : Type} {n fuel : Nat} {blocks xs : List Facts}

/-- A run whose worklist is empty goes no further. -/
theorem Search.run_of_le {more : Nat} (h : (Search.run fuel s).queue = []) (hle : fuel ≤ more) :
    Search.run more s = Search.run fuel s := by
  induction fuel generalizing s more with
  | zero =>
    obtain ⟨blocks, queue, n⟩ := s
    obtain rfl : queue = [] := h
    cases more <;> rfl
  | succ fuel ih =>
    obtain ⟨blocks, queue, n⟩ := s
    obtain ⟨more, rfl⟩ : ∃ k, more = k + 1 := ⟨more - 1, by omega⟩
    cases queue with
    | nil => rfl
    | cons i q => exact ih h (by omega)

theorem Search.visit_none (h : s.blocks[i]? = none) : s.visit i = { s with visits := s.visits + 1 } := by
  unfold Search.visit
  rw [h]

/-- An entry of a list is replaced by itself. -/
theorem set_of_getElem? {xs : List α} {x : α} (h : xs[i]? = some x) : xs.set i x = xs := by
  obtain ⟨hlt, rfl⟩ := List.getElem?_eq_some_iff.mp h
  exact List.set_getElem_self hlt

/-- A visit changes of the blocks only what is live. -/
theorem Search.map_visit {f : Facts → α}
    (hf : ∀ b out live, f { b with liveOut := out, liveIn := live } = f b) (s : Search) (i : Nat) :
    (s.visit i).blocks.map f = s.blocks.map f := by
  cases hb : s.blocks[i]? with
  | none => rw [Search.visit_none hb]
  | some b =>
    have hset : ∀ new, f new = f b → (s.blocks.set i new).map f = s.blocks.map f := by
      intro new hnew
      rw [List.map_set, hnew]
      refine set_of_getElem? ?_
      rw [List.getElem?_map, hb]
      rfl
    rcases Search.visit_cases hb with ⟨-, hvisit⟩ | ⟨-, hvisit⟩
    · rw [hvisit]
      exact hset _ (hf b _ b.liveIn)
    · rw [hvisit]
      exact hset _ (hf b _ _)

theorem Search.map_run {f : Facts → α}
    (hf : ∀ b out live, f { b with liveOut := out, liveIn := live } = f b) (fuel : Nat) (s : Search)
    : (Search.run fuel s).blocks.map f = s.blocks.map f :=
  Search.run_induction (P := fun t => t.blocks.map f = s.blocks.map f)
    (fun _ _ _ _ h => (Search.map_visit hf _ _).trans h) fuel rfl

theorem map_linked {f : Facts → α} (hf : ∀ b pred, f { b with pred := pred } = f b)
    (bs : List Facts) : (linked bs).map f = bs.map f := by
  rw [linked_eq, List.map_map]
  calc bs.zipIdx.map _ = (bs.zipIdx.map Prod.fst).map f := by
        rw [List.map_map]
        exact List.map_congr_left fun p _ => hf p.1 _
    _ = bs.map f := by rw [List.zipIdx_map_fst]

/-- Lists of blocks that agree on `f` have blocks at the same places that agree on it. -/
theorem getElem?_of_map {f : Facts → α} {ys : List Facts} (h : xs.map f = ys.map f)
    (hb : xs[i]? = some b) : ∃ c, ys[i]? = some c ∧ f c = f b := by
  have hi := congrArg (·[i]?) h
  simp only [List.getElem?_map, hb] at hi
  exact Option.map_eq_some_iff.mp hi.symm

theorem pred_of_map (h : xs.map (·.pred) = (linked bs).map (·.pred)) (hb : xs[i]? = some b)
    : b.pred = predecessors (bs.map (·.succ)) i := by
  obtain ⟨c, hc, hpred⟩ := getElem?_of_map h hb
  obtain ⟨b0, -, rfl⟩ := getElem?_linked hc
  exact hpred.symm

/-- Linked blocks stay as they are when they are linked again. -/
theorem linked_of_pred (h : ∀ i b, bs[i]? = some b → b.pred = predecessors (bs.map (·.succ)) i) :
    linked bs = bs := by
  refine List.ext_getElem? fun i => ?_
  rw [linked_eq, List.getElem?_map, List.getElem?_zipIdx, Option.map_map]
  cases hb : bs[i]? with
  | none => rfl
  | some b =>
    rw [Option.map_some, ← Nat.zero_add i]
    exact congrArg some (by simp only [Function.comp, Nat.zero_add, ← h i b hb])

/-- The solver answers exactly if every successor is a block. -/
theorem solve_eq (bs : List Facts) : solve bs =
    if (bs.map (·.succ)).all fun succ => succ.all (· < bs.length) then
      .ok ((Search.run (visitBound bs) ⟨linked bs, allQueued bs.length, 0⟩).blocks,
        (Search.run (visitBound bs) ⟨linked bs, allQueued bs.length, 0⟩).visits) else .crash := by
  rw [solve, List.all_map]
  rfl

/-! ## Blocks on which a visit has no effect -/

/-- What is live at the end of a block after the start of successor `c` was merged into it. -/
def mergeStart (bs : List Facts) (out : BitSet) (c : Nat) : BitSet :=
  match bs[c]? with
  | some x => out.union x.liveIn
  | none => out

theorem Facts.join_eq_foldl (bs : List Facts) (b : Facts) :
    b.join bs = b.succ.foldl (mergeStart bs) b.liveOut := rfl

theorem mergeStart_absorb {out : BitSet} {c : Nat} (h : mergeStart bs out c = out) (d : Nat) :
    mergeStart bs (mergeStart bs out d) c = mergeStart bs out d := by
  unfold mergeStart at h ⊢
  cases hc : bs[c]? with
  | none => rfl
  | some x =>
    rw [hc] at h
    cases hd : bs[d]? with
    | none => exact h
    | some y => exact BitSet.union_absorb h y.liveIn

theorem mergeStart_mergeStart (out : BitSet) (c : Nat) :
    mergeStart bs (mergeStart bs out c) c = mergeStart bs out c := by
  unfold mergeStart
  cases bs[c]? with
  | none => rfl
  | some x => exact BitSet.union_union out x.liveIn

/-- Merging the starts of successors leaves each of them merged. -/
theorem foldl_mergeStart (succ : List Nat) (out : BitSet) (c : Nat)
    (h : c ∈ succ ∨ mergeStart bs out c = out) :
    mergeStart bs (succ.foldl (mergeStart bs) out) c = succ.foldl (mergeStart bs) out := by
  induction succ generalizing out with
  | nil => exact h.resolve_left List.not_mem_nil
  | cons d succ ih =>
    refine ih (mergeStart bs out d) ?_
    rcases h with h | h
    · rcases List.mem_cons.mp h with rfl | h
      · exact .inr (mergeStart_mergeStart out c)
      · exact .inl h
    · exact .inr (mergeStart_absorb h d)

/-- Joining a second time changes no word. -/
theorem Facts.join_join (bs : List Facts) (b : Facts) :
    Facts.join bs { b with liveOut := b.join bs } = b.join bs := by
  have hkeep : ∀ (succ : List Nat) (out : BitSet), (∀ c ∈ succ, mergeStart bs out c = out) →
      succ.foldl (mergeStart bs) out = out := by
    intro succ out hmerged
    induction succ with
    | nil => rfl
    | cons d succ ih =>
      rw [List.foldl_cons, hmerged d List.mem_cons_self]
      exact ih fun c hc => hmerged c (List.mem_cons_of_mem d hc)
  exact hkeep b.succ (b.join bs) fun c hc => foldl_mergeStart b.succ b.liveOut c (.inl hc)

/-- What a block joins depends on the starts of its successors alone. -/
theorem Facts.join_set (hb : bs[i]? = some b) {new : Facts} (c : Facts)
    (h : new.liveIn = b.liveIn ∨ i ∉ c.succ) : c.join (bs.set i new) = c.join bs := by
  rw [Facts.join_eq_foldl, Facts.join_eq_foldl]
  refine List.foldl_ext _ _ _ fun out d hd => ?_
  unfold mergeStart
  by_cases hdi : i = d
  · subst hdi
    have hlive : new.liveIn = b.liveIn := h.resolve_right fun hno => hno hd
    rw [List.getElem?_set_self', hb]
    exact congrArg out.union hlive
  · rw [List.getElem?_set_ne hdi]

/-- A visit of the block would have no effect. -/
structure Facts.Final (bs : List Facts) (b : Facts) : Prop where
  out : b.join bs = b.liveOut
  start : (b.transfer b.liveOut).equal b.liveIn = true

/-- All blocks that do not wait are final. -/
def Search.Stable (s : Search) : Prop :=
  ∀ i b, s.blocks[i]? = some b → i ∉ s.queue → b.Final s.blocks

/-- The step lemma. The block that is visited becomes final unless it is its own successor and has
changed, and others stay final unless they wait again. -/
theorem Search.Stable.visit {q : List Nat} (h : Search.Stable ⟨blocks, i :: q, n⟩)
    (hinv : Search.Inv bs ⟨blocks, i :: q, n⟩) : (Search.visit ⟨blocks, q, n⟩ i).Stable := by
  cases hb : blocks[i]? with
  | none =>
    rw [Search.visit_none hb]
    intro j c hc hj
    refine h j c hc fun hmem => ?_
    rcases List.mem_cons.mp hmem with rfl | hmem
    · exact absurd (hb.symm.trans hc) (by simp)
    · exact hj hmem
  | some b =>
    -- what holds of the other blocks, as long as they do not see a change
    have hothers : ∀ (new : Facts) (j : Nat) (c : Facts), j ≠ i → blocks[j]? = some c → j ∉ q →
        (new.liveIn = b.liveIn ∨ i ∉ c.succ) → c.Final (blocks.set i new) := by
      intro new j c hne hc hj hsame
      have hold := h j c hc fun hmem => (List.mem_cons.mp hmem).elim hne hj
      exact ⟨(Facts.join_set hb c hsame).trans hold.out, hold.start⟩
    rcases Search.visit_cases (s := ⟨blocks, q, n⟩) hb with ⟨heq, hvisit⟩ | ⟨-, hvisit⟩
    · rw [hvisit]
      intro j c hc hj
      rcases getElem?_set_cases hc with ⟨rfl, rfl⟩ | ⟨hne, hc⟩
      · have hsame : Facts.join (blocks.set j { b with liveOut := b.join blocks })
            { b with liveOut := b.join blocks }
            = Facts.join blocks { b with liveOut := b.join blocks } :=
          Facts.join_set hb _ (.inl rfl)
        exact ⟨hsame.trans (Facts.join_join blocks b), heq⟩
      · exact hothers _ j c hne hc hj (.inl rfl)
    · rw [hvisit]
      intro j c hc hj
      rw [mem_enqueueAll, not_or] at hj
      rcases getElem?_set_cases hc with ⟨rfl, rfl⟩ | ⟨hne, hc⟩
      · have hself : j ∉ b.succ := fun hmem => hj.1 (hinv.linked j b j b hb hb hmem)
        have hsame : Facts.join (blocks.set j (b.visited blocks)) (b.visited blocks)
            = Facts.join blocks (b.visited blocks) := Facts.join_set hb _ (.inr hself)
        exact ⟨hsame.trans (Facts.join_join blocks b), BitSet.equal_self _⟩
      · exact hothers _ j c hne hc hj.2 (.inr fun hmem => hj.1 (hinv.linked i b j c hb hc hmem))

theorem stable_start (bs : List Facts) : Search.Stable ⟨linked bs, allQueued bs.length, 0⟩ := by
  intro i b hb hi
  obtain ⟨b0, hb0, -⟩ := getElem?_linked hb
  exact absurd ((mem_allQueued bs.length i).mpr (List.getElem?_eq_some_iff.mp hb0).1) hi

/-- A visit of a final block is only counted. -/
theorem Search.visit_final (h : ∀ b, s.blocks[i]? = some b → b.Final s.blocks) :
    s.visit i = { s with visits := s.visits + 1 } := by
  cases hb : s.blocks[i]? with
  | none => exact Search.visit_none hb
  | some b =>
    obtain ⟨hout, hstart⟩ := h b hb
    rcases Search.visit_cases hb with ⟨-, hvisit⟩ | ⟨hne, -⟩
    · have hset : s.blocks.set i { b with liveOut := b.join s.blocks } = s.blocks := by
        rw [hout]
        exact set_of_getElem? hb
      rw [hvisit, hset]
    · rw [hout, hstart] at hne
      cases hne

/-- The run lemma for final blocks: every one that waits is visited once. -/
theorem Search.run_final (h : ∀ (i : Nat) (b : Facts), blocks[i]? = some b → b.Final blocks)
    (q : List Nat) (n : Nat) (hfuel : q.length ≤ fuel) :
    Search.run fuel ⟨blocks, q, n⟩ = ⟨blocks, [], n + q.length⟩ := by
  induction q generalizing n fuel with
  | nil => cases fuel <;> rfl
  | cons i q ih =>
    obtain ⟨fuel, rfl⟩ : ∃ k, fuel = k + 1 :=
      ⟨fuel - 1, (Nat.sub_add_cancel (Nat.le_trans (Nat.succ_pos q.length) hfuel)).symm⟩
    rw [Search.run]
    simp only
    rw [Search.visit_final (s := ⟨blocks, q, n⟩) (h i), ih (n + 1) (Nat.le_of_succ_le_succ hfuel),
      List.length_cons, Nat.add_right_comm, Nat.add_assoc]

/-- A second run visits each block once and leaves all blocks as the first run left them. -/
theorem solve_solved {r : List Facts} {n : Nat} (hfresh : Fresh bs) (h : solve bs = .ok (r, n)) :
    solve r = .ok (r, bs.length) := by
  rw [solve_eq] at h
  split at h
  case isFalse => exact absurd h (by simp [Outcome.crash])
  case isTrue hall =>
    obtain ⟨hr, -⟩ := Prod.mk.inj (Except.ok.inj h)
    obtain ⟨-, hempty⟩ := (inv_start hfresh).run (potential_start_le bs)
    have hstable : (Search.run (visitBound bs) ⟨linked bs, allQueued bs.length, 0⟩).Inv bs ∧
        (Search.run (visitBound bs) ⟨linked bs, allQueued bs.length, 0⟩).Stable :=
      Search.run_induction (P := fun s => s.Inv bs ∧ s.Stable)
        (fun _ _ _ _ h => ⟨h.1.visit, h.2.visit h.1⟩) _ ⟨inv_start hfresh, stable_start bs⟩
    have hfinal : ∀ (i : Nat) (b : Facts), r[i]? = some b → b.Final r := by
      intro i b hb
      rw [← hr] at hb ⊢
      exact hstable.2 i b hb (by rw [hempty]; exact List.not_mem_nil)
    have hlength : r.length = bs.length := by
      rw [← hr]
      exact hstable.1.length
    have hsucc : r.map (·.succ) = bs.map (·.succ) := by
      rw [← hr, Search.map_run (fun _ _ _ => rfl)]
      exact map_linked (fun _ _ => rfl) bs
    have hlinked : linked r = r := by
      have hpred : r.map (·.pred) = (linked bs).map (·.pred) := by
        rw [← hr]
        exact Search.map_run (fun _ _ _ => rfl) _ _
      refine linked_of_pred fun i b hb => ?_
      rw [hsucc]
      exact pred_of_map hpred hb
    rw [solve_eq, hsucc, hlength, if_pos hall, hlinked,
      Search.run_final hfinal _ 0 (by rw [length_allQueued, ← hlength]; exact Nat.le_add_right _ _),
      length_allQueued, Nat.zero_add]

/-- Two blocks that are each other's successors; each reads a temporary, and their sets have different
numbers of words. -/
def mutualBlocks : List Facts :=
  [.start (.ofList [1]) (.ofList [70]) [1, 0], .start (.ofList [70]) ∅ [0, 0]]

theorem mutualBlocks_fresh : Fresh mutualBlocks := by
  intro b hb t
  simp only [mutualBlocks, List.mem_cons, List.not_mem_nil, or_false] at hb
  rcases hb with rfl | rfl <;> exact ⟨BitSet.contains_empty t, BitSet.contains_empty t⟩

theorem solve_solved_mutual : Fresh mutualBlocks ∧
    ∃ r, solve mutualBlocks = .ok (r, 4) ∧ solve r = .ok (r, 2) := by
  have hsolve : ∃ r, solve mutualBlocks = .ok (r, 4) := ⟨_, rfl⟩
  obtain ⟨r, hr⟩ := hsolve
  exact ⟨mutualBlocks_fresh, r, hr, solve_solved mutualBlocks_fresh hr⟩

/-! ## The least solution -/

/-- The temporaries live at the start of block `i`. -/
def startOf (bs : List Facts) (i : Nat) : Set Nat := {t | ∃ b ∈ bs[i]?, t ∈ b.liveIn.members}

/-- The temporaries live at the end of block `i`. -/
def endOf (bs : List Facts) (i : Nat) : Set Nat := {t | ∃ b ∈ bs[i]?, t ∈ b.liveOut.members}

theorem mem_startOf (hb : bs[i]? = some b) (t : Nat) : t ∈ startOf bs i ↔ b.liveIn.contains t := by
  simp [startOf, BitSet.members, hb]

theorem mem_endOf (hb : bs[i]? = some b) (t : Nat) : t ∈ endOf bs i ↔ b.liveOut.contains t := by
  simp [endOf, BitSet.members, hb]

/-- Sets of temporaries for the starts and the ends of the blocks satisfy the equations. -/
structure Solves (bs : List Facts) (starts ends : Nat → Set Nat) : Prop where
  ends_eq : ∀ (i : Nat) (b : Facts), bs[i]? = some b → ends i = ⋃ c ∈ b.succ, starts c
  starts_eq : ∀ (i : Nat) (b : Facts), bs[i]? = some b →
    starts i = b.use.members ∪ (ends i \ b.defs.members)

/-- What is live is in every solution. -/
theorem LiveAt.mem_of_solves {starts ends : Nat → Set Nat} (hsolves : Solves bs starts ends) {t : Nat}
    (h : LiveAt bs t i) : t ∈ starts i := by
  induction h with
  | @use i b hb huse =>
    rw [hsolves.starts_eq i b hb]
    exact .inl huse
  | @through i c b hb hkeep hc _ ih =>
    rw [hsolves.starts_eq i b hb, hsolves.ends_eq i b hb]
    refine Or.inr ⟨Set.mem_biUnion hc ih, fun hdef => ?_⟩
    exact absurd (hkeep.symm.trans hdef) (by simp)

/-- What is live at the start of a block is read in it or comes from its end. -/
theorem liveAt_iff (hb : bs[i]? = some b) (t : Nat) : LiveAt bs t i ↔
    t ∈ b.use.members ∨ (∃ c ∈ b.succ, LiveAt bs t c) ∧ t ∉ b.defs.members := by
  constructor
  · intro h
    cases h with
    | use hb' huse =>
      obtain rfl := Option.some.inj (hb.symm.trans hb')
      exact .inl huse
    | @through _ c _ hb' hkeep hc hlive =>
      obtain rfl := Option.some.inj (hb.symm.trans hb')
      exact .inr ⟨⟨c, hc, hlive⟩, fun hdef => absurd (hkeep.symm.trans hdef) (by simp)⟩
  · rintro (huse | ⟨⟨c, hc, hlive⟩, hdef⟩)
    · exact .use hb huse
    · exact .through hb (Bool.eq_false_iff.mpr hdef) hc hlive

/-- The worklist of the solver runs empty, and what it has found then is what is live. -/
theorem solve_ends (hfresh : Fresh bs) (hsucc : ∀ b ∈ bs, ∀ c ∈ b.succ, c < bs.length) :
    ∃ s : Search, s.queue = [] ∧ solve bs = .ok (s.blocks, s.visits) ∧
      (∀ fuel, visitBound bs ≤ fuel → Search.run fuel ⟨linked bs, allQueued bs.length, 0⟩ = s) ∧
      s.blocks.length = bs.length ∧ (∀ i t, t ∈ startOf s.blocks i ↔ LiveAt bs t i) ∧
      ∀ (i : Nat) (b : Facts), bs[i]? = some b →
        ∀ t, t ∈ endOf s.blocks i ↔ ∃ c ∈ b.succ, LiveAt bs t c := by
  obtain ⟨-, hempty⟩ := (inv_start hfresh).run (potential_start_le bs)
  obtain ⟨r, n, hsolve, hlength, hlive⟩ := solve_live hfresh hsucc
  have hr := hsolve
  rw [solve_eq] at hr
  split at hr
  case isFalse => cases hr
  case isTrue =>
    cases hr
    refine ⟨_, hempty, hsolve, fun fuel hle => Search.run_of_le hempty hle, hlength, ?_, ?_⟩
    · intro i t
      cases hb : bs[i]? with
      | none =>
        -- no block, and so nothing live on either side
        have hge := List.getElem?_eq_none_iff.mp hb
        rw [← hlength] at hge
        refine iff_of_false ?_ fun h => ?_
        · rintro ⟨x, hx, -⟩
          rw [List.getElem?_eq_none hge] at hx
          cases hx
        · obtain ⟨_, hb'⟩ := h.block
          exact absurd (hb.symm.trans hb') (by simp)
      | some b =>
        obtain ⟨x, hx, hin, -⟩ := hlive i b hb
        exact (mem_startOf hx t).trans (hin t)
    · intro i b hb t
      obtain ⟨x, hx, -, hout⟩ := hlive i b hb
      exact (mem_endOf hx t).trans (hout t)

/-- The solver comes to its end, and what it finds is the least solution of the equations. Each block
then has the sources of its edges as predecessors, in ascending order and once for each edge. -/
theorem solve_least (hfresh : Fresh bs) (hsucc : ∀ b ∈ bs, ∀ c ∈ b.succ, c < bs.length) :
    ∃ s : Search, s.queue = [] ∧ solve bs = .ok (s.blocks, s.visits) ∧ (∀ fuel, visitBound bs ≤ fuel →
        Search.run fuel ⟨linked bs, allQueued bs.length, 0⟩ = s) ∧
      s.blocks.length = bs.length ∧
      Solves bs (startOf s.blocks) (endOf s.blocks) ∧
      (∀ starts ends, Solves bs starts ends →
        ∀ i, startOf s.blocks i ⊆ starts i ∧ endOf s.blocks i ⊆ ends i) ∧
      ∀ (i : Nat) (b : Facts), s.blocks[i]? = some b → b.pred.Pairwise (· ≤ ·) ∧
        ∀ j, b.pred.count j = ((bs[j]?.map (·.succ)).getD []).count i := by
  obtain ⟨s, hempty, hsolve, hrun, hlength, hstart, hend⟩ := solve_ends hfresh hsucc
  refine ⟨s, hempty, hsolve, hrun, hlength, ⟨fun i b hb => ?_, fun i b hb => ?_⟩,
    fun starts ends hsolves i => ⟨fun t ht => ?_, fun t ht => ?_⟩, fun i b hb => ?_⟩
  · ext t
    rw [hend i b hb t, Set.mem_iUnion₂]
    simp only [hstart, exists_prop]
  · ext t
    rw [hstart, liveAt_iff hb, ← hend i b hb t]
    rfl
  · exact ((hstart i t).mp ht).mem_of_solves hsolves
  · have hlt : i < bs.length := by
      obtain ⟨x, hx, -⟩ := ht
      exact hlength ▸ (List.getElem?_eq_some_iff.mp hx).1
    have hb := List.getElem?_eq_getElem hlt
    obtain ⟨c, hc, hlive⟩ := (hend i _ hb t).mp ht
    rw [hsolves.ends_eq i _ hb]
    exact Set.mem_biUnion hc (hlive.mem_of_solves hsolves)
  · have hpred : s.blocks.map (·.pred) = (linked bs).map (·.pred) := by
      rw [← hrun _ (Nat.le_refl _)]
      exact Search.map_run (fun _ _ _ => rfl) _ _
    rw [pred_of_map hpred hb]
    simp only [← List.getElem?_map]
    exact predecessors_ascending _ i

theorem solve_least_mutual : ∃ s : Search, s.queue = [] ∧ solve mutualBlocks = .ok (s.blocks, s.visits) ∧
    Solves mutualBlocks (startOf s.blocks) (endOf s.blocks) ∧
    s.blocks.map (·.pred) = [[0, 1, 1], [0]] := by
  have hsucc : ∀ b ∈ mutualBlocks, ∀ c ∈ b.succ, c < mutualBlocks.length := by decide
  obtain ⟨s, hempty, hsolve, -, -, hsolves, -⟩ := solve_least mutualBlocks_fresh hsucc
  refine ⟨s, hempty, hsolve, hsolves, ?_⟩
  have hpreds : ∀ p, solve mutualBlocks = .ok p → p.1.map (·.pred) = [[0, 1, 1], [0]] := by
    intro p hp
    have hrun : solve mutualBlocks = .ok _ := rfl
    obtain rfl := Except.ok.inj (hrun.symm.trans hp)
    rfl
  exact hpreds _ hsolve

/-! ## Blocks from which control only goes on -/

/-- The blocks that a run visits, one after the other. -/
def Search.trace : (fuel : Nat) → Search → List Nat
  | 0, _ => []
  | fuel + 1, s =>
    match s.queue with
    | [] => []
    | i :: queue => i :: trace fuel ({ s with queue := queue }.visit i)

theorem Search.visits_visit (s : Search) (i : Nat) : (s.visit i).visits = s.visits + 1 := by
  unfold Search.visit
  split
  · rfl
  · simp only
    split <;> rfl

theorem Search.visits_run (fuel : Nat) (s : Search) :
    (Search.run fuel s).visits = s.visits + (Search.trace fuel s).length := by
  induction fuel generalizing s with
  | zero => rfl
  | succ fuel ih =>
    obtain ⟨blocks, queue, n⟩ := s
    cases queue with
    | nil => rfl
    | cons i q =>
      refine (ih _).trans ?_
      rw [Search.visits_visit]
      exact (Nat.add_right_comm n 1 _).trans (Nat.add_assoc n _ 1)

/-- A block that waits already is not put into the worklist again. -/
theorem enqueue_allQueued {p : Nat} (h : p < n) : enqueue p (allQueued n) = allQueued n := by
  induction n with
  | zero => exact absurd h (Nat.not_lt_zero p)
  | succ n ih =>
    rw [allQueued, enqueue, if_neg (by omega)]
    by_cases hp : p = n
    · rw [if_pos hp]
    · rw [if_neg hp, ih (by omega)]

theorem enqueueAll_allQueued {ps : List Nat} (h : ∀ p ∈ ps, p < n) :
    ps.foldl (fun q p => enqueue p q) (allQueued n) = allQueued n := by
  induction ps with
  | nil => rfl
  | cons p ps ih =>
    rw [List.foldl_cons, enqueue_allQueued (h p List.mem_cons_self)]
    exact ih fun p hp => h p (List.mem_cons_of_mem _ hp)

/-- The step lemma: if the predecessors of the last block that waits come before it, they wait. -/
theorem Search.queue_visit {v : Nat} (h : ∀ b, blocks[n]? = some b → ∀ p ∈ b.pred, p < n) :
    (Search.visit ⟨blocks, allQueued n, v⟩ n).queue = allQueued n := by
  cases hb : blocks[n]? with
  | none => rw [Search.visit_none hb]
  | some b =>
    rcases Search.visit_cases (s := ⟨blocks, allQueued n, v⟩) hb with ⟨-, hvisit⟩ | ⟨-, hvisit⟩
    · rw [hvisit]
    · rw [hvisit]
      exact enqueueAll_allQueued (h b hb)

/-- The run lemma: if all predecessors come before their blocks, the blocks that wait are visited from
the last to the first. -/
theorem Search.trace_forward {v : Nat} (hfuel : n ≤ fuel)
    (h : ∀ (i : Nat) (b : Facts), blocks[i]? = some b → ∀ p ∈ b.pred, p < i) :
    Search.trace fuel ⟨blocks, allQueued n, v⟩ = allQueued n := by
  induction n generalizing blocks v fuel with
  | zero => cases fuel <;> rfl
  | succ n ih =>
    obtain ⟨fuel, rfl⟩ : ∃ k, fuel = k + 1 := ⟨fuel - 1, by omega⟩
    have hpred : ∀ (i : Nat) (b : Facts),
        (Search.visit ⟨blocks, allQueued n, v⟩ n).blocks[i]? = some b → ∀ p ∈ b.pred, p < i := by
      intro i b hb
      obtain ⟨b', hb', hsame⟩ := getElem?_of_map (Search.map_visit (f := (·.pred))
        (fun _ _ _ => rfl) ⟨blocks, allQueued n, v⟩ n) hb
      rw [← hsame]
      exact h i b' hb'
    have hqueue := Search.queue_visit (v := v) (h n)
    show n :: Search.trace fuel (Search.visit ⟨blocks, allQueued n, v⟩ n) = n :: allQueued n
    generalize Search.visit ⟨blocks, allQueued n, v⟩ n = s at hpred hqueue
    obtain ⟨blocks, queue, v⟩ := s
    obtain rfl : queue = allQueued n := hqueue
    rw [ih (Nat.le_of_succ_le_succ hfuel) hpred]

/-- If every successor of every block comes after it, the solver visits each block once, from the last
to the first. -/
theorem solve_forward (hsucc : ∀ (i : Nat) (b : Facts), bs[i]? = some b →
      ∀ c ∈ b.succ, i < c ∧ c < bs.length) :
    ∃ r, solve bs = .ok (r, bs.length) ∧
      Search.trace (visitBound bs) ⟨linked bs, allQueued bs.length, 0⟩ = allQueued bs.length := by
  have htrace : Search.trace (visitBound bs) ⟨linked bs, allQueued bs.length, 0⟩ = allQueued bs.length := by
    refine Search.trace_forward (Nat.le_add_right _ _) fun i b hb p hp => ?_
    obtain ⟨b₀, -, rfl⟩ := getElem?_linked hb
    have hcount := (predecessors_ascending (bs.map (·.succ)) i).2 p
    have hpos : 0 < ((bs.map (·.succ))[p]?.getD []).count i := hcount ▸ List.count_pos_iff.mpr hp
    rw [List.getElem?_map] at hpos
    cases hp' : bs[p]? with
    | none =>
      rw [hp'] at hpos
      exact absurd hpos (by simp)
    | some c =>
      rw [hp'] at hpos
      exact (hsucc p c hp' i (List.count_pos_iff.mp hpos)).1
  have hall : ((bs.map (·.succ)).all fun succ => succ.all (· < bs.length)) = true := by
    rw [List.all_map]
    refine List.all_eq_true.mpr fun b hb => List.all_eq_true.mpr fun c hc => decide_eq_true ?_
    obtain ⟨i, hi⟩ := List.getElem?_of_mem hb
    exact (hsucc i b hi c hc).2
  refine ⟨(Search.run (visitBound bs) ⟨linked bs, allQueued bs.length, 0⟩).blocks, ?_, htrace⟩
  rw [solve_eq, if_pos hall, Search.visits_run, htrace, length_allQueued, Nat.zero_add]

/-- Three blocks one after the other, the first with two edges to the last. -/
theorem solve_forward_chain :
    ∃ r, solve [.start ∅ ∅ [2, 1, 2], .start (.ofList [0]) ∅ [2], .start (.ofList [64]) ∅ []]
      = .ok (r, 3) := by
  have hsucc : ∀ (i : Nat) (b : Facts), [Facts.start ∅ ∅ [2, 1, 2], .start (.ofList [0]) ∅ [2],
      .start (.ofList [64]) ∅ []][i]? = some b → ∀ c ∈ b.succ, i < c ∧ c < 3 := by
    intro i b hb
    match i, hb with
    | 0, hb => cases hb; decide
    | 1, hb => cases hb; decide
    | 2, hb => cases hb; decide
  obtain ⟨r, hr, -⟩ := solve_forward hsucc
  exact ⟨r, hr⟩

end Liveness

end TreeAsm
