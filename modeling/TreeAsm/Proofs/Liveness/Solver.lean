import Mathlib.Algebra.BigOperators.Ring.List
import Mathlib.Algebra.Order.BigOperators.Group.List
import Mathlib.Algebra.Order.Ring.Nat
import Mathlib.Data.Finset.Card
import TreeAsm.Proofs.Liveness.Links
import TreeAsm.Proofs.Liveness.Sets

/-!
# The solver finds what is live

A temporary is live at the start of a block if the block reads it before writing it, or if it is live
at the start of a successor and the block does not write it (`LiveAt`). The solver goes towards this
from below. `Search.Inv` says where it stands between two visits: what it has found is live, and every
block that does not wait satisfies its equation. A visit preserves this, and it pays for itself: the
worklist gets shorter, unless something new is live at the start of the block, and then the block's
predecessors wait again, which is paid for out of the temporaries that may still become live there
(`Search.potential`). So the worklist runs empty within the bound on visits, and then all equations
hold, which makes the sets as large as they have to be (`solve_live`).
-/

namespace TreeAsm.Liveness

/-- A temporary is read by a block before it is written, or by one that control comes to later, with
no block on the way writing it. -/
inductive LiveAt (bs : List Facts) (t : Nat) : Nat → Prop
  | use {i : Nat} {b : Facts} : bs[i]? = some b → b.use.contains t = true → LiveAt bs t i
  | through {i c : Nat} {b : Facts} :
      bs[i]? = some b → b.defs.contains t = false → c ∈ b.succ → LiveAt bs t c → LiveAt bs t i

/-- What is live is live at the start of a block. -/
theorem LiveAt.block {bs : List Facts} {t i : Nat} (h : LiveAt bs t i) : ∃ b, bs[i]? = some b := by
  cases h with
  | use hb _ => exact ⟨_, hb⟩
  | through hb _ _ _ => exact ⟨_, hb⟩

/-! ## One equation -/

theorem Facts.contains_transfer (b : Facts) (out : BitSet) (t : Nat) : (b.transfer out).contains t ↔
      out.contains t ∧ b.defs.contains t = false ∨ b.use.contains t := by
  rw [transfer, BitSet.contains_union, BitSet.contains_subtract]
  simp

/-- What is live at the end of a block after a visit: what was, and what is live at the start of a
successor. -/
theorem Facts.contains_join (bs : List Facts) (b : Facts) (t : Nat) :
    (b.join bs).contains t ↔ b.liveOut.contains t ∨
      ∃ c ∈ b.succ, ∃ x, bs[c]? = some x ∧ x.liveIn.contains t := by
  have hfold : ∀ (succ : List Nat) (out : BitSet),
      (succ.foldl (fun out s => bs[s]?.elim out fun x => out.union x.liveIn) out).contains t ↔
      out.contains t ∨ ∃ c ∈ succ, ∃ x, bs[c]? = some x ∧ x.liveIn.contains t := by
    intro succ
    induction succ with
    | nil => intro out; simp
    | cons c succ ih =>
      intro out
      rw [List.foldl_cons, ih]
      cases hc : bs[c]? with
      | none => simp [hc]
      | some x => simp [hc, or_assoc]
  have hjoin : b.join bs = b.succ.foldl
      (fun out s => bs[s]?.elim out fun x => out.union x.liveIn) b.liveOut := by
    unfold Facts.join
    congr 1
    funext out s
    cases bs[s]? <;> rfl
  rw [hjoin]
  exact hfold b.succ b.liveOut

/-- The equation of a block holds: all that is live at the starts of its successors is live at its
end, and what follows from this is known to be live at its start. -/
structure Facts.Settled (bs : List Facts) (b : Facts) : Prop where
  out : ∀ c ∈ b.succ, ∀ x, bs[c]? = some x → ∀ t, x.liveIn.contains t = true → b.liveOut.contains t = true
  start : ∀ t, (b.transfer b.liveOut).contains t = true → b.liveIn.contains t = true

/-! ## The worklist -/

theorem mem_enqueue (i k : Nat) (q : List Nat) : k ∈ enqueue i q ↔ k = i ∨ k ∈ q := by
  induction q with
  | nil => simp [enqueue]
  | cons j q ih =>
    rw [enqueue]
    by_cases hgt : i > j
    · rw [if_pos hgt, List.mem_cons]
    · by_cases heq : i = j
      · rw [if_neg hgt, if_pos heq, List.mem_cons, heq]
        exact or_self_left.symm
      · rw [if_neg hgt, if_neg heq, List.mem_cons, ih, List.mem_cons]
        exact or_left_comm

theorem length_enqueue (i : Nat) (q : List Nat) : (enqueue i q).length ≤ q.length + 1 := by
  induction q with
  | nil => exact Nat.le_refl _
  | cons j q ih =>
    rw [enqueue]
    by_cases hgt : i > j
    · rw [if_pos hgt]
      exact Nat.le_refl _
    · by_cases heq : i = j
      · rw [if_neg hgt, if_pos heq]
        exact Nat.le_succ _
      · rw [if_neg hgt, if_neg heq, List.length_cons, List.length_cons]
        exact Nat.succ_le_succ ih

theorem mem_enqueueAll (ps q : List Nat) (k : Nat) :
    k ∈ ps.foldl (fun q p => enqueue p q) q ↔ k ∈ ps ∨ k ∈ q := by
  induction ps generalizing q with
  | nil => simp
  | cons p ps ih =>
    rw [List.foldl_cons, ih, mem_enqueue, List.mem_cons]
    exact or_left_comm.trans or_assoc.symm

theorem length_enqueueAll (ps q : List Nat) :
    (ps.foldl (fun q p => enqueue p q) q).length ≤ q.length + ps.length := by
  induction ps generalizing q with
  | nil => exact Nat.le_refl _
  | cons p ps ih =>
    rw [List.foldl_cons, List.length_cons]
    have hrest := ih (enqueue p q)
    have hfirst := length_enqueue p q
    omega

theorem mem_allQueued (n k : Nat) : k ∈ allQueued n ↔ k < n := by
  induction n with
  | zero => simp [allQueued]
  | succ n ih =>
    rw [allQueued, List.mem_cons, ih]
    omega

theorem length_allQueued (n : Nat) : (allQueued n).length = n := by
  induction n with
  | zero => rfl
  | succ n ih => rw [allQueued, List.length_cons, ih]

/-! ## What a visit preserves -/

/-- Two descriptions of a block have the same equation. -/
structure Facts.Alike (b c : Facts) : Prop where
  use : b.use = c.use
  defs : b.defs = c.defs
  succ : b.succ = c.succ

/-- Where the solver stands between two visits, for the equations `bs`. -/
structure Search.Inv (bs : List Facts) (s : Search) : Prop where
  length : s.blocks.length = bs.length
  alike : ∀ (i : Nat) (b : Facts), s.blocks[i]? = some b → ∃ b0, bs[i]? = some b0 ∧ b.Alike b0
  linked : ∀ (i : Nat) (b : Facts) (j : Nat) (c : Facts), s.blocks[i]? = some b →
    s.blocks[j]? = some c → i ∈ c.succ → j ∈ b.pred
  start : ∀ (i : Nat) (b : Facts), s.blocks[i]? = some b → ∀ t, b.liveIn.contains t = true → LiveAt bs t i
  out : ∀ (i : Nat) (b : Facts), s.blocks[i]? = some b → ∀ t, b.liveOut.contains t = true →
    ∃ c ∈ b.succ, LiveAt bs t c
  below : ∀ (i : Nat) (b : Facts), s.blocks[i]? = some b → ∀ t, b.liveIn.contains t = true →
    (b.transfer b.liveOut).contains t = true
  settled : ∀ (i : Nat) (b : Facts), s.blocks[i]? = some b → i ∉ s.queue → b.Settled s.blocks

/-- What is found for a block by a visit. -/
def Facts.visited (bs : List Facts) (b : Facts) : Facts :=
  { b with liveOut := b.join bs, liveIn := b.transfer (b.join bs) }

variable {i : Nat} {bs : List Facts} {s : Search}

/-- A visit finds the same at the start of the block, or something else, and then its predecessors
wait. -/
theorem Search.visit_cases {b : Facts} (hb : s.blocks[i]? = some b) :
    (b.transfer (b.join s.blocks)).equal b.liveIn ∧
        s.visit i = ⟨s.blocks.set i { b with liveOut := b.join s.blocks }, s.queue, s.visits + 1⟩ ∨
      (b.transfer (b.join s.blocks)).equal b.liveIn = false ∧
        s.visit i = ⟨s.blocks.set i (b.visited s.blocks),
          b.pred.foldl (fun q p => enqueue p q) s.queue, s.visits + 1⟩ := by
  unfold Search.visit
  rw [hb]
  by_cases heq : (b.transfer (b.join s.blocks)).equal b.liveIn
  · refine Or.inl ⟨heq, ?_⟩
    simp only [heq, if_true]
  · have hne : (b.transfer (b.join s.blocks)).equal b.liveIn = false := Bool.eq_false_iff.mpr heq
    refine Or.inr ⟨hne, ?_⟩
    simp only [hne, Bool.false_eq_true, if_false, Facts.visited]

/-- An entry of a list after one of them is replaced. -/
theorem getElem?_set_cases {α : Type} {xs : List α} {j : Nat} {x y : α}
    (h : (xs.set i x)[j]? = some y) : j = i ∧ y = x ∨ j ≠ i ∧ xs[j]? = some y := by
  by_cases hji : j = i
  · subst hji
    rw [List.getElem?_set_self'] at h
    obtain ⟨_, -, hy⟩ := Option.map_eq_some_iff.mp h
    exact .inl ⟨rfl, hy.symm⟩
  · rw [List.getElem?_set_ne (Ne.symm hji)] at h
    exact .inr ⟨hji, h⟩

section

variable {bs : List Facts} {s : Search} {i : Nat} {b : Facts}

variable {t : Nat} {q : List Nat}

/-- What a visit finds at the end of the block is live. -/
theorem Search.Inv.join_live (h : s.Inv bs) (hb : s.blocks[i]? = some b)
    (ht : (b.join s.blocks).contains t) : ∃ c ∈ b.succ, LiveAt bs t c := by
  rcases (Facts.contains_join s.blocks b t).mp ht with hout | ⟨c, hc, x, hx, hlive⟩
  · exact h.out i b hb t hout
  · exact ⟨c, hc, h.start c x hx t hlive⟩

/-- What a visit finds at the start of the block is live. -/
theorem Search.Inv.transfer_live (h : s.Inv bs) (hb : s.blocks[i]? = some b)
    (ht : (b.transfer (b.join s.blocks)).contains t) : LiveAt bs t i := by
  obtain ⟨b0, hb0, huse, hdefs, hsucc⟩ := h.alike i b hb
  rcases (b.contains_transfer _ t).mp ht with ⟨hout, hdef⟩ | hread
  · obtain ⟨c, hc, hlive⟩ := h.join_live hb hout
    exact .through hb0 (hdefs ▸ hdef) (hsucc ▸ hc) hlive
  · exact .use hb0 (huse ▸ hread)

/-- A visit forgets nothing. -/
theorem Search.Inv.transfer_grows (h : s.Inv bs) (hb : s.blocks[i]? = some b)
    (ht : b.liveIn.contains t) : (b.transfer (b.join s.blocks)).contains t := by
  rw [Facts.contains_transfer]
  refine ((b.contains_transfer _ t).mp (h.below i b hb t ht)).imp_left fun hout => ?_
  exact ⟨(Facts.contains_join s.blocks b t).mpr (.inl hout.1), hout.2⟩

/-- A block and what a visit finds for it. The parts of the invariant that do not depend on the
worklist follow for both outcomes of a visit. -/
theorem Search.Inv.replace (h : s.Inv bs) (hb : s.blocks[i]? = some b) {new : Facts} {n : Nat}
    (hlike : new.Alike b) (hpred : new.pred = b.pred) (hout : new.liveOut = b.join s.blocks)
    (hin : ∀ t, new.liveIn.contains t ↔ (b.transfer (b.join s.blocks)).contains t)
    (hsettled : ∀ (j : Nat) (c : Facts), (s.blocks.set i new)[j]? = some c → j ∉ q →
      c.Settled (s.blocks.set i new)) : Search.Inv bs ⟨s.blocks.set i new, q, n⟩ := by
  have htransfer : ∀ out, new.transfer out = b.transfer out := by
    intro out
    rw [Facts.transfer, Facts.transfer, hlike.use, hlike.defs]
  refine ⟨List.length_set.trans h.length, ?_, ?_, ?_, ?_, ?_, hsettled⟩
  · intro j c hc
    rcases getElem?_set_cases hc with ⟨rfl, rfl⟩ | ⟨-, hc⟩
    · obtain ⟨b0, hb0, hb₀like⟩ := h.alike j b hb
      exact ⟨b0, hb0, hlike.use.trans hb₀like.use, hlike.defs.trans hb₀like.defs,
        hlike.succ.trans hb₀like.succ⟩
    · exact h.alike j c hc
  · intro j c k d hc hd hmem
    -- edges are those of the blocks before the visit
    have hd' : ∃ d', s.blocks[k]? = some d' ∧ j ∈ d'.succ := by
      rcases getElem?_set_cases hd with ⟨rfl, rfl⟩ | ⟨-, hd⟩
      · exact ⟨b, hb, hlike.succ ▸ hmem⟩
      · exact ⟨d, hd, hmem⟩
    obtain ⟨d', hd', hmem'⟩ := hd'
    rcases getElem?_set_cases hc with ⟨rfl, rfl⟩ | ⟨-, hc⟩
    · rw [hpred]
      exact h.linked j b k d' hb hd' hmem'
    · exact h.linked j c k d' hc hd' hmem'
  · intro j c hc t ht
    rcases getElem?_set_cases hc with ⟨rfl, rfl⟩ | ⟨-, hc⟩
    · exact h.transfer_live hb ((hin t).mp ht)
    · exact h.start j c hc t ht
  · intro j c hc t ht
    rcases getElem?_set_cases hc with ⟨rfl, rfl⟩ | ⟨-, hc⟩
    · rw [hout] at ht
      rw [hlike.succ]
      exact h.join_live hb ht
    · exact h.out j c hc t ht
  · intro j c hc t ht
    rcases getElem?_set_cases hc with ⟨rfl, rfl⟩ | ⟨-, hc⟩
    · rw [htransfer, hout]
      exact (hin t).mp ht
    · exact h.below j c hc t ht

/-- The step lemma: a visit of the first block of the worklist preserves the invariant. -/
theorem Search.Inv.visit {blocks : List Facts} {n : Nat} (h : Search.Inv bs ⟨blocks, i :: q, n⟩) :
    (Search.visit ⟨blocks, q, n⟩ i).Inv bs := by
  cases hb : blocks[i]? with
  | none =>
    unfold Search.visit
    simp only [hb]
    refine ⟨h.length, h.alike, h.linked, h.start, h.out, h.below, fun j c hc hj => ?_⟩
    refine h.settled j c hc fun hmem => ?_
    rcases List.mem_cons.mp hmem with rfl | hmem
    · rw [show blocks[j]? = some c from hc] at hb
      cases hb
    · exact hj hmem
  | some b =>
    have hvisit := Search.visit_cases (s := ⟨blocks, q, n⟩) hb
    -- the end of the block has all that its successors need, as far as they are unchanged
    have hjoin : ∀ c ∈ b.succ, ∀ x, blocks[c]? = some x → ∀ t, x.liveIn.contains t →
        (b.join blocks).contains t := fun c hc x hx t ht =>
      (Facts.contains_join blocks b t).mpr (.inr ⟨c, hc, x, hx, ht⟩)
    rcases hvisit with ⟨heq, hvisit⟩ | ⟨hne, hvisit⟩
    · -- nothing new at the start: every other block sees what it saw before
      rw [hvisit]
      have hsame := (BitSet.equal_iff _ _).mp heq
      have hliveIn : ∀ (c : Nat) (x : Facts),
          (blocks.set i { b with liveOut := b.join blocks })[c]? = some x → ∃ x', blocks[c]? = some x' ∧ x.liveIn = x'.liveIn := by
        intro c x hx
        rcases getElem?_set_cases hx with ⟨rfl, rfl⟩ | ⟨-, hx⟩
        · exact ⟨b, hb, rfl⟩
        · exact ⟨x, hx, rfl⟩
      refine h.replace hb ⟨rfl, rfl, rfl⟩ rfl rfl (fun t => (hsame t).symm) fun j c hc hj => ?_
      rcases getElem?_set_cases hc with ⟨rfl, rfl⟩ | ⟨hne, hc⟩
      · refine ⟨fun c hc x hx t ht => ?_, fun t ht => (hsame t).mp ht⟩
        obtain ⟨x', hx', hlive⟩ := hliveIn c x hx
        exact hjoin c hc x' hx' t (hlive ▸ ht)
      · have hold := h.settled j c hc fun hmem =>
          (List.mem_cons.mp hmem).elim hne hj
        refine ⟨fun d hd x hx t ht => ?_, hold.start⟩
        obtain ⟨x', hx', hlive⟩ := hliveIn d x hx
        exact hold.out d hd x' hx' t (hlive ▸ ht)
    · -- something new: whoever comes before the block waits, so nobody else is concerned
      rw [hvisit]
      refine h.replace hb ⟨rfl, rfl, rfl⟩ rfl rfl (fun _ => Iff.rfl) fun j c hc hj => ?_
      rw [mem_enqueueAll, not_or] at hj
      rcases getElem?_set_cases hc with ⟨rfl, rfl⟩ | ⟨hne, hc⟩
      · refine ⟨fun d hd x hx t ht => ?_, fun t ht => ht⟩
        rcases getElem?_set_cases hx with ⟨rfl, rfl⟩ | ⟨-, hx⟩
        · exact absurd (h.linked d b d b hb hb hd) hj.1
        · exact hjoin d hd x hx t ht
      · have hold := h.settled j c hc fun hmem =>
          (List.mem_cons.mp hmem).elim hne hj.2
        refine ⟨fun d hd x hx t ht => ?_, hold.start⟩
        rcases getElem?_set_cases hx with ⟨rfl, rfl⟩ | ⟨-, hx⟩
        · exact absurd (h.linked d b j c hb hc hd) hj.1
        · exact hold.out d hd x hx t ht

end

/-! ## The potential of the worklist -/

/-- The temporaries that may be live anywhere: those that some block reads before writing them. -/
def candidates (bs : List Facts) : Finset Nat := (bs.flatMap fun b => b.use.toList).toFinset

theorem LiveAt.mem_candidates {t : Nat} (h : LiveAt bs t i) : t ∈ candidates bs := by
  induction h with
  | @use i b hb huse =>
    rw [candidates, List.mem_toFinset, List.mem_flatMap]
    exact ⟨b, List.mem_of_getElem? hb, (BitSet.mem_toList _ _).mpr huse⟩
  | through _ _ _ _ ih => exact ih

/-- How many temporaries may still become live at the start of a block. -/
def Facts.missing (names : Finset Nat) (b : Facts) : Nat :=
  (names.filter fun t => b.liveIn.contains t = false).card

/-- The visits that the solver may still make: one for each block that waits, and one for each edge to
a block and each temporary that may still become live there. -/
def Search.potential (names : Finset Nat) (s : Search) : Nat :=
  s.queue.length + (s.blocks.map fun b => b.pred.length * b.missing names).sum

/-- A sum after one of its terms is replaced. -/
theorem sum_map_set {α : Type} (f : α → Nat) {xs : List α} {x : α} (h : xs[i]? = some x) (y : α) :
    ((xs.set i y).map f).sum + f x = (xs.map f).sum + f y := by
  induction xs generalizing i with
  | nil => cases h
  | cons z xs ih =>
    cases i with
    | zero =>
      obtain rfl : z = x := by simpa using h
      rw [List.set_cons_zero, List.map_cons, List.map_cons, List.sum_cons, List.sum_cons]
      omega
    | succ i =>
      have hrest := ih (i := i) (by simpa using h)
      rw [List.set_cons_succ, List.map_cons, List.map_cons, List.sum_cons, List.sum_cons]
      omega

/-- Every visit lowers the potential. -/
theorem Search.Inv.potential_lt {blocks : List Facts} {n : Nat} {q : List Nat}
    (h : Search.Inv bs ⟨blocks, i :: q, n⟩) :
    (Search.visit ⟨blocks, q, n⟩ i).potential (candidates bs)
      < Search.potential (candidates bs) ⟨blocks, i :: q, n⟩ := by
  have hpop : Search.potential (candidates bs) ⟨blocks, i :: q, n⟩
      = Search.potential (candidates bs) ⟨blocks, q, n⟩ + 1 := by
    rw [Search.potential, Search.potential, List.length_cons]
    exact Nat.add_right_comm _ _ _
  rw [hpop]
  cases hb : blocks[i]? with
  | none =>
    unfold Search.visit
    simp only [hb]
    exact Nat.lt_succ_self _
  | some b =>
    rcases Search.visit_cases (s := ⟨blocks, q, n⟩) hb with ⟨-, hvisit⟩ | ⟨hne, hvisit⟩
    · -- the sets at the starts of blocks stay as they are
      rw [hvisit]
      unfold Search.potential
      have hsum := sum_map_set (fun b => b.pred.length * b.missing (candidates bs)) hb
        { b with liveOut := b.join blocks }
      have hsame : Facts.missing (candidates bs) { b with liveOut := b.join blocks }
          = b.missing (candidates bs) := rfl
      simp only [hsame] at hsum ⊢
      omega
    · -- a temporary becomes live, and it pays for the predecessors that wait again
      rw [hvisit]
      unfold Search.potential
      have hfewer : Facts.missing (candidates bs) (b.visited blocks) + 1 ≤ b.missing (candidates bs) := by
        obtain ⟨t, ht, hnew⟩ : ∃ t, (b.transfer (b.join blocks)).contains t ∧
            b.liveIn.contains t = false := by
          by_contra hnone
          have hsame : (b.transfer (b.join blocks)).equal b.liveIn := by
            rw [BitSet.equal_iff]
            intro k
            refine ⟨fun hk => ?_, fun hk => h.transfer_grows hb hk⟩
            by_contra hk'
            exact hnone ⟨k, hk, Bool.eq_false_iff.mpr hk'⟩
          rw [hsame] at hne
          cases hne
        have hmem : t ∈ candidates bs := (h.transfer_live hb ht).mem_candidates
        refine Finset.card_lt_card (Finset.ssubset_iff_of_subset ?_ |>.mpr ⟨t, ?_, ?_⟩)
        · intro k hk
          rw [Finset.mem_filter] at hk ⊢
          refine ⟨hk.1, Bool.eq_false_iff.mpr fun hlive => ?_⟩
          have hgrown : (b.transfer (b.join blocks)).contains k :=
            h.transfer_grows hb hlive
          rw [show (b.visited blocks).liveIn = b.transfer (b.join blocks) from rfl, hgrown] at hk
          exact absurd hk.2 (by simp)
        · exact Finset.mem_filter.mpr ⟨hmem, hnew⟩
        · rw [Finset.mem_filter]
          rintro ⟨-, hgone⟩
          rw [show (b.visited blocks).liveIn = b.transfer (b.join blocks) from rfl, ht] at hgone
          cases hgone
      have hsum := sum_map_set (fun b => b.pred.length * b.missing (candidates bs)) hb (b.visited blocks)
      have hqueue := length_enqueueAll b.pred q
      have hpay : b.pred.length * Facts.missing (candidates bs) (b.visited blocks) + b.pred.length
          ≤ b.pred.length * b.missing (candidates bs) := by
        rw [← Nat.mul_succ]
        exact Nat.mul_le_mul_left _ hfewer
      simp only [show (b.visited blocks).pred = b.pred from rfl] at hsum ⊢
      omega

/-- The run lemma: with enough visits the worklist runs empty. -/
theorem Search.Inv.run {fuel : Nat} (h : s.Inv bs) (hfuel : s.potential (candidates bs) ≤ fuel) :
    (Search.run fuel s).Inv bs ∧ (Search.run fuel s).queue = [] := by
  induction fuel generalizing s with
  | zero =>
    -- no potential left, so nothing waits
    have hempty : s.queue = [] := by
      unfold Search.potential at hfuel
      exact List.length_eq_zero_iff.mp (by omega)
    exact ⟨h, hempty⟩
  | succ fuel ih =>
    unfold Search.run
    cases hq : s.queue with
    | nil => exact ⟨h, hq⟩
    | cons i q =>
      have hs : Search.Inv bs ⟨s.blocks, i :: q, s.visits⟩ := by
        rw [← hq]
        exact h
      have hlower := hs.potential_lt
      refine ih hs.visit ?_
      rw [← hq] at hlower
      exact Nat.le_of_lt_succ (Nat.lt_of_lt_of_le hlower hfuel)

/-! ## The start -/

/-- Nothing has been found out yet about any block. -/
def Fresh (bs : List Facts) : Prop :=
  ∀ b ∈ bs, ∀ t, b.liveIn.contains t = false ∧ b.liveOut.contains t = false

theorem inv_start (hfresh : Fresh bs) : Search.Inv bs ⟨linked bs, allQueued bs.length, 0⟩ := by
  have hempty : ∀ {i : Nat} {b : Facts}, (linked bs)[i]? = some b →
      ∀ t, b.liveIn.contains t = false ∧ b.liveOut.contains t = false := by
    intro i b hb
    obtain ⟨b0, hb0, rfl⟩ := getElem?_linked hb
    exact hfresh b0 (List.mem_of_getElem? hb0)
  have hlength : (linked bs).length = bs.length := by
    rw [linked_eq, List.length_map, List.length_zipIdx]
  refine ⟨hlength, ?_, ?_, ?_, ?_, ?_, ?_⟩
  · intro i b hb
    obtain ⟨b0, hb0, rfl⟩ := getElem?_linked hb
    exact ⟨b0, hb0, rfl, rfl, rfl⟩
  · intro i b j c hb hc hi
    obtain ⟨b0, -, rfl⟩ := getElem?_linked hb
    obtain ⟨c0, hc0, rfl⟩ := getElem?_linked hc
    have hsucc : (bs.map (·.succ))[j]? = some c0.succ := by
      rw [List.getElem?_map, hc0]
      rfl
    exact mem_predecessors hsucc hi
  · intro i b hb t ht
    rw [(hempty hb t).1] at ht
    cases ht
  · intro i b hb t ht
    rw [(hempty hb t).2] at ht
    cases ht
  · intro i b hb t ht
    rw [(hempty hb t).1] at ht
    cases ht
  · -- every block waits
    intro i b hb hi
    have hlt : i < (linked bs).length := (List.getElem?_eq_some_iff.mp hb).1
    rw [hlength] at hlt
    exact absurd ((mem_allQueued bs.length i).mpr hlt) hi

/-- Counting the occurrences of different numbers in a list counts no element twice. -/
theorem sum_count_le (n : Nat) (xs : List Nat) :
    ((List.range n).map fun i => xs.count i).sum ≤ xs.length := by
  induction xs with
  | nil => simp
  | cons x xs ih =>
    have hone : ∀ n, ((List.range n).map fun i => if x == i then 1 else 0).sum
        = if x < n then 1 else 0 := by
      intro n
      induction n with
      | zero => rfl
      | succ n ihn =>
        rw [List.range_succ, List.map_append, List.sum_append, ihn]
        by_cases heq : x = n
        · simp [heq]
        · by_cases hlt : x < n
          · simp [heq, hlt, Nat.lt_succ_of_lt hlt]
          · simp [heq, hlt, show ¬ x < n + 1 by omega]
    have hsplit : ((List.range n).map fun i => (x :: xs).count i).sum
        = ((List.range n).map fun i => xs.count i).sum
          + ((List.range n).map fun i => if x == i then 1 else 0).sum := by
      rw [← List.sum_map_add]
      exact congrArg List.sum (List.map_congr_left fun i _ => List.count_cons)
    rw [hsplit, hone, List.length_cons]
    by_cases hlt : x < n
    · rw [if_pos hlt]
      omega
    · rw [if_neg hlt]
      omega

/-- The bound on visits is no less than the potential at the start. -/
theorem potential_start_le (bs : List Facts) :
    Search.potential (candidates bs) ⟨linked bs, allQueued bs.length, 0⟩ ≤ visitBound bs := by
  have hfew : (candidates bs).card ≤ tempBound bs := by
    refine Nat.le_trans (List.toFinset_card_le _) ?_
    unfold tempBound
    rw [List.length_flatMap, List.length_flatMap]
    refine List.sum_le_sum fun b _ => ?_
    rw [List.length_append, List.length_append]
    omega
  -- each block has as many predecessors as it is a successor, and at most all candidates missing
  have hterms : ((linked bs).map fun b => b.pred.length * b.missing (candidates bs)).sum
      ≤ ((List.range bs.length).map fun i =>
          (bs.flatMap (·.succ)).count i * (candidates bs).card).sum := by
    have hrange : List.range bs.length = bs.zipIdx.map Prod.snd := by
      rw [List.zipIdx_map_snd, List.range_eq_range']
    rw [hrange, linked_eq, List.map_map, List.map_map]
    refine List.sum_le_sum fun p _ => ?_
    show (predecessors (bs.map (·.succ)) p.2).length * _ ≤ _
    rw [predecessors, length_sources]
    exact Nat.mul_le_mul_left _ (Finset.card_filter_le _ _)
  have hedges : ((List.range bs.length).map fun i =>
      (bs.flatMap (·.succ)).count i * (candidates bs).card).sum
      ≤ edgeCount bs * (candidates bs).card := by
    rw [List.sum_map_mul_right]
    exact Nat.mul_le_mul_right _ (sum_count_le bs.length _)
  have hmul : edgeCount bs * (candidates bs).card ≤ edgeCount bs * (tempBound bs + 1) :=
    Nat.mul_le_mul_left _ (by omega)
  rw [Search.potential, length_allQueued]
  exact Nat.add_le_add_left (hterms.trans (hedges.trans hmul)) _

/-! ## The solution -/

/-- With no block waiting, what is live has been found. -/
theorem Search.Inv.complete (h : s.Inv bs) (hempty : s.queue = []) {t : Nat}
    (hlive : LiveAt bs t i) : ∀ b, s.blocks[i]? = some b → b.liveIn.contains t := by
  have hsettled : ∀ {i : Nat} {b : Facts}, s.blocks[i]? = some b → b.Settled s.blocks := by
    intro i b hb
    refine h.settled i b hb ?_
    rw [hempty]
    exact List.not_mem_nil
  induction hlive with
  | @use i b0 hb0 huse =>
    intro b hb
    obtain ⟨b1, hb1, halike⟩ := h.alike i b hb
    obtain rfl : b0 = b1 := Option.some.inj (hb0.symm.trans hb1)
    refine (hsettled hb).start t ((b.contains_transfer _ t).mpr (.inr ?_))
    rw [halike.use]
    exact huse
  | @through i c b0 hb0 hkeep hc hlive ih =>
    intro b hb
    obtain ⟨b1, hb1, halike⟩ := h.alike i b hb
    obtain rfl : b0 = b1 := Option.some.inj (hb0.symm.trans hb1)
    have hlt : c < s.blocks.length := by
      obtain ⟨_, hx⟩ := hlive.block
      rw [h.length]
      exact (List.getElem?_eq_some_iff.mp hx).1
    have hx := List.getElem?_eq_getElem hlt
    have hout : b.liveOut.contains t := by
      refine (hsettled hb).out c ?_ _ hx t (ih _ hx)
      rw [halike.succ]
      exact hc
    refine (hsettled hb).start t ((b.contains_transfer _ t).mpr (.inl ⟨hout, ?_⟩))
    rw [halike.defs]
    exact hkeep

/-- The solver answers if every successor is a block, and its answer is the least solution of the
equations: exactly what is live. -/
theorem solve_live (hfresh : Fresh bs) (hsucc : ∀ b ∈ bs, ∀ c ∈ b.succ, c < bs.length) :
    ∃ r n, solve bs = .ok (r, n) ∧ r.length = bs.length ∧
      ∀ i b, bs[i]? = some b → ∃ x, r[i]? = some x ∧ (∀ t, x.liveIn.contains t ↔ LiveAt bs t i) ∧
        ∀ t, x.liveOut.contains t ↔ ∃ c ∈ b.succ, LiveAt bs t c := by
  have hall : (bs.all fun b => b.succ.all (· < bs.length)) := by
    refine List.all_eq_true.mpr fun b hb => List.all_eq_true.mpr fun c hc => ?_
    exact decide_eq_true (hsucc b hb c hc)
  obtain ⟨hinv, hempty⟩ := (inv_start hfresh).run (potential_start_le bs)
  refine ⟨_, _, by rw [solve, if_pos hall], hinv.length, fun i b hb => ?_⟩
  have hlt := (List.getElem?_eq_some_iff.mp hb).1
  rw [← hinv.length] at hlt
  have hx := List.getElem?_eq_getElem hlt
  obtain ⟨b1, hb1, halike⟩ := hinv.alike i _ hx
  obtain rfl : b = b1 := Option.some.inj (hb.symm.trans hb1)
  refine ⟨_, hx, fun t => ⟨hinv.start i _ hx t, fun hlive => hinv.complete hempty hlive _ hx⟩,
    fun t => ⟨fun ht => ?_, fun ⟨c, hc, hlive⟩ => ?_⟩⟩
  · obtain ⟨c, hc, hlive⟩ := hinv.out i _ hx t ht
    rw [halike.succ] at hc
    exact ⟨c, hc, hlive⟩
  · have hclt : c < _ := hsucc b (List.mem_of_getElem? hb) c hc
    rw [← hinv.length] at hclt
    have hy := List.getElem?_eq_getElem hclt
    refine (hinv.settled i _ hx (by rw [hempty]; exact List.not_mem_nil)).out c ?_ _ hy t
      (hinv.complete hempty hlive _ hy)
    rw [halike.succ]
    exact hc

end TreeAsm.Liveness
