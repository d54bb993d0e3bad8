import Mathlib.Data.Finset.Basic
import Mathlib.Data.Finset.Card
import TreeAsm.Proofs.Liveness.Sets

/-!
# Sets of words as sets of numbers

A program that works on several sets of words is compared with the same program on finite sets of
numbers (`Step.run`, `Step.meaning`). Every step keeps the members of all sets the same on both sides
(`Represents`), whatever the numbers of words are: a set may have more words than another, and words
that have become empty stay. What can be asked about a set is then what the numbers in it say.
-/

namespace TreeAsm.BitSet

open Function (update)

/-! ## The remaining operations by their members -/

section

variable (s x : BitSet)

theorem getD_clearBit (words : List (BitVec 64)) (i j n : Nat) :
    (clearBit words i j)[n]?.getD 0 =
      if n = i then words[n]?.getD 0 &&& ~~~ bit j else words[n]?.getD 0 := by
  induction words generalizing i n with
  | nil => simp [clearBit]
  | cons w ws ih =>
    cases i with
    | zero => cases n <;> simp [clearBit]
    | succ i =>
      cases n with
      | zero => simp [clearBit]
      | succ n => simpa [clearBit] using ih i n

/-- The word of a number has its bit, and no other number of the same word has. -/
theorem getLsbD_bit (j k : Nat) (hj : j < 64) : (bit j).getLsbD k = decide (j = k) := by
  rw [bit, BitVec.getLsbD_shiftLeft, BitVec.getLsbD_one, Bool.eq_iff_iff]
  simp only [Bool.and_eq_true, Bool.not_eq_true', decide_eq_true_eq, decide_eq_false_iff_not]
  omega

theorem contains_erase_iff (j k : Nat) : (s.erase j).contains k ↔ s.contains k ∧ k ≠ j := by
  have hlt : k % 64 < 64 := Nat.mod_lt _ (by decide)
  rw [contains_eq_getLsbD, contains_eq_getLsbD, erase, getD_clearBit]
  by_cases hword : k / 64 = j / 64
  · rw [if_pos hword, BitVec.getLsbD_and, BitVec.getLsbD_not,
      getLsbD_bit _ _ (Nat.mod_lt j (by decide))]
    have hsame : j % 64 = k % 64 ↔ k = j := by omega
    simp [hlt, hsame]
  · rw [if_neg hword]
    have hne : k ≠ j := fun he => hword (by rw [he])
    simp [hne]

theorem getD_intersectWords (ws xs : List (BitVec 64)) (n : Nat) :
    (intersectWords ws xs)[n]?.getD 0 = ws[n]?.getD 0 &&& xs[n]?.getD 0 := by
  induction ws generalizing xs n with
  | nil => simp [intersectWords]
  | cons w ws ih =>
    cases xs with
    | nil =>
      cases n with
      | zero => simp [intersectWords]
      | succ n => simpa [intersectWords] using ih [] n
    | cons x xs =>
      cases n with
      | zero => simp [intersectWords]
      | succ n => simpa [intersectWords] using ih xs n

theorem contains_intersect (k : Nat) :
    (s.intersect x).contains k = (s.contains k && x.contains k) := by
  rw [contains_eq_getLsbD, contains_eq_getLsbD, contains_eq_getLsbD, intersect, getD_intersectWords,
    BitVec.getLsbD_and]

theorem contains_reset (k : Nat) : s.reset.contains k = false := by
  rw [contains_eq_getLsbD, reset, List.getElem?_map]
  cases s.words[k / 64]? <;> simp

theorem contains_insertAll_iff (ks : List Nat) (k : Nat) :
    (s.insertAll ks).contains k ↔ s.contains k ∨ k ∈ ks := by
  induction ks generalizing s with
  | nil => simp [insertAll]
  | cons j ks ih =>
    have hstep : s.insertAll (j :: ks) = (s.insert j).insertAll ks := rfl
    rw [hstep, ih, contains_insert_iff, List.mem_cons, or_assoc, @eq_comm _ j k]

/-! ## Whether a union is larger -/

theorem mergeWords_changed_iff (ws xs : List (BitVec 64)) :
    (mergeWords ws xs).1 ↔ ∃ n : Nat, ws[n]?.getD 0 ||| xs[n]?.getD 0 ≠ ws[n]?.getD 0 := by
  -- the first words differ, or some of the others do
  have hcons : ∀ (P : Nat → Prop) (b c : Bool), (b ↔ P 0) → (c ↔ ∃ n, P (n + 1)) →
      ((b || c) ↔ ∃ n, P n) := by
    intro P b c hb hc
    rw [Bool.or_eq_true, hb, hc]
    constructor
    · rintro (h | ⟨n, h⟩)
      · exact ⟨0, h⟩
      · exact ⟨n + 1, h⟩
    · rintro ⟨n, h⟩
      cases n with
      | zero => exact Or.inl h
      | succ n => exact Or.inr ⟨n, h⟩
  induction xs generalizing ws with
  | nil => cases ws <;> simp [mergeWords]
  | cons x xs ih =>
    cases ws with
    | nil =>
      rw [mergeWords]
      refine hcons _ _ _ ?_ ?_
      · simp
      · simpa using ih []
    | cons w ws =>
      rw [mergeWords]
      refine hcons _ _ _ ?_ ?_
      · simp
      · simpa using ih ws

theorem merge_changed_iff : (s.merge x).1 ↔ ∃ k, x.contains k ∧ s.contains k = false := by
  have hmerge : (s.merge x).1 = (mergeWords s.words x.words).1 := rfl
  rw [hmerge, mergeWords_changed_iff]
  constructor
  · rintro ⟨n, hne⟩
    -- words differ in some bit, which the second has and the first lacks
    obtain ⟨j, hj, hbit⟩ : ∃ j < 64, ((s.words[n]?.getD 0 ||| x.words[n]?.getD 0).getLsbD j
        ≠ (s.words[n]?.getD 0).getLsbD j) := by
      by_contra hall
      push Not at hall
      exact hne (BitVec.eq_of_getLsbD_eq hall)
    refine ⟨64 * n + j, ?_⟩
    have hdiv : (64 * n + j) / 64 = n := by omega
    have hmod : (64 * n + j) % 64 = j := by omega
    rw [contains_eq_getLsbD, contains_eq_getLsbD, hdiv, hmod]
    rw [BitVec.getLsbD_or] at hbit
    revert hbit
    cases (s.words[n]?.getD 0).getLsbD j <;> simp
  · rintro ⟨k, hx, hs⟩
    refine ⟨k / 64, fun he => ?_⟩
    rw [contains_eq_getLsbD] at hx hs
    have hbit := congrArg (·.getLsbD (k % 64)) he
    simp only [BitVec.getLsbD_or, hx, hs] at hbit
    cases hbit

/-! ## The order of the members -/

theorem le_of_mem_elemsFrom {base k : Nat} {ws : List (BitVec 64)} (h : k ∈ elemsFrom base ws) :
    base ≤ k := ((mem_elemsFrom ws base k).mp h).1

theorem elemsFrom_ascending (base : Nat) (ws : List (BitVec 64)) :
    (elemsFrom base ws).Pairwise (· < ·) := by
  induction ws generalizing base with
  | nil => exact List.Pairwise.nil
  | cons w ws ih =>
    have hword : ((bitsOf w).map (base + ·)).Pairwise (· < ·) := by
      refine List.Pairwise.map _ (fun a b hlt => ?_) (List.pairwise_lt_range.filter _)
      exact Nat.add_lt_add_left hlt base
    refine List.pairwise_append.mpr ⟨hword, ih (base + 64), fun a ha b hb => ?_⟩
    obtain ⟨j, hj, rfl⟩ := List.mem_map.mp ha
    have hlt : j < 64 := List.mem_range.mp (List.mem_filter.mp hj).1
    have hle := le_of_mem_elemsFrom hb
    omega

theorem toList_ascending : s.toList.Pairwise (· < ·) := by
  rw [toList_eq]
  exact elemsFrom_ascending 0 s.words

theorem size_eq_length : s.size = s.toList.length := by
  have hwords : ∀ (ws : List (BitVec 64)) (base : Nat),
      (ws.flatMap bitsOf).length = (elemsFrom base ws).length := by
    intro ws
    induction ws with
    | nil => exact fun _ => rfl
    | cons w ws ih =>
      intro base
      rw [List.flatMap_cons, List.length_append, ih (base + 64), elemsFrom, List.length_append,
        List.length_map]
  rw [toList_eq]
  exact hwords s.words 0

/-! ## Visitors -/

theorem visit_eq_feed {α : Type} (f : α → Nat → Bool × α) (a : α) :
    s.visit f a = (feed f s.toList a).2 := by
  rw [visit, feedWords_eq, toList_eq]

/-- A visitor that has seen some numbers and leaves after `n + 1` of them sees as many as are left. -/
theorem feed_counting (n : Nat) (ks seen : List Nat) (h : seen.length ≤ n) :
    (feed (fun seen k => (decide (seen.length < n), k :: seen)) ks seen).2
      = (ks.take (n + 1 - seen.length)).reverse ++ seen := by
  induction ks generalizing seen with
  | nil => simp [feed]
  | cons k ks ih =>
    have hleft : n + 1 - seen.length = n - seen.length + 1 := by omega
    rw [hleft, List.take_succ_cons, List.reverse_cons, List.append_assoc, feed]
    by_cases hmore : seen.length < n
    · simp only [hmore, decide_true]
      rw [ih (k :: seen) hmore, List.length_cons, Nat.add_sub_add_right]
      rfl
    · have hdone : n - seen.length = 0 := by omega
      simp only [hmore, decide_false]
      rw [hdone]
      rfl

theorem first_eq_take (n : Nat) : s.first n = s.toList.take n := by
  cases n with
  | zero => rfl
  | succ n =>
    rw [first, visit_eq_feed, feed_counting n s.toList [] (Nat.zero_le n), List.append_nil,
      List.reverse_reverse]
    rfl

end

/-! ## Programs on sets -/

/-- A step of a program that works on numbered sets. -/
inductive Step where
  | make (i : Nat) (ks : List Nat)
  | insert (i k : Nat)
  | insertAll (i : Nat) (ks : List Nat)
  | erase (i k : Nat)
  | merge (i j : Nat)
  | subtract (i j : Nat)
  | intersect (i j : Nat)
  | copy (i j : Nat)
  | reset (i : Nat)
  deriving DecidableEq, Repr

/-- The sets of words after a step. -/
def Step.run (σ : Nat → BitSet) : Step → Nat → BitSet
  | make i ks => update σ i (.ofList ks)
  | insert i k => update σ i ((σ i).insert k)
  | insertAll i ks => update σ i ((σ i).insertAll ks)
  | erase i k => update σ i ((σ i).erase k)
  | merge i j => update σ i ((σ i).merge (σ j)).2
  | subtract i j => update σ i ((σ i).subtract (σ j))
  | intersect i j => update σ i ((σ i).intersect (σ j))
  | copy i j => update σ i (σ j)
  | reset i => update σ i (σ i).reset

/-- The sets of numbers after a step. -/
def Step.meaning (S : Nat → Finset Nat) : Step → Nat → Finset Nat
  | make i ks => update S i ks.toFinset
  | insert i k => update S i (Insert.insert k (S i))
  | insertAll i ks => update S i (S i ∪ ks.toFinset)
  | erase i k => update S i ((S i).erase k)
  | merge i j => update S i (S i ∪ S j)
  | subtract i j => update S i (S i \ S j)
  | intersect i j => update S i (S i ∩ S j)
  | copy i j => update S i (S j)
  | reset i => update S i ∅

/-- A set of words has the members of a set of numbers. -/
def Represents (s : BitSet) (S : Finset Nat) : Prop := ∀ k, s.contains k = true ↔ k ∈ S

section

variable {s x : BitSet} {S X : Finset Nat}

theorem represents_empty : Represents ∅ ∅ := fun k => by simp

/-- A set that is changed on both sides is represented, and so are all others. -/
theorem represents_update {σ : Nat → BitSet} {M : Nat → Finset Nat} (h : ∀ i, Represents (σ i) (M i))
    (i : Nat) (hi : Represents s S) (l : Nat) : Represents (update σ i s l) (update M i S l) := by
  by_cases hl : l = i
  · subst hl
    rw [Function.update_self, Function.update_self]
    exact hi
  · rw [Function.update_of_ne hl, Function.update_of_ne hl]
    exact h l

/-- Every step does to the sets of words what it does to the sets of numbers. -/
theorem Step.run_represents {σ : Nat → BitSet} {M : Nat → Finset Nat}
    (h : ∀ i, Represents (σ i) (M i)) (step : Step) (l : Nat) :
    Represents (step.run σ l) (step.meaning M l) := by
  cases step with
  | make i ks =>
    refine represents_update h i (fun k => ?_) l
    have hempty : (empty : BitSet).contains k = false := contains_empty k
    rw [ofList, contains_insertAll_iff, hempty, List.mem_toFinset]
    simp
  | insert i k =>
    refine represents_update h i (fun n => ?_) l
    rw [contains_insert_iff, h i n, Finset.mem_insert, or_comm, eq_comm]
  | insertAll i ks =>
    refine represents_update h i (fun n => ?_) l
    rw [contains_insertAll_iff, h i n, Finset.mem_union, List.mem_toFinset]
  | erase i k =>
    refine represents_update h i (fun n => ?_) l
    rw [contains_erase_iff, h i n, Finset.mem_erase, and_comm]
  | merge i j =>
    refine represents_update h i (fun n => ?_) l
    have hunion : ((σ i).merge (σ j)).2 = (σ i).union (σ j) := rfl
    rw [hunion, contains_union, Bool.or_eq_true, h i n, h j n, Finset.mem_union]
  | subtract i j =>
    refine represents_update h i (fun n => ?_) l
    rw [contains_subtract, Bool.and_eq_true, Bool.not_eq_true', ← Bool.not_eq_true, h i n, h j n,
      Finset.mem_sdiff]
  | intersect i j =>
    refine represents_update h i (fun n => ?_) l
    rw [contains_intersect, Bool.and_eq_true, h i n, h j n, Finset.mem_inter]
  | copy i j => exact represents_update h i (h j) l
  | reset i =>
    refine represents_update h i (fun n => ?_) l
    rw [contains_reset]
    simp

/-- So does a whole program. -/
theorem foldl_represents (steps : List Step) : ∀ {σ : Nat → BitSet} {M : Nat → Finset Nat},
    (∀ i, Represents (σ i) (M i)) →
    ∀ i, Represents (steps.foldl Step.run σ i) (steps.foldl Step.meaning M i) := by
  induction steps with
  | nil => exact fun h => h
  | cons step steps ih => exact fun h => ih fun i => step.run_represents h i

theorem Represents.equal_iff (hs : Represents s S) (hx : Represents x X) : s.equal x ↔ S = X := by
  rw [BitSet.equal_iff, Finset.ext_iff]
  exact forall_congr' fun k => by rw [hs k, hx k]

theorem Represents.changed_iff (hs : Represents s S) (hx : Represents x X) :
    (s.merge x).1 ↔ ¬ X ⊆ S := by
  rw [merge_changed_iff, Finset.not_subset]
  refine exists_congr fun k => ?_
  rw [hx k, ← Bool.not_eq_true, hs k]

theorem Represents.mem_toList_iff (hs : Represents s S) (k : Nat) : k ∈ s.toList ↔ k ∈ S := by
  rw [mem_toList, hs k]

theorem Represents.size_eq (hs : Represents s S) : s.size = S.card := by
  have hnodup : s.toList.Nodup := s.toList_ascending.imp Nat.ne_of_lt
  have hfinset : s.toList.toFinset = S := by
    ext k
    rw [List.mem_toFinset, hs.mem_toList_iff]
  rw [size_eq_length, ← hfinset, List.toFinset_card_of_nodup hnodup]

end

/-- What can be asked about numbered sets of words, answered by numbered sets of numbers. -/
structure Refines (σ : Nat → BitSet) (S : Nat → Finset Nat) : Prop where
  contains_iff : ∀ i k, (σ i).contains k = true ↔ k ∈ S i
  /-- Sets are equal if they have the same members, whatever their numbers of words. -/
  equal_iff : ∀ i j, (σ i).equal (σ j) = true ↔ S i = S j
  /-- A union is larger unless the other set was a subset. -/
  changed_iff : ∀ i j, ((σ i).merge (σ j)).1 = true ↔ ¬ S j ⊆ S i
  size_eq : ∀ i, (σ i).size = (S i).card
  /-- The list of a set has exactly its members. -/
  mem_toList_iff : ∀ i k, k ∈ (σ i).toList ↔ k ∈ S i
  /-- The list of a set strictly ascends. -/
  ascending : ∀ i, (σ i).toList.Pairwise (· < ·)
  /-- A visitor is shown the numbers of this list, until it has seen enough. -/
  visit_eq : ∀ i (α : Type) (f : α → Nat → Bool × α) (a : α),
    (σ i).visit f a = (feed f (σ i).toList a).2
  /-- A visitor that leaves after some of them has seen the smallest. -/
  first_eq : ∀ i n, (σ i).first n = (σ i).toList.take n

/-- Sets of words on which any program has worked are the sets of numbers on which it has worked. -/
theorem program_refines (steps : List Step) :
    Refines (steps.foldl Step.run fun _ => ∅) (steps.foldl Step.meaning fun _ => ∅) := by
  have h : ∀ i, Represents (steps.foldl Step.run (fun _ => ∅) i)
      (steps.foldl Step.meaning (fun _ => ∅) i) :=
    foldl_represents steps fun _ => represents_empty
  exact
    { contains_iff := h
      equal_iff := fun i j => (h i).equal_iff (h j)
      changed_iff := fun i j => (h i).changed_iff (h j)
      size_eq := fun i => (h i).size_eq
      mem_toList_iff := fun i => (h i).mem_toList_iff
      ascending := fun i => toList_ascending _
      visit_eq := fun i _ f a => visit_eq_feed _ f a
      first_eq := fun i n => first_eq_take _ n }

end TreeAsm.BitSet
