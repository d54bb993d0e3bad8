import TreeAsm.Proofs.Ir.Arranged

/-!
# Sets of temporaries by their members

What the operations on sets do is said by the members alone: `contains` of a union, of a difference,
of a set with one more element. Two sets count as equal exactly if they have the same members
(`equal_iff`), whatever their numbers of words, and the list of a set is the list of its members.
-/

namespace TreeAsm.BitSet

/-- A number is a member if its bit is set in its word. -/
theorem contains_eq_getLsbD (s : BitSet) (k : Nat) :
    s.contains k = (s.words[k / 64]?.getD 0).getLsbD (k % 64) := by
  rw [contains_eq]
  generalize s.words[k / 64]?.getD 0 = w
  have hlt : k % 64 < 64 := Nat.mod_lt _ (by decide)
  have hand : w &&& bit (k % 64) = if w.getLsbD (k % 64) then bit (k % 64) else 0#64 := by
    rw [show bit (k % 64) = BitVec.twoPow 64 (k % 64) from (BitVec.twoPow_eq 64 (k % 64)).symm]
    exact BitVec.and_twoPow w (k % 64)
  rw [hand]
  by_cases hbit : w.getLsbD (k % 64)
  · rw [if_pos hbit, hbit, bne_iff_ne]
    exact bit_ne_zero hlt
  · rw [if_neg hbit, Bool.eq_false_iff.mpr hbit]
    rfl

@[simp] theorem contains_empty (k : Nat) : (∅ : BitSet).contains k = false := by
  rw [contains_eq_getLsbD]
  show (([] : List (BitVec 64))[k / 64]?.getD 0).getLsbD (k % 64) = false
  simp

theorem contains_insert_iff (s : BitSet) (j k : Nat) : (s.insert j).contains k ↔ s.contains k ∨ j = k := by
  refine ⟨fun h => ?_, contains_insert⟩
  rw [contains_eq_getLsbD] at h ⊢
  rw [insert, getD_setBit] at h
  by_cases hword : k / 64 = j / 64
  · rw [if_pos hword, BitVec.getLsbD_or, Bool.or_eq_true] at h
    refine h.imp_right fun hbit => ?_
    -- the only bit of the added word is that of `j`
    have hsame : k % 64 = j % 64 := by
      rw [bit, BitVec.getLsbD_shiftLeft] at hbit
      simp only [BitVec.getLsbD_one, Bool.and_eq_true, decide_eq_true_eq, Bool.not_eq_true',
        decide_eq_false_iff_not] at hbit
      omega
    omega
  · rw [if_neg hword] at h
    exact .inl h

/-! ## Unions and differences -/

theorem getD_mergeWords (s x : List (BitVec 64)) (n : Nat) :
    (mergeWords s x).2[n]?.getD 0 = s[n]?.getD 0 ||| x[n]?.getD 0 := by
  induction x generalizing s n with
  | nil => cases s <;> simp [mergeWords]
  | cons x xs ih =>
    cases s with
    | nil =>
      cases n with
      | zero => simp [mergeWords]
      | succ n => simpa [mergeWords] using ih [] n
    | cons w ws =>
      cases n with
      | zero => simp [mergeWords]
      | succ n => simpa [mergeWords] using ih ws n

@[simp] theorem contains_union (s x : BitSet) (k : Nat) :
    (s.union x).contains k = (s.contains k || x.contains k) := by
  rw [contains_eq_getLsbD, contains_eq_getLsbD, contains_eq_getLsbD]
  show ((mergeWords s.words x.words).2[k / 64]?.getD 0).getLsbD (k % 64) = _
  rw [getD_mergeWords, BitVec.getLsbD_or]

theorem getD_subtractWords (s x : List (BitVec 64)) (n : Nat) :
    (subtractWords s x)[n]?.getD 0 = s[n]?.getD 0 &&& ~~~ (x[n]?.getD 0) := by
  induction s generalizing x n with
  | nil => simp [subtractWords]
  | cons w ws ih =>
    cases x with
    | nil =>
      rw [subtractWords, List.getElem?_nil, Option.getD_none]
      · exact (BitVec.and_allOnes).symm
      · simp
    | cons x xs =>
      cases n with
      | zero => simp [subtractWords]
      | succ n => simpa [subtractWords] using ih xs n

@[simp] theorem contains_subtract (s x : BitSet) (k : Nat) :
    (s.subtract x).contains k = (s.contains k && !x.contains k) := by
  rw [contains_eq_getLsbD, contains_eq_getLsbD, contains_eq_getLsbD]
  show ((subtractWords s.words x.words)[k / 64]?.getD 0).getLsbD (k % 64) = _
  have hlt : k % 64 < 64 := Nat.mod_lt _ (by decide)
  rw [getD_subtractWords, BitVec.getLsbD_and, BitVec.getLsbD_not]
  simp [hlt]

/-! ## Equality -/

theorem equalWords_iff (s x : List (BitVec 64)) :
    equalWords s x ↔ ∀ n : Nat, s[n]?.getD 0 = x[n]?.getD 0 := by
  -- words beyond the end of the shorter list have to be zero
  have hzeros : ∀ ws : List (BitVec 64), (ws.all (· == 0)) ↔ ∀ n : Nat, ws[n]?.getD 0 = 0 := by
    intro ws
    rw [List.all_eq_true]
    constructor
    · intro h n
      cases hn : ws[n]? with
      | none => rfl
      | some w => exact eq_of_beq (h w (List.mem_of_getElem? hn))
    · intro h w hw
      obtain ⟨n, hn⟩ := List.mem_iff_getElem?.mp hw
      have hzero := h n
      rw [hn] at hzero
      exact beq_iff_eq.mpr hzero
  induction s generalizing x with
  | nil =>
    rw [equalWords, hzeros]
    simp only [List.getElem?_nil, Option.getD_none]
    exact forall_congr' fun n => eq_comm
  | cons w ws ih =>
    cases x with
    | nil =>
      rw [equalWords, hzeros]
      · simp only [List.getElem?_nil, Option.getD_none]
      · simp
    | cons x xs =>
      rw [equalWords, Bool.and_eq_true, beq_iff_eq]
      refine (and_congr_right fun _ => ih xs).trans ?_
      constructor
      · rintro ⟨rfl, hrest⟩ n
        cases n with
        | zero => rfl
        | succ n => simpa using hrest n
      · intro h
        exact ⟨by simpa using h 0, fun n => by simpa using h (n + 1)⟩

/-- Sets are equal if they have the same members. -/
theorem equal_iff (s x : BitSet) : s.equal x ↔ ∀ k, s.contains k ↔ x.contains k := by
  rw [equal, equalWords_iff]
  constructor
  · intro h k
    rw [contains_eq_getLsbD, contains_eq_getLsbD, h (k / 64)]
  · intro h n
    apply BitVec.eq_of_getLsbD_eq
    intro j hj
    have hk := h (64 * n + j)
    have hdiv : (64 * n + j) / 64 = n := by omega
    have hmod : (64 * n + j) % 64 = j := by omega
    rw [contains_eq_getLsbD, contains_eq_getLsbD, hdiv, hmod] at hk
    exact Bool.eq_iff_iff.mpr hk

/-! ## Members as a list -/

/-- The members that words stand for, where the first word starts at `base`. -/
def elemsFrom : (base : Nat) → (words : List (BitVec 64)) → List Nat
  | _, [] => []
  | base, w :: ws => (bitsOf w).map (base + ·) ++ elemsFrom (base + 64) ws

section

variable {α : Type} (f : α → Nat → Bool × α)

/-- A visitor of two lists sees the second if it still wants more after the first. -/
theorem feed_append (ks more : List Nat) (a : α) : feed f (ks ++ more) a =
      if (feed f ks a).1 then feed f more (feed f ks a).2 else feed f ks a := by
  induction ks generalizing a with
  | nil => rfl
  | cons k ks ih =>
    rw [List.cons_append, feed, feed]
    split
    · exact ih _
    · rfl

/-- Word by word a visitor sees the members one after the other. -/
theorem feedWords_eq (base : Nat) (ws : List (BitVec 64)) (a : α) :
    feedWords f base ws a = feed f (elemsFrom base ws) a := by
  induction ws generalizing base a with
  | nil => rfl
  | cons w ws ih =>
    rw [feedWords, elemsFrom, feed_append]
    split
    next a' h => rw [h, if_pos rfl, ih]
    next a' h => rw [h, if_neg Bool.false_ne_true]

end

/-- A visitor that never leaves collects all numbers. -/
theorem feed_collect (ks seen : List Nat) :
    (feed (fun seen k => (true, k :: seen)) ks seen).2 = ks.reverse ++ seen := by
  induction ks generalizing seen with
  | nil => rfl
  | cons k ks ih =>
    rw [feed, ih, List.reverse_cons, List.append_assoc]
    rfl

theorem toList_eq (s : BitSet) : s.toList = elemsFrom 0 s.words := by
  rw [toList, visit, feedWords_eq, feed_collect, List.append_nil, List.reverse_reverse]

theorem mem_elemsFrom (ws : List (BitVec 64)) (base k : Nat) : k ∈ elemsFrom base ws ↔
      base ≤ k ∧ (ws[(k - base) / 64]?.getD 0).getLsbD ((k - base) % 64) := by
  induction ws generalizing base with
  | nil => simp [elemsFrom]
  | cons w ws ih =>
    have hword : k ∈ (bitsOf w).map (base + ·) ↔ base ≤ k ∧ k < base + 64 ∧ w.getLsbD (k - base) := by
      simp only [bitsOf, List.mem_map, List.mem_filter, List.mem_range]
      constructor
      · rintro ⟨j, ⟨hj, hbit⟩, rfl⟩
        refine ⟨by omega, by omega, ?_⟩
        rwa [Nat.add_sub_cancel_left]
      · rintro ⟨hle, hlt, hbit⟩
        exact ⟨k - base, ⟨by omega, hbit⟩, by omega⟩
    rw [elemsFrom, List.mem_append, hword, ih]
    by_cases hle : base ≤ k
    · by_cases hlt : k < base + 64
      · -- a member of the first word
        have hdiv : (k - base) / 64 = 0 := by omega
        have hmod : (k - base) % 64 = k - base := by omega
        rw [hdiv, hmod]
        simp only [List.getElem?_cons_zero, Option.getD_some]
        constructor
        · rintro (⟨-, -, hbit⟩ | ⟨hge, -⟩)
          · exact ⟨hle, hbit⟩
          · omega
        · rintro ⟨-, hbit⟩
          exact .inl ⟨hle, hlt, hbit⟩
      · have hdiv : (k - base) / 64 = (k - (base + 64)) / 64 + 1 := by omega
        have hmod : (k - base) % 64 = (k - (base + 64)) % 64 := by omega
        rw [hdiv, hmod, List.getElem?_cons_succ]
        constructor
        · rintro (⟨-, hlt', -⟩ | ⟨-, hbit⟩)
          · exact absurd hlt' hlt
          · exact ⟨hle, hbit⟩
        · rintro ⟨-, hbit⟩
          exact .inr ⟨by omega, hbit⟩
    · constructor
      · rintro (⟨hle', -⟩ | ⟨hle', -⟩) <;> omega
      · rintro ⟨hle', -⟩
        exact absurd hle' hle

@[simp] theorem mem_toList (s : BitSet) (k : Nat) : k ∈ s.toList ↔ s.contains k := by
  rw [toList_eq, mem_elemsFrom, contains_eq_getLsbD, Nat.sub_zero]
  exact and_iff_right (Nat.zero_le k)

end TreeAsm.BitSet
