import TreeAsm.Liveness.Solver

/-!
# The predecessors of blocks

Blocks are linked edge by edge (`addEdges`). Each edge to a block puts its source behind the predecessors
that the block has. So, by induction on the edges of one block and then on the blocks, a block ends up
with the sources of all edges to it, in order and once for each edge (`linked_eq`).
-/

namespace TreeAsm.Liveness

/-- The sources of the edges to block `i`, where the first block is block `n`. -/
def sources (i : Nat) : (n : Nat) → (succs : List (List Nat)) → List Nat
  | _, [] => []
  | n, succ :: succs => List.replicate (succ.count i) n ++ sources i (n + 1) succs

/-- The sources of the edges to block `i`, once per edge and in ascending order. -/
def predecessors (succs : List (List Nat)) (i : Nat) : List Nat := sources i 0 succs

/-- A block with more predecessors. -/
def Facts.linkedTo (b : Facts) (pred : List Nat) : Facts := { b with pred := b.pred ++ pred }

variable {bs : List Facts} {i j n : Nat}

theorem getElem?_addEdge_foldl (succ : List Nat) (bs : List Facts) :
    (succ.foldl (addEdge n) bs)[i]? = bs[i]?.map (·.linkedTo (List.replicate (succ.count i) n)) := by
  induction succ generalizing bs with
  | nil => simp [Facts.linkedTo]
  | cons j succ ih =>
    rw [List.foldl_cons, ih, addEdge, List.getElem?_modify]
    cases bs[i]? with
    | none => rfl
    | some b => by_cases hj : j = i <;> simp [hj, Facts.linkedTo, List.replicate_succ]

theorem getElem?_addEdges (cs bs : List Facts) : (addEdges bs (cs.zipIdx n))[i]?
    = bs[i]?.map (·.linkedTo (sources i n (cs.map (·.succ)))) := by
  induction cs generalizing bs n with
  | nil => simp [addEdges, Facts.linkedTo, sources]
  | cons c cs ih =>
    rw [List.zipIdx_cons, addEdges, List.foldl_cons, ← addEdges, ih, getElem?_addEdge_foldl, Option.map_map]
    simp [Facts.linkedTo, sources, Function.comp_def]

theorem linked_eq (bs : List Facts) :
    linked bs = bs.zipIdx.map fun (b, i) => { b with pred := predecessors (bs.map (·.succ)) i } := by
  refine List.ext_getElem? fun i => ?_
  rw [linked, getElem?_addEdges, List.getElem?_map, List.getElem?_map, List.getElem?_zipIdx, Option.map_map,
    Option.map_map]
  simp [Facts.linkedTo, predecessors, Function.comp_def]

theorem getElem?_linked {b : Facts} (h : (linked bs)[i]? = some b) :
    ∃ b0, bs[i]? = some b0 ∧ b = { b0 with pred := predecessors (bs.map (·.succ)) i } := by
  rw [linked_eq, List.getElem?_map, List.getElem?_zipIdx, Option.map_map] at h
  obtain ⟨b0, hb0, rfl⟩ := Option.map_eq_some_iff.mp h
  exact ⟨b0, hb0, by simp⟩

/-- Sources ascend, and a block is there as often as it has an edge to block `i`. -/
theorem sources_ascending (succs : List (List Nat)) (i n : Nat) : (∀ j ∈ sources i n succs, n ≤ j) ∧
    (sources i n succs).Pairwise (· ≤ ·) ∧
    ∀ j, (sources i n succs).count j = if n ≤ j then (succs[j - n]?.getD []).count i else 0 := by
  induction succs generalizing n with
  | nil => simp [sources]
  | cons succ succs ih =>
    obtain ⟨hle, hasc, hcount⟩ := ih (n + 1)
    refine ⟨fun j hj => ?_, List.pairwise_append.mpr ⟨?_, hasc, fun a ha j hj => ?_⟩, fun j => ?_⟩
    · rcases List.mem_append.mp hj with hj | hj
      · exact Nat.le_of_eq (List.eq_of_mem_replicate hj).symm
      · exact Nat.le_of_succ_le (hle j hj)
    · exact List.pairwise_replicate.mpr (.inr (Nat.le_refl n))
    · rw [List.eq_of_mem_replicate ha]
      exact Nat.le_of_succ_le (hle j hj)
    · rw [sources, List.count_append, List.count_replicate, hcount]
      rcases Nat.lt_trichotomy j n with hlt | rfl | hgt
      · rw [if_neg (by simp; omega), if_neg (by omega), if_neg (by omega)]
      · rw [if_pos (by simp), if_neg (by omega), if_pos (Nat.le_refl j)]
        simp
      · obtain ⟨k, rfl⟩ : ∃ k, j = n + 1 + k := ⟨j - (n + 1), by omega⟩
        rw [if_neg (by simp; omega), if_pos (by omega), if_pos (by omega), Nat.zero_add,
          Nat.add_sub_cancel_left, show n + 1 + k - n = k + 1 by omega, List.getElem?_cons_succ]

theorem predecessors_ascending (succs : List (List Nat)) (i : Nat) :
    (predecessors succs i).Pairwise (· ≤ ·) ∧
      ∀ j, (predecessors succs i).count j = (succs[j]?.getD []).count i := by
  obtain ⟨-, hasc, hcount⟩ := sources_ascending succs i 0
  exact ⟨hasc, fun j => by rw [predecessors, hcount, if_pos (Nat.zero_le j), Nat.sub_zero]⟩

/-- The predecessors of a block are the blocks that have it as a successor. -/
theorem mem_predecessors {succs : List (List Nat)} {succ : List Nat} (hj : succs[j]? = some succ)
    (hi : i ∈ succ) : j ∈ predecessors succs i := by
  rw [← List.count_pos_iff, (predecessors_ascending succs i).2, hj]
  exact List.count_pos_iff.mpr hi

/-- Each edge has one source. -/
theorem length_sources (succs : List (List Nat)) (i n : Nat) :
    (sources i n succs).length = succs.flatten.count i := by
  induction succs generalizing n with
  | nil => rfl
  | cons succ succs ih =>
    rw [sources, List.length_append, List.length_replicate, ih, List.flatten_cons, List.count_append]

end TreeAsm.Liveness
