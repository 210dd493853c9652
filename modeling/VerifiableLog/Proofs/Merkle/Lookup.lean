import VerifiableLog.Proofs.Merkle.NodeSet
import VerifiableLog.Proofs.Merkle.Range

/-!
What the hash of a range is read from. The places that are looked up depend on the range alone, and
the hash is found exactly if there is a node at each of them. In a tree that holds a list of leaves,
whichever way it came by them, there is, and the hash of any range, aligned or not, is the root over
that part of the list.
-/

namespace VerifiableLog.Merkle.Accumulator

/-! ### Lookups -/

/-- The levels and indices at which the hash of a range looks for a node, from left to right. -/
def lookups (start stop : Nat) : List (Nat × Nat) :=
  let count := stop - start
  if count = 0 then []
  else
    let level := Nat.log2 count
    if 1 <<< level = count ∧ start % count = 0 then [(level, start / count)]
    else if _ : 2 ≤ count then
      lookups start (start + splitPoint count) ++ lookups (start + splitPoint count) stop
    else []
termination_by stop - start
decreasing_by
  · have bound := splitPoint_lt (show 2 ≤ stop - start by omega)
    omega
  · have bound := splitPoint_pos (stop - start)
    omega

theorem within_of_mem_lookups {start stop : Nat} (ordered : start ≤ stop) {place : Nat × Nat}
    (member : place ∈ lookups start stop) : (place.2 + 1) * 2 ^ place.1 ≤ stop := by
  fun_induction lookups start stop with
  | case1 start stop count empty => simp at member
  | case2 start stop count inhabited level aligned =>
      obtain ⟨power, -, next⟩ := aligned_range ordered aligned
      obtain rfl := List.mem_singleton.mp member
      show (start / (stop - start) + 1) * 2 ^ Nat.log2 (stop - start) ≤ stop
      exact Nat.le_of_eq (by rw [power, next])
  | case3 start stop count inhabited level unaligned several left right =>
      have bound := splitPoint_lt several
      rcases List.mem_append.mp member with before | behind
      · exact Nat.le_trans (left (by omega) before) (by omega)
      · exact right (by omega) behind
  | case4 start stop count inhabited level unaligned few => simp at member

theorem exists_hashChildren_iff (left right : Except MerkleError Digest) :
    (∃ hash, (do
      let left ← left
      let right ← right
      return hashChildren left right : Except MerkleError Digest) = .ok hash) ↔
      (∃ hash, left = .ok hash) ∧ ∃ hash, right = .ok hash := by
  cases left <;> cases right <;> simp [bind, Except.bind, pure, Except.pure]

theorem exists_rangeHash_iff (tree : Accumulator) (start stop : Nat) :
    (∃ hash, tree.rangeHash start stop = .ok hash) ↔
      ∀ place ∈ lookups start stop, ∃ hash, tree.node? place.1 place.2 = some hash := by
  fun_induction lookups start stop with
  | case1 start stop count empty => simp [rangeHash_of_empty tree empty]
  | case2 start stop count inhabited level aligned =>
      rw [rangeHash_of_aligned tree inhabited aligned]
      simp only [List.mem_singleton, forall_eq]
      cases tree.node? level (start / count) <;> simp
  | case3 start stop count inhabited level unaligned several left right =>
      rw [rangeHash_of_unaligned tree inhabited unaligned, exists_hashChildren_iff, left, right]
      simp [or_imp, forall_and]
  | case4 start stop count inhabited level unaligned few =>
      exact absurd (two_le_of_not_complete inhabited unaligned) few

theorem exists_row_of_node? {tree : Accumulator} {level index : Nat} {hash : Digest}
    (found : tree.node? level index = some hash) :
    ∃ nodes, tree.levels[level]? = some nodes ∧ index < nodes.size := by
  obtain ⟨nodes, level, inside⟩ := Option.bind_eq_some_iff.mp found
  exact ⟨nodes, level, (Array.getElem?_eq_some_iff.mp inside).1⟩

/-! ### Trees over a list of leaves -/

/-- The tree has come by these leaves, in this order: batch after batch, each at once or by a plan
that was made of the tree, and rebuilt from its nodes as often as is wished. -/
inductive Holds : Accumulator → List Digest → Prop
  | empty : Holds .empty []
  | extended {tree leaves} (batch : List Digest) :
      Holds tree leaves → Holds (tree.extend batch) (leaves ++ batch)
  | applied {tree grown leaves} (batch : List Digest) : Holds tree leaves →
      tree.apply (tree.planAppend batch) = .ok grown → Holds grown (leaves ++ batch)
  | rebuilt {tree again leaves} (nodes : List (NodeAddress × Digest)) : Holds tree leaves →
      nodes.Perm tree.nodes → ofNodes nodes = .ok again → Holds again leaves

theorem Holds.eq_ofLeaves {tree : Accumulator} {leaves : List Digest} (holds : tree.Holds leaves)
    (fits : leaves.length < 2 ^ 64) : tree = ofLeaves leaves := by
  induction holds with
  | empty => exact ofLeaves_nil.symm
  | extended batch earlier ih =>
      have before := fits
      rw [List.length_append] at before
      rw [ih (by omega), extend_ofLeaves fits]
  | applied batch earlier accepted ih =>
      have before := fits
      rw [List.length_append] at before
      rw [apply_planAppend, ih (by omega), extend_ofLeaves fits] at accepted
      exact (Except.ok.inj accepted).symm
  | @rebuilt tree again leaves nodes earlier same accepted ih =>
      rw [ih fits] at same
      have size : (ofLeaves leaves).size < 2 ^ 64 := by rwa [size_ofLeaves]
      rw [(complete_ofLeaves leaves).ofNodes_of_perm size same] at accepted
      exact (Except.ok.inj accepted).symm

/-- The hash of a range of the leaves that a tree holds is the root over them, and every lookup on
the way is of a level that is there, and inside it. -/
theorem rangeHash_exact {tree : Accumulator} {leaves : List Digest} (holds : tree.Holds leaves)
    (fits : leaves.length < 2 ^ 64) {start stop : Nat} (ordered : start ≤ stop)
    (within : stop ≤ leaves.length) :
    tree.rangeHash start stop = .ok (rootOf ((leaves.take stop).drop start)) ∧
      ∀ place ∈ lookups start stop,
        ∃ nodes, tree.levels[place.1]? = some nodes ∧ place.2 < nodes.size := by
  obtain rfl := holds.eq_ofLeaves fits
  have hashed := rangeHash_ofLeaves ordered within
  refine ⟨hashed, ?_⟩
  intro place member
  obtain ⟨hash, found⟩ := (exists_rangeHash_iff _ start stop).mp ⟨_, hashed⟩ place member
  exact exists_row_of_node? found

theorem rangeHash_exact_unaligned :
    let tree := (empty.extend [hashLeaf [1]]).extend [hashLeaf [2], hashLeaf [3]]
    ofNodes tree.nodes.reverse = .ok tree ∧
      tree.rangeHash 1 3 = .ok (rootOf [hashLeaf [2], hashLeaf [3]]) ∧
      ∃ nodes, tree.levels[0]? = some nodes ∧ 2 < nodes.size := by
  intro tree
  have grown : tree.Holds [hashLeaf [1], hashLeaf [2], hashLeaf [3]] :=
    .applied [hashLeaf [2], hashLeaf [3]] (.extended [hashLeaf [1]] .empty)
      (apply_planAppend (empty.extend [hashLeaf [1]]) [hashLeaf [2], hashLeaf [3]])
  have complete := complete_ofLeaves [hashLeaf [1], hashLeaf [2], hashLeaf [3]]
  rw [← grown.eq_ofLeaves (by simp)] at complete
  have size : tree.size < 2 ^ 64 := by decide +kernel
  have accepted := complete.ofNodes_of_perm size (List.reverse_perm tree.nodes)
  obtain ⟨hashed, inside⟩ := rangeHash_exact
    (grown.rebuilt tree.nodes.reverse (List.reverse_perm tree.nodes) accepted) (by simp)
    (show 1 ≤ 3 by decide) (by simp)
  have one : Nat.log2 1 = 0 := by decide
  exact ⟨accepted, hashed, inside (0, 2) (by simp [lookups, splitPoint_two, one])⟩

end VerifiableLog.Merkle.Accumulator
